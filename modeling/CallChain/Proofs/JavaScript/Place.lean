import Mathlib
import CallChain.JavaScript.Grammar.Basic
import CallChain.Proofs.Text.Boundary

/-!
# Reading along a text

`Place.after before rest` is the place in a text between two parts of it. It depends on what was read only
through `before`, so that the leaves of a tree are known from the parts of the text in front of them and
the steps of the reader can be chained: each one leads from the place before a token to that behind it.
-/
namespace CallChain.JavaScript

/-- The position behind one more character. -/
def passed (p : Position) (c : Char) : Position :=
  if c = '\n' then ⟨p.line + 1, 0⟩ else ⟨p.line, p.column + c.utf8Size⟩

/-- The position behind a leading part of a text. -/
def endOf (before : List Char) : Position := before.foldl passed ⟨1, 0⟩

theorem endOf_concat (before : List Char) (c : Char) :
    endOf (before ++ [c]) = passed (endOf before) c := by
  rw [endOf, List.foldl_append]
  rfl

theorem line_endOf (before : List Char) : (endOf before).line = before.count '\n' + 1 := by
  induction before using List.reverseRecOn with
  | nil => rfl
  | append_singleton before c ih =>
    rw [endOf_concat, passed, List.count_append]
    split
    · next hc => rw [hc, ih, List.count_singleton_self]
    · next hc =>
      have hnone : [c].count '\n' = 0 := List.count_eq_zero.mpr (by simpa using Ne.symm hc)
      rw [ih, hnone]

/-- Where `word` stands, if `before` stands before it. -/
def spanOf (before word : List Char) : Span :=
  ⟨Text.byteLength before, Text.byteLength (before ++ word), endOf before, endOf (before ++ word)⟩

namespace Place

/-- The place behind `before` with `rest` still to be read. -/
def after (before rest : List Char) : Place :=
  ⟨rest, Text.byteLength before, (endOf before).line, (endOf before).column⟩

theorem step_after (before : List Char) (c : Char) (rest : List Char) :
    (after before (c :: rest)).step = after (before ++ [c]) rest := by
  simp only [step, after, endOf_concat, passed, Text.byteLength_append, Text.byteLength_cons,
    Text.byteLength_nil]
  split
  · next hc => rw [hc]; rfl
  · rfl

theorem skip_after (before word rest : List Char) :
    (after before (word ++ rest)).skip word.length = after (before ++ word) rest := by
  induction word generalizing before with
  | nil => simp [skip]
  | cons c word ih =>
    rw [List.cons_append, List.length_cons, skip, step_after, ih, List.append_assoc]
    rfl

end Place

/-- The text does not go on with a blank, nor with what may be a comment. -/
def OpensToken (cs : List Char) : Prop := ∀ c, cs.head? = some c → isSpace c = false ∧ c ≠ '/'

theorem opensToken_nil : OpensToken [] := fun _ h => by cases h

theorem opensToken_cons {c : Char} {cs : List Char} (hspace : isSpace c = false) (hslash : c ≠ '/') :
    OpensToken (c :: cs) := by
  intro d hd
  obtain rfl := Option.some.inj hd
  exact ⟨hspace, hslash⟩

theorem gapFrom_blank {gap rest : List Char} (hgap : ∀ c ∈ gap, isSpace c = true)
    (hrest : OpensToken rest) (pos : Nat) : gapFrom .blank pos pos (gap ++ rest) = pos + gap.length := by
  induction gap generalizing pos with
  | nil =>
    cases rest with
    | nil => rfl
    | cons c rest =>
      obtain ⟨hspace, hslash⟩ := hrest c rfl
      simp [gapFrom, hspace, hslash]
  | cons c gap ih =>
    have hc := hgap c List.mem_cons_self
    simp only [List.cons_append, gapFrom, hc, if_true]
    rw [ih (fun d hd => hgap d (List.mem_cons_of_mem c hd)), List.length_cons]
    omega

theorem Place.afterGap_after {before gap rest : List Char} (hgap : ∀ c ∈ gap, isSpace c = true)
    (hrest : OpensToken rest) :
    (Place.after before (gap ++ rest)).afterGap = Place.after (before ++ gap) rest := by
  have hlength : gapLength (gap ++ rest) = gap.length :=
    (gapFrom_blank hgap hrest 0).trans (Nat.zero_add _)
  rw [afterGap]
  change skip (gapLength (gap ++ rest)) _ = _
  rw [hlength, skip_after]

theorem Place.afterGap_of_opensToken {before rest : List Char} (hrest : OpensToken rest) :
    (Place.after before rest).afterGap = Place.after before rest := by
  have hgap := @afterGap_after before [] rest (fun _ h => absurd h List.not_mem_nil) hrest
  rwa [List.nil_append, List.append_nil] at hgap

namespace Grammar

variable {α β : Type} {p q : Place} {before word rest : List Char}

/-- A leaf of the tree for `word`, which stands behind `before`. -/
def leafAt (kind : String) (named : Bool) (before word : List Char) : Concrete :=
  .node { kind, named, extra := false, role := none, span := spanOf before word } []

theorem run_bind {x : Parser α} {a : α} (h : x p = .ok (a, q)) (f : α → Parser β) :
    (x >>= f) p = f a q := by
  change (x p >>= fun r => f r.1 r.2) = _
  rw [h]
  rfl

theorem run_get (f : Place → Parser α) : (get >>= f) p = f p p := rfl

theorem upcoming_run (h : p.afterGap = .after before rest) : upcoming p = .ok (rest, p) := by
  change Except.ok (p.afterGap.rest, p) = _
  rw [h]
  rfl

theorem nextIs_run (h : p.afterGap = .after before rest) (text : String) :
    nextIs text p = .ok (text.toList.isPrefixOf rest, p) := by
  rw [nextIs, run_bind (upcoming_run h)]
  rfl

theorem leafAhead_run (h : p.afterGap = .after before (word ++ rest)) (kind : String) (named : Bool) :
    leafAhead kind named word.length p =
      .ok (leafAt kind named before word, .after (before ++ word) rest) := by
  have hmodify : (modify Place.afterGap : Parser PUnit) p = .ok (⟨⟩, p.afterGap) := rfl
  rw [leafAhead, run_bind hmodify, leaf, h, Place.skip_after]
  rfl

theorem token_run {text : String} (h : p.afterGap = .after before (text.toList ++ rest)) :
    token text p =
      .ok (leafAt text false before text.toList, .after (before ++ text.toList) rest) := by
  have hnext : text.toList.isPrefixOf (text.toList ++ rest) = true := by simp
  rw [token, run_bind (nextIs_run h text), hnext, if_pos rfl, ← String.length_toList,
    leafAhead_run h]

theorem name_run (h : p.afterGap = .after before (word ++ rest)) (hne : word ≠ [])
    (hword : nameLength (word ++ rest) = word.length) (kind : String) :
    name kind p = .ok (leafAt kind true before word, .after (before ++ word) rest) := by
  have hlength : word.length ≠ 0 := fun h => hne (List.length_eq_zero_iff.mp h)
  rw [name, run_bind (upcoming_run h)]
  simp only [hword, hlength, if_false]
  exact leafAhead_run h kind true

end Grammar

end CallChain.JavaScript
