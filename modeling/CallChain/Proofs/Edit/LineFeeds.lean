import CallChain.Proofs.Edit.Selection
import CallChain.Proofs.Text.Breaks

/-!
# Edits that insert line feeds

Whatever the offsets of such edits are, applying them only adds line feeds between the characters of the
text: edits that do not fit the text are skipped. Where all of them fit and no two of them meet, each one
takes effect, and the text is the one broken before their places.
-/
namespace CallChain

/-- `new` is `old` with some line feeds added between its characters. -/
inductive Widens : List Char → List Char → Prop
  | nil : Widens [] []
  | keep (c : Char) {old new : List Char} : Widens old new → Widens (c :: old) (c :: new)
  | feed {old new : List Char} : Widens old new → Widens old ('\n' :: new)

namespace Widens

theorem refl (cs : List Char) : Widens cs cs := by
  induction cs with
  | nil => exact nil
  | cons c cs ih => exact keep c ih

theorem append_left (before : List Char) {old new : List Char} (h : Widens old new) :
    Widens (before ++ old) (before ++ new) := by
  induction before with
  | nil => exact h
  | cons c before ih => exact keep c ih

theorem trans {a b c : List Char} (hab : Widens a b) (hbc : Widens b c) : Widens a c := by
  induction hbc generalizing a with
  | nil => exact hab
  | keep x _ ih =>
    cases hab with
    | keep _ h => exact keep x (ih h)
    | feed h => exact feed (ih h)
  | feed _ ih => exact feed (ih hab)

/-- The added line feeds can be marked, and what is not marked is the old text. -/
theorem exists_marks {old new : List Char} (h : Widens old new) :
    ∃ marked : List (Char × Bool), new = marked.map (·.1) ∧
      old = (marked.filter (!·.2)).map (·.1) ∧ ∀ e ∈ marked, e.2 = true → e.1 = '\n' := by
  induction h with
  | nil => exact ⟨[], rfl, rfl, by simp⟩
  | keep c _ ih =>
    obtain ⟨marked, rfl, rfl, hm⟩ := ih
    exact ⟨(c, false) :: marked, by simp, by simp, by simpa using hm⟩
  | feed _ ih =>
    obtain ⟨marked, rfl, rfl, hm⟩ := ih
    exact ⟨('\n', true) :: marked, by simp, by simp, by simpa using hm⟩

end Widens

namespace Edit

/-- The edit replaces nothing and writes a line feed, if it does anything at all. -/
structure IsLineFeed (e : Edit) : Prop where
  text : e.text = "\n"
  empty : e.start ≤ e.stop → e.stop = e.start

/-- From a boundary on, line feeds are all that is added. -/
theorem spliceFrom_widens {source rest : List Char} {cursor : Nat} {edits : List Edit}
    (h : ∀ e ∈ edits, e.IsLineFeed) (hc : Text.dropBytes? cursor source = some rest) :
    Widens rest (spliceFrom source cursor edits) := by
  induction edits generalizing cursor rest with
  | nil =>
    rw [spliceFrom, hc]
    exact .refl rest
  | cons e es ih =>
    have hes : ∀ e ∈ es, e.IsLineFeed := fun e he => h e (List.mem_cons_of_mem _ he)
    have he := h e List.mem_cons_self
    rw [spliceFrom]
    split
    · next hfit =>
      rw [Bool.and_eq_true, decide_eq_true_eq] at hfit
      split
      · next before hslice =>
        obtain ⟨pre, tail, rfl, rfl, hstart⟩ := Text.slice?_eq_some_iff.mp hslice
        have hrest : rest = before ++ tail := by
          rw [Text.dropBytes?_append] at hc
          exact (Option.some.inj hc).symm
        have hstop : Text.dropBytes? e.stop (pre ++ (before ++ tail)) = some tail := by
          rw [he.empty hfit.1, ← hstart, ← Text.byteLength_append, ← List.append_assoc]
          exact Text.dropBytes?_append _ _
        rw [hrest, he.text, List.append_assoc]
        exact .append_left before (.feed (ih hes hstop))
      · exact ih hes hc
    · exact ih hes hc

/-- The edit that inserts a line feed before a byte. -/
def feedAt (place : Nat) : Edit := ⟨place, place, "\n"⟩

@[simp] theorem feedAt_start (place : Nat) : (feedAt place).start = place := rfl
@[simp] theorem feedAt_stop (place : Nat) : (feedAt place).stop = place := rfl
@[simp] theorem feedAt_text (place : Nat) : (feedAt place).text = "\n" := rfl

/-- Insertions at ascending places are all accepted. -/
theorem acceptFrom_feedAt {limit : Nat} {places : List Nat} (hs : places.Pairwise (· < ·))
    (hl : ∀ q ∈ places, limit ≤ q) :
    acceptFrom limit (places.map feedAt) = places.map feedAt := by
  induction places generalizing limit with
  | nil => rfl
  | cons q places ih =>
    obtain ⟨hq, hrest⟩ := List.pairwise_cons.mp hs
    have hlq := hl q List.mem_cons_self
    rw [List.map_cons, acceptFrom, feedAt_start, feedAt_stop, if_neg (Nat.not_lt.mpr hlq)]
    rw [ih hrest fun p hp => (hq p hp).le]

end Edit

namespace Text

theorem leadFrom_cons_of_lt {q offset : Nat} (places : List Nat) (h : q < offset) (cs : List Char) :
    leadFrom (q :: places) offset cs = leadFrom places offset cs := by
  induction cs generalizing offset with
  | nil => rfl
  | cons c cs ih =>
    have hne : offset ≠ q := by omega
    rw [leadFrom, leadFrom, ih (by omega)]
    simp only [List.mem_cons, hne, false_or]

/-- The first place is where the text to write starts. -/
theorem breakFrom_cons_self {q : Nat} {places : List Nat} (h : ∀ p ∈ places, q < p)
    (cs : List Char) : breakFrom (q :: places) q cs = '\n' :: breakFrom places q cs := by
  have hq : q ∉ places := fun hm => Nat.lt_irrefl q (h q hm)
  cases cs with
  | nil => simp [breakFrom, leadFrom, hq]
  | cons c cs =>
    have hc := c.utf8Size_pos
    have hne : q + byteLength (c :: cs) ≠ q := by
      rw [byteLength_cons]
      omega
    rw [breakFrom, breakFrom, leadFrom, leadFrom, leadFrom_cons_of_lt places (by omega)]
    simp only [List.mem_cons, hne, hq, true_or, false_or, if_true, if_false]
    rfl

end Text

namespace Edit

theorem spliceFrom_feedAt {source before rest : List Char} {places : List Nat}
    (hsource : source = before ++ rest) (hs : places.Pairwise (· < ·))
    (hp : ∀ q ∈ places, Text.byteLength before ≤ q ∧ Text.isBoundary q source = true) :
    spliceFrom source (Text.byteLength before) (places.map feedAt) =
      Text.breakFrom places (Text.byteLength before) rest := by
  induction places generalizing before rest with
  | nil =>
    rw [List.map_nil, spliceFrom, hsource, Text.dropBytes?_append, Option.getD_some]
    simp [Text.breakFrom, Text.leadFrom_eq_self]
  | cons q places ih =>
    obtain ⟨hq, hrest⟩ := List.pairwise_cons.mp hs
    obtain ⟨hle, hb⟩ := hp q List.mem_cons_self
    obtain ⟨longer, tail, htext, rfl⟩ := Text.isBoundary_iff.mp hb
    obtain ⟨mid, rfl, rfl⟩ := Text.leading_of_byteLength_le (hsource.symm.trans htext) hle
    have hslice : Text.slice? (Text.byteLength before) (Text.byteLength (before ++ mid)) source =
        some mid :=
      Text.slice?_eq_some_iff.mpr ⟨before, tail, hsource, rfl, (Text.byteLength_append ..).symm⟩
    have hnext := ih htext hrest fun p hpm =>
      ⟨(hq p hpm).le, (hp p (List.mem_cons_of_mem _ hpm)).2⟩
    have hmid : Text.leadFrom (Text.byteLength (before ++ mid) :: places) (Text.byteLength before)
        mid = mid := by
      apply Text.leadFrom_eq_self
      rw [← Text.byteLength_append]
      intro p hpm
      rcases List.mem_cons.mp hpm with rfl | hpm
      · exact Or.inr le_rfl
      · exact Or.inr (hq p hpm).le
    rw [List.map_cons, spliceFrom]
    simp only [feedAt_start, feedAt_stop, feedAt_text, le_refl, decide_true, hb, Bool.and_self,
      if_true, hslice]
    rw [hnext, Text.breakFrom_append, hmid, ← Text.byteLength_append, Text.breakFrom_cons_self hq]
    simp

end Edit

namespace EditSet

/-- A text after edits that write line feeds is a wider one, wherever the edits lie. -/
theorem apply_widens {edits : List Edit} (h : ∀ e ∈ edits, e.IsLineFeed) (source : String) :
    Widens source.toList ((EditSet.ofList edits).apply source).toList := by
  rw [apply, String.toList_ofList]
  exact Edit.spliceFrom_widens (fun e he => h e (Edit.mem_of_mem_accept he))
    (Text.dropBytes?_append [] source.toList)

/-- Insertions before different bytes of a text all take effect, in whatever order they are given. -/
theorem ofList_feedAt {places : List Nat} {source : String} (h : Text.Places places source.toList) :
    (EditSet.ofList (places.map Edit.feedAt)).size = places.length ∧
      (EditSet.ofList (places.map Edit.feedAt)).apply source =
        String.ofList (Text.breakBefore places source.toList) := by
  let sorted := (places.map Edit.feedAt).mergeSort Edit.le
  let starts := sorted.map (·.start)
  have hperm : sorted.Perm (places.map Edit.feedAt) := List.mergeSort_perm _ _
  have hfeed : sorted = starts.map Edit.feedAt := by
    rw [List.map_map]
    refine (List.map_congr_left fun e he => ?_).trans (List.map_id sorted) |>.symm
    obtain ⟨q, -, rfl⟩ := List.mem_map.mp (hperm.mem_iff.mp he)
    rfl
  have hstarts : starts.Perm places := by
    have hmap := hperm.map (·.start)
    rw [List.map_map] at hmap
    exact hmap.trans (List.Perm.of_eq (List.map_id places))
  have hle : starts.Pairwise (· ≤ ·) := by
    apply List.pairwise_map.mpr
    refine (List.pairwise_mergeSort Edit.le_trans Edit.le_total _).imp fun {a b} hab => ?_
    simp only [Edit.le, Bool.or_eq_true, Bool.and_eq_true, decide_eq_true_eq, beq_iff_eq] at hab
    omega
  -- Different places ascend strictly, so that no insertion is dropped for another.
  have hlt : starts.Pairwise (· < ·) :=
    (hle.and (hstarts.nodup_iff.mpr h.nodup)).imp fun hab => Nat.lt_of_le_of_ne hab.1 hab.2
  have haccept : Edit.accept (places.map Edit.feedAt) = starts.map Edit.feedAt := by
    change Edit.acceptFrom 0 sorted = _
    rw [hfeed, Edit.acceptFrom_feedAt hlt fun q _ => Nat.zero_le q]
  constructor
  · rw [size, ofList, haccept, List.length_map, hstarts.length_eq]
  · rw [apply, ofList, haccept]
    have hsplice : Edit.spliceFrom source.toList (Text.byteLength []) (starts.map Edit.feedAt) =
        Text.breakFrom starts (Text.byteLength []) source.toList :=
      Edit.spliceFrom_feedAt rfl hlt fun q hq =>
        ⟨Nat.zero_le q, h.boundary q (hstarts.mem_iff.mp hq)⟩
    rw [Text.byteLength_nil] at hsplice
    rw [hsplice]
    exact congrArg String.ofList (Text.breakBefore_congr (fun q => hstarts.mem_iff) _)

end EditSet

end CallChain
