import CallChain.Proofs.Directive
import CallChain.Proofs.Text.Trim

/-!
# Allow comments are read as they are written

`Writing` is an allow comment up to its closing parenthesis, with the text before it on its line and the
blanks in its gaps. Each step of the reader trims what is left and takes a phrase from its front. None of
the phrases has a blank at its ends, so that no step takes away what a later one needs.
-/
namespace CallChain.Directive

open CallChain.Text

/-- A rule name with the blanks around it. -/
structure Slot where
  before : List Char
  name : List Char
  after : List Char
  beforeBlank : Blank before
  afterBlank : Blank after
  solid : Solid name
  noComma : ',' ∉ name
  noParenthesis : ')' ∉ name

/-- An allow comment up to its closing parenthesis. The text before it has no slashes that could be taken
for those of the comment. -/
structure Writing where
  front : List Char
  afterSlashes : List Char
  afterMark : List Char
  afterOpening : List Char
  slots : List Slot
  noSlashes : ¬ "//".toList <:+: front
  noLastSlash : '/' ∉ front.getLast?
  slashesBlank : Blank afterSlashes
  markBlank : Blank afterMark
  openingBlank : Blank afterOpening
  slotsNonempty : slots ≠ []

namespace Slot

def text (s : Slot) : List Char := s.before ++ (s.name ++ s.after)

theorem not_mem_text (s : Slot) {c : Char} (hc : isBlank c = false) (h : c ∉ s.name) :
    c ∉ s.text := by
  rw [text, List.mem_append, List.mem_append]
  rintro (hmem | hmem | hmem)
  · exact not_mem_of_blank s.beforeBlank hc hmem
  · exact h hmem
  · exact not_mem_of_blank s.afterBlank hc hmem

theorem trim_text (s : Slot) : trim s.text = s.name :=
  trim_between s.solid s.beforeBlank s.afterBlank

end Slot

namespace Writing

/-- What stands between the parentheses. -/
def inside (w : Writing) : List Char := w.afterOpening ++ join [','] (w.slots.map Slot.text)

def text (w : Writing) : List Char :=
  w.front ++ ("//".toList ++ (w.afterSlashes ++ ("chain-lint:".toList ++ (w.afterMark ++
    ("allow(".toList ++ (w.inside ++ [')']))))))

def names (w : Writing) : List String := w.slots.map fun s => String.ofList s.name

end Writing

/-- A reason in quotes, with the gaps before and behind `reason=` and with what follows it. -/
def reasonText (afterClosing afterEquals reason rest : List Char) : List Char :=
  afterClosing ++ ("reason=".toList ++ (afterEquals ++ (['"'] ++ (reason ++ '"' :: rest))))

/-! ### The names -/

theorem readNames_cons_blank {c : Char} (hc : isBlank c = true) (cs : List Char) :
    readNames (c :: cs) = readNames cs := by
  have hne : c ≠ ',' := by
    rintro rfl
    cases hc
  have hblank : Blank [c] := fun d hd => List.mem_singleton.mp hd ▸ hc
  unfold readNames
  rw [splitAt, if_neg hne]
  cases splitAt ',' cs with
  | nil => rw [List.map_singleton, show trim [c] = [] from trim_blank_append hblank []]; rfl
  | cons piece pieces =>
    have htrim : trim (c :: piece) = trim piece := trim_blank_append hblank piece
    rw [List.map_cons, List.map_cons, htrim]

/-- Blanks before the names make no difference. -/
theorem readNames_blank_append {gap : List Char} (h : Blank gap) (cs : List Char) :
    readNames (gap ++ cs) = readNames cs := by
  induction gap with
  | nil => rfl
  | cons c gap ih =>
    rw [Blank, List.forall_mem_cons] at h
    rw [List.cons_append, readNames_cons_blank h.1, ih h.2]

theorem readNames_trimStart (cs : List Char) : readNames (trimStart cs) = readNames cs := by
  obtain ⟨gap, hgap, hcs⟩ := exists_blank_append_trimStart cs
  rw [← readNames_blank_append hgap, ← hcs]

theorem Writing.readNames_inside (w : Writing) : readNames w.inside = w.names := by
  have hcommas : ∀ piece ∈ w.slots.map Slot.text, ',' ∉ piece := by
    intro piece hpiece
    obtain ⟨s, -, rfl⟩ := List.mem_map.mp hpiece
    exact s.not_mem_text (by decide) s.noComma
  have hpieces : w.slots.map Slot.text ≠ [] := mt List.map_eq_nil_iff.mp w.slotsNonempty
  rw [inside, readNames_blank_append w.openingBlank, readNames, splitAt_join hpieces hcommas,
    List.map_map, names]
  have hnames : (fun name => String.ofList (trim name)) ∘ Slot.text =
      fun s : Slot => String.ofList s.name := funext fun s => congrArg String.ofList s.trim_text
  rw [hnames, List.filter_eq_self]
  intro name hname
  obtain ⟨s, -, rfl⟩ := List.mem_map.mp hname
  refine decide_eq_true fun hempty => s.solid.nonempty ?_
  exact String.ofList_inj.mp hempty

/-! ### The reason -/

theorem readReason_trimEnd (tail : List Char) : readReason (trimEnd tail) = readReason tail := by
  rw [readReason, trim_trimEnd, readReason]

theorem readReason_reasonText {afterClosing afterEquals reason : List Char}
    (hclosing : Blank afterClosing) (hequals : Blank afterEquals) (hreason : '"' ∉ reason)
    (rest : List Char) :
    readReason (reasonText afterClosing afterEquals reason rest) =
      some (String.ofList reason) := by
  have hmark : Solid "reason=".toList := by decide
  have hquote : Solid ['"'] := by decide
  have hcut : splitFirst? ['"'] (reason ++ '"' :: trimEnd rest) = some (reason, trimEnd rest) := by
    refine (splitFirst?_eq_some_iff (by decide)).mpr ⟨rfl, ?_⟩
    rw [List.dropLast_singleton, List.append_nil, List.singleton_infix_iff]
    exact hreason
  unfold readReason reasonText
  rw [isPrefixOf?_trim hmark hclosing, Option.bind_eq_bind, Option.bind_some, trim_trimEnd,
    isPrefixOf?_trim hquote hequals, Option.bind_eq_bind, Option.bind_some,
    trimEnd_append_cons (by decide), hcut]
  rfl

theorem readReason_eq_none {tail : List Char} (h : ¬ "reason=".toList <+: trim tail) :
    readReason tail = none := by
  have hnone : "reason=".toList.isPrefixOf? (trim tail) = none := by
    by_contra hsome
    obtain ⟨rest, hrest⟩ := Option.ne_none_iff_exists'.mp hsome
    exact h ⟨rest, List.isPrefixOf?_eq_some_iff_append_eq.mp hrest⟩
  rw [readReason, hnone]
  rfl

/-! ### The comment -/

/-- The slashes of the comment are the first of its line. -/
theorem Writing.firstCut (w : Writing) (rest : List Char) :
    FirstCut "//".toList (w.front ++ ("//".toList ++ rest)) w.front rest := by
  refine ⟨rfl, fun hinfix => ?_⟩
  change ['/', '/'] <:+: w.front ++ ['/'] at hinfix
  -- Slashes that are not in the text before the comment would begin with its last character.
  rcases List.infix_concat_iff.mp hinfix with hsuffix | hfront
  · exact w.noLastSlash (pair_suffix_concat hsuffix).1
  · exact w.noSlashes hfront

/-- The names are those between the parentheses, and the reason is looked for behind them. -/
theorem Writing.ofLine?_text (w : Writing) (tail : List Char) :
    ofLine? (w.text ++ tail) = some ⟨w.names, readReason tail⟩ := by
  have hmark : Solid "chain-lint:".toList := by decide
  have hallow : Solid "allow(".toList := by decide
  have hslashes := splitFirst?_of_firstCut (by decide) (w.firstCut (w.afterSlashes ++
    ("chain-lint:".toList ++ (w.afterMark ++ ("allow(".toList ++ (w.inside ++ ')' :: tail))))))
  have hinside : ')' ∉ trimStart w.inside := by
    have hslots : ')' ∉ join [','] (w.slots.map Slot.text) := by
      refine not_mem_join (by decide) fun piece hpiece => ?_
      obtain ⟨s, -, rfl⟩ := List.mem_map.mp hpiece
      exact s.not_mem_text (by decide) s.noParenthesis
    refine mt (List.dropWhile_sublist _).mem ?_
    rw [inside, List.mem_append, not_or]
    exact ⟨not_mem_of_blank w.openingBlank (by decide), hslots⟩
  have hcut : splitFirst? [')'] (trim (w.inside ++ ')' :: tail)) =
      some (trimStart w.inside, trimEnd tail) := by
    rw [trim, trimStart_append_cons (by decide), trimEnd_append_cons (by decide)]
    refine (splitFirst?_eq_some_iff (by decide)).mpr ⟨rfl, ?_⟩
    rw [List.dropLast_singleton, List.append_nil, List.singleton_infix_iff]
    exact hinside
  have hnames : w.names ≠ [] := mt List.map_eq_nil_iff.mp w.slotsNonempty
  have htext : w.text ++ tail = w.front ++ ("//".toList ++ (w.afterSlashes ++
      ("chain-lint:".toList ++ (w.afterMark ++ ("allow(".toList ++ (w.inside ++ ')' :: tail)))))) := by
    simp [text]
  rw [htext, ofLine?, show ['/', '/'] = "//".toList from rfl, hslashes, Option.bind_eq_bind,
    Option.bind_some]
  dsimp only
  rw [isPrefixOf?_trim hmark w.slashesBlank, Option.bind_eq_bind, Option.bind_some, trim_trimEnd,
    isPrefixOf?_trim hallow w.markBlank, Option.bind_some, trim_trimEnd, hcut, Option.bind_some]
  dsimp only
  rw [readNames_trimStart, w.readNames_inside, readReason_trimEnd]
  split
  · next hnil => exact absurd hnil hnames
  · rfl

/-- An allow comment is read as it is written: with its names, and with its reason word for word if it
has one. -/
theorem read_of_writing (w : Writing) :
    (∀ afterClosing afterEquals reason rest, Blank afterClosing → Blank afterEquals →
      '"' ∉ reason →
      ofLine? (w.text ++ reasonText afterClosing afterEquals reason rest) =
        some ⟨w.names, some (String.ofList reason)⟩) ∧
    ∀ tail, ¬ "reason=".toList <+: trim tail →
      ofLine? (w.text ++ tail) = some ⟨w.names, none⟩ := by
  refine ⟨fun afterClosing afterEquals reason rest hclosing hequals hreason => ?_, fun tail htail => ?_⟩
  · rw [w.ofLine?_text, readReason_reasonText hclosing hequals hreason]
  · rw [w.ofLine?_text, readReason_eq_none htail]

/-- A comment behind a division, with wide blanks and a name that holds a parenthesis. -/
def spacedWriting : Writing where
  front := "x = a / b; ".toList
  afterSlashes := "\u3000".toList
  afterMark := "\t ".toList
  afterOpening := " ".toList
  slots := [⟨[], "method-chaining".toList, "\u00a0".toList, by decide, by decide, by decide, by decide,
    by decide⟩, ⟨"\u2003".toList, "a (b".toList, [], by decide, by decide, by decide, by decide, by decide⟩]
  noSlashes := by decide
  noLastSlash := by decide
  slashesBlank := by decide
  markBlank := by decide
  openingBlank := by decide
  slotsNonempty := by decide

/-- Its reason keeps the blanks at its ends. -/
theorem read_of_spacedWriting :
    spacedWriting.text =
      "x = a / b; //\u3000chain-lint:\t allow( method-chaining\u00a0,\u2003a (b)".toList ∧
    ofLine? (spacedWriting.text ++
        reasonText "\u2003".toList " ".toList " two  words ".toList "; \"x\" ".toList) =
      some ⟨["method-chaining", "a (b"], some " two  words "⟩ ∧
    ofLine? (spacedWriting.text ++ " for a reason= ".toList) =
      some ⟨["method-chaining", "a (b"], none⟩ := by
  obtain ⟨hreason, hbare⟩ := read_of_writing spacedWriting
  exact ⟨by decide, hreason _ _ _ _ (by decide) (by decide) (by decide), hbare _ (by decide)⟩

end CallChain.Directive
