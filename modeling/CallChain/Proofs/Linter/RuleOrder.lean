import CallChain.Proofs.Chain.Report
import CallChain.Proofs.Edit.LineFeeds
import CallChain.Proofs.Linter.Alike
import CallChain.Proofs.Report.Order

/-!
# The order of the rules

A linter finds the same whatever the order of its rules, and only findings at one offset may change places.
It also mends a text to the same output, in the same rounds, as long as no round meets two edits of one
range: only of such two does their order decide which is put in first, or at all.
-/
namespace CallChain

/-- No two of the edits have the same range. -/
def Edit.Apart (edits : List Edit) : Prop :=
  edits.Pairwise fun a b => (a.start, a.stop) ≠ (b.start, b.stop)

theorem Edit.accept_of_perm {edits edits' : List Edit} (h : edits.Perm edits') (hapart : Apart edits) :
    accept edits = accept edits' := by
  have hties : edits.Pairwise fun a b => ¬(le a b = true ∧ le b a = true) := by
    refine hapart.imp fun {a b} hne => ?_
    simp only [ne_eq, Prod.mk.injEq] at hne
    simp only [le, Bool.or_eq_true, Bool.and_eq_true, decide_eq_true_eq, beq_iff_eq]
    omega
  rw [accept, accept, mergeSort_eq_of_perm le_trans le_total h hties]

theorem EditSet.ofViolations_of_perm {vs vs' : List Violation} (h : vs.Perm vs')
    (hapart : Edit.Apart ((mends vs).map Replacement.toEdit)) :
    EditSet.ofViolations vs = EditSet.ofViolations vs' := by
  rw [ofViolations_eq, ofViolations_eq, ofList, ofList,
    Edit.accept_of_perm ((mends_perm h).map _) hapart]

namespace Linter

variable {l : Linter} {rules : List Rule} {path : Path}

theorem findings_of_perm (h : l.rules.Perm rules) (ctx : FileContext) (tree : Syntax.Arena) :
    (l.findings ctx tree).Perm (Linter.findings { l with rules } ctx tree) :=
  (h.filter _).flatMap_right _

/-- The findings of two checks are the same, and in the same order if no two are at one offset. -/
def SameUpToTies (vs vs' : List Violation) : Prop :=
  vs.Perm vs' ∧ ((vs.map (·.location.offset)).Nodup → vs = vs')

theorem check_of_perm (h : l.rules.Perm rules) (path : Path) (content : String) :
    Alike SameUpToTies (l.check path content) (Linter.check { l with rules } path content) := by
  refine check_alike rfl fun tree => ?_
  have hfindings := findings_of_perm h (.make path content l.base) tree
  have hsorted := List.mergeSort_perm (l.findings (.make path content l.base) tree) Violation.inText
  constructor
  · exact hsorted.trans (hfindings.trans (List.mergeSort_perm _ _).symm)
  · intro hoffsets
    exact Violation.mergeSort_inText_of_perm hfindings ((hsorted.map _).nodup_iff.mp hoffsets)

/-- The order of the rules decides at most which of two findings at one offset comes first. It has no
influence on a mended text if no round of the first linter meets two edits of one range. -/
theorem check_and_fix_of_reordered_rules (l : Linter) (rules : List Rule) (h : l.rules.Perm rules)
    (path : Path) (content : String) :
    Alike SameUpToTies (l.check path content) (Linter.check { l with rules } path content) ∧
      ((∀ k < maxPasses, ∀ s vs, Passes l path k content s → l.check path s = .ok vs →
          Edit.Apart ((mends vs).map Replacement.toEdit)) →
        Alike (Fixed.Alike List.Perm) (l.fix path content) (Linter.fix { l with rules } path content)) := by
  refine ⟨check_of_perm h path content, fun hapart => fix_alike (fun s => ?_) ?_⟩
  · rcases (check_of_perm h path s).cases with ⟨e, hvs, hvs'⟩ | ⟨vs, vs', hvs, hvs', hsame⟩
    · rw [hvs, hvs']
      exact .failed e
    · rw [hvs, hvs']
      exact .done hsame.1
  · intro k hk s vs vs' hrun hcheck hperm
    exact EditSet.ofViolations_of_perm hperm (hapart k hk s vs hrun hcheck)

/-- A linter that takes out semicolons and exclamation marks. -/
def twoMarks : Linter where
  root := ⟨"."⟩
  base := ⟨"."⟩
  rules := [erasing "no-semicolon" ';', erasing "no-exclamation" '!']
  frontEnds := [plainText]
  exclude := []
  config := {}
  failOnParseError := false

/-- What the linter finds in `a;b!`, in the order of its rules and of the text. -/
def twoMarksFound : List Violation :=
  twoMarks.rules.flatMap fun rule => rule.check (.make ⟨"a.txt"⟩ "a;b!" ⟨"."⟩) ⟨#[], #[], 0⟩

theorem check_twoMarks : twoMarks.check ⟨"a.txt"⟩ "a;b!" = .ok twoMarksFound := by
  rw [check_eq]
  exact congrArg Except.ok (List.mergeSort_of_pairwise (by decide +kernel))

theorem ofViolations_twoMarksFound :
    EditSet.ofViolations twoMarksFound = ⟨[⟨1, 2, ""⟩, ⟨3, 4, ""⟩]⟩ := by
  rw [EditSet.ofViolations, EditSet.ofList, Edit.accept, List.mergeSort_of_pairwise (by decide +kernel)]
  decide +kernel

theorem apply_twoMarksFound : (EditSet.ofViolations twoMarksFound).apply "a;b!" = "ab" := by
  rw [ofViolations_twoMarksFound]
  decide

theorem check_unmarked : twoMarks.check ⟨"a.txt"⟩ "ab" = .ok [] := by
  rw [check_eq]
  exact congrArg Except.ok List.mergeSort_nil

theorem isEmpty_ofViolations_nil : (EditSet.ofViolations []).isEmpty = true :=
  EditSet.isEmpty_ofList_iff.mpr rfl

theorem fix_twoMarks : twoMarks.fix ⟨"a.txt"⟩ "a;b!" = .ok ⟨"ab", 1, 2, []⟩ := by
  have hset : (EditSet.ofViolations twoMarksFound).isEmpty = false := by
    rw [ofViolations_twoMarksFound]
    rfl
  rw [fix, maxPasses, fixFrom_of_pass check_twoMarks hset, apply_twoMarksFound,
    fixFrom_of_empty check_unmarked isEmpty_ofViolations_nil, ofViolations_twoMarksFound]
  rfl

/-- The rounds on `a;b!` come to that text and, after one round, to a text without marks. -/
theorem check_of_passes_twoMarks {k : Nat} {s : String} {vs : List Violation}
    (h : Passes twoMarks ⟨"a.txt"⟩ k "a;b!" s) (hvs : twoMarks.check ⟨"a.txt"⟩ s = .ok vs) :
    vs = twoMarksFound ∨ vs = [] := by
  cases h with
  | done => exact Or.inl (Except.ok.inj (hvs.symm.trans check_twoMarks))
  | pass hcheck hset hrest =>
    obtain rfl := Except.ok.inj (check_twoMarks.symm.trans hcheck)
    rw [apply_twoMarksFound] at hrest
    cases hrest with
    | done => exact Or.inr (Except.ok.inj (hvs.symm.trans check_unmarked))
    | pass hcheck hset _ =>
      obtain rfl := Except.ok.inj (check_unmarked.symm.trans hcheck)
      rw [isEmpty_ofViolations_nil] at hset
      cases hset

/-- With the rules in the other order, the text is mended to the same output in the same single round. -/
theorem check_and_fix_of_twoMarks_swapped :
    let rules : List Rule := [erasing "no-exclamation" '!', erasing "no-semicolon" ';']
    let swapped : Linter := { twoMarks with rules }
    twoMarks.rules.Perm rules ∧ (twoMarksFound.map (·.location.offset)).Nodup ∧
      swapped.check ⟨"a.txt"⟩ "a;b!" = .ok twoMarksFound ∧
      (∀ k < maxPasses, ∀ s vs, Passes twoMarks ⟨"a.txt"⟩ k "a;b!" s →
        twoMarks.check ⟨"a.txt"⟩ s = .ok vs → Edit.Apart ((mends vs).map Replacement.toEdit)) ∧
      swapped.fix ⟨"a.txt"⟩ "a;b!" = .ok ⟨"ab", 1, 2, []⟩ := by
  intro rules swapped
  have hperm : twoMarks.rules.Perm rules := List.Perm.swap _ _ _
  have hoffsets : (twoMarksFound.map (·.location.offset)).Nodup := by decide +kernel
  have hapart : ∀ k < maxPasses, ∀ s vs, Passes twoMarks ⟨"a.txt"⟩ k "a;b!" s →
      twoMarks.check ⟨"a.txt"⟩ s = .ok vs → Edit.Apart ((mends vs).map Replacement.toEdit) := by
    intro k _ s vs hrun hvs
    rcases check_of_passes_twoMarks hrun hvs with rfl | rfl
    · rw [Edit.Apart]
      decide +kernel
    · exact .nil
  obtain ⟨hcheck, hfix⟩ := check_and_fix_of_reordered_rules twoMarks rules hperm ⟨"a.txt"⟩ "a;b!"
  refine ⟨hperm, hoffsets, ?_, hapart, ?_⟩
  · rcases hcheck.cases with ⟨e, hvs, -⟩ | ⟨vs, vs', hvs, hvs', hsame⟩
    · rw [check_twoMarks] at hvs
      cases hvs
    · obtain rfl := Except.ok.inj (check_twoMarks.symm.trans hvs)
      exact hvs'.trans (congrArg Except.ok (hsame.2 hoffsets).symm)
  · rcases (hfix hapart).cases with ⟨e, hfixed, -⟩ | ⟨fixed, fixed', hfixed, hfixed', hsame⟩
    · rw [fix_twoMarks] at hfixed
      cases hfixed
    · obtain rfl := Except.ok.inj (fix_twoMarks.symm.trans hfixed)
      obtain ⟨houtput, hpasses, hedits, hremaining⟩ := hsame
      cases fixed' with
      | mk output passes edits remaining =>
        obtain rfl := hremaining.nil_eq
        subst houtput hpasses hedits
        exact hfixed'

end Linter

end CallChain
