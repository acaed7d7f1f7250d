import CallChain.Proofs.Chain.Report
import CallChain.Proofs.Edit.LineFeeds
import CallChain.Proofs.Linter.Passes

/-!
# Mending as iteration

One round takes a text to the text with its mends put in. Rounds can be repeated for ever, also when there
is nothing more to mend; `roundsToStable` is the number of rounds after which that is so for the first time.
Mending a text stops there or at its bound, whichever comes first, unless a text on the way cannot be
checked. The two ends of the loop and its failure are one equation, `fixFrom_eq`.
-/
namespace CallChain

theorem EditSet.isEmpty_ofViolations_iff {vs : List Violation} :
    (EditSet.ofViolations vs).isEmpty = true ↔ ∀ v ∈ vs, v.replacement? = none := by
  rw [EditSet.ofViolations_eq, EditSet.isEmpty_ofList_iff, List.map_eq_nil_iff, mends_eq_nil_iff]

namespace Linter

variable {l : Linter} {path : Path} {content : String}

/-- One round: the text with the mends of its findings put in. -/
def round (l : Linter) (path : Path) (text : String) : Except Error String := do
  return (EditSet.ofViolations (← l.check path text)).apply text

/-- The text after `n` rounds, if those before it can be checked. -/
def textAfter (l : Linter) (path : Path) (content : String) : Nat → Except Error String
  | 0 => .ok content
  | n + 1 => do l.round path (← l.textAfter path content n)

/-- What is found in the text after `n` rounds. -/
def foundAfter (l : Linter) (path : Path) (content : String) (n : Nat) :
    Except Error (List Violation) := do
  l.check path (← l.textAfter path content n)

/-- The text after `n` rounds can be checked, and nothing that is found in it carries a mend. -/
def StableAt (l : Linter) (path : Path) (content : String) (n : Nat) : Prop :=
  ∃ vs, l.foundAfter path content n = .ok vs ∧ ∀ v ∈ vs, v.replacement? = none

/-- The least number of rounds after which the text is stable; infinite, if it never is. -/
noncomputable def roundsToStable (l : Linter) (path : Path) (content : String) : ℕ∞ :=
  ⨅ n ∈ {n : ℕ | l.StableAt path content n}, (n : ℕ∞)

/-- How many edits round `n` puts in, the first being round zero. -/
def editsIn (l : Linter) (path : Path) (content : String) (n : Nat) : Nat :=
  match l.foundAfter path content n with
  | .ok vs => (EditSet.ofViolations vs).size
  | .error _ => 0

/-- So many rounds as the bound allows and no more than it takes to become stable. -/
structure RoundsWithin (l : Linter) (path : Path) (content : String) (bound n : Nat) : Prop where
  le : n ≤ bound
  before : ∀ j < n, ¬ l.StableAt path content j
  stop : n = bound ∨ l.StableAt path content n

theorem exists_roundsWithin (l : Linter) (path : Path) (content : String) (bound : Nat) :
    ∃ n : ℕ, (n : ℕ∞) = min (l.roundsToStable path content) bound ∧
      l.RoundsWithin path content bound n := by
  classical
  by_cases hever : ∃ n, l.StableAt path content n
  · have hfirst : l.roundsToStable path content = (Nat.find hever : ℕ∞) := by
      refine le_antisymm (iInf₂_le _ (Nat.find_spec hever)) (le_iInf₂ fun n hn => ?_)
      exact_mod_cast Nat.find_min' hever hn
    refine ⟨min (Nat.find hever) bound, by rw [hfirst]; exact Nat.mono_cast.map_min, Nat.min_le_right _ _, ?_, ?_⟩
    · intro j hj
      exact Nat.find_min hever (Nat.lt_of_lt_of_le hj (Nat.min_le_left _ _))
    · rcases Nat.le_total (Nat.find hever) bound with hle | hle
      · rw [Nat.min_eq_left hle]
        exact Or.inr (Nat.find_spec hever)
      · exact Or.inl (Nat.min_eq_right hle)
  · have hnever : l.roundsToStable path content = ⊤ :=
      top_le_iff.mp (le_iInf₂ fun n hn => absurd ⟨n, hn⟩ hever)
    refine ⟨bound, by rw [hnever, min_top_left], le_rfl, ?_, Or.inl rfl⟩
    exact fun j _ hj => hever ⟨j, hj⟩

/-! ### From the first round on -/

section First

variable {vs : List Violation} {e : Error}

theorem foundAfter_zero (l : Linter) (path : Path) (content : String) :
    l.foundAfter path content 0 = l.check path content := rfl

theorem round_of_check (h : l.check path content = .ok vs) :
    l.round path content = .ok ((EditSet.ofViolations vs).apply content) := by
  rw [round, h]
  rfl

theorem textAfter_succ_of_check (h : l.check path content = .ok vs) (n : Nat) :
    l.textAfter path content (n + 1) =
      l.textAfter path ((EditSet.ofViolations vs).apply content) n := by
  induction n with
  | zero => exact round_of_check h
  | succ n ih => rw [textAfter, ih, textAfter]

theorem textAfter_succ_of_error (h : l.check path content = .error e) (n : Nat) :
    l.textAfter path content (n + 1) = .error e := by
  induction n with
  | zero =>
    change l.round path content = .error e
    rw [round, h]
    rfl
  | succ n ih =>
    rw [textAfter, ih]
    rfl

theorem foundAfter_succ_of_check (h : l.check path content = .ok vs) (n : Nat) :
    l.foundAfter path content (n + 1) =
      l.foundAfter path ((EditSet.ofViolations vs).apply content) n := by
  rw [foundAfter, foundAfter, textAfter_succ_of_check h]

theorem stableAt_succ_iff (h : l.check path content = .ok vs) (n : Nat) :
    l.StableAt path content (n + 1) ↔
      l.StableAt path ((EditSet.ofViolations vs).apply content) n := by
  rw [StableAt, StableAt, foundAfter_succ_of_check h]

theorem stableAt_zero_iff (h : l.check path content = .ok vs) :
    l.StableAt path content 0 ↔ (EditSet.ofViolations vs).isEmpty = true := by
  rw [StableAt, foundAfter_zero, h, EditSet.isEmpty_ofViolations_iff]
  constructor
  · rintro ⟨vs', hvs, hnone⟩
    obtain rfl := Except.ok.inj hvs
    exact hnone
  · exact fun hnone => ⟨vs, rfl, hnone⟩

/-- What the first round puts in, and what those after it do to its text. -/
theorem sum_editsIn_succ (h : l.check path content = .ok vs) (n : Nat) :
    ∑ j ∈ Finset.range (n + 1), l.editsIn path content j =
      (EditSet.ofViolations vs).size +
        ∑ j ∈ Finset.range n, l.editsIn path ((EditSet.ofViolations vs).apply content) j := by
  have hfirst : l.editsIn path content 0 = (EditSet.ofViolations vs).size := by
    rw [editsIn, foundAfter_zero, h]
  have hrest : ∀ j, l.editsIn path content (j + 1) =
      l.editsIn path ((EditSet.ofViolations vs).apply content) j := by
    intro j
    rw [editsIn, editsIn, foundAfter_succ_of_check h]
  rw [Finset.sum_range_succ', hfirst, Nat.add_comm]
  simp only [hrest]

theorem RoundsWithin.tail (h : l.check path content = .ok vs)
    (hset : (EditSet.ofViolations vs).isEmpty = false) {bound n : Nat}
    (hn : l.RoundsWithin path content (bound + 1) n) :
    ∃ m, n = m + 1 ∧ l.RoundsWithin path ((EditSet.ofViolations vs).apply content) bound m := by
  have hfirst : ¬ l.StableAt path content 0 := by
    rw [stableAt_zero_iff h, hset]
    exact Bool.false_ne_true
  obtain ⟨hle, hbefore, hstop⟩ := hn
  cases n with
  | zero => exact absurd (hstop.resolve_left (by omega)) hfirst
  | succ m =>
    refine ⟨m, rfl, Nat.le_of_succ_le_succ hle, fun j hj => ?_, ?_⟩
    · rw [← stableAt_succ_iff h]
      exact hbefore (j + 1) (Nat.succ_lt_succ hj)
    · rw [← stableAt_succ_iff h]
      exact hstop.imp_left Nat.succ.inj

end First

/-- Mending gives the text after the rounds that are due, with what is found in it, or the error of the
first text on the way that cannot be checked. -/
theorem fixFrom_eq {passes edits bound n : Nat} (hn : l.RoundsWithin path content bound n) :
    l.fixFrom path passes edits bound content = do
      let output ← l.textAfter path content n
      let remaining ← l.check path output
      return ⟨output, passes + n, edits + ∑ j ∈ Finset.range n, l.editsIn path content j, remaining⟩ := by
  induction bound generalizing content passes edits n with
  | zero =>
    obtain rfl := Nat.le_zero.mp hn.le
    rw [fixFrom_zero]
    change _ = (l.check path content).bind _
    cases l.check path content <;> rfl
  | succ bound ih =>
    cases hcheck : l.check path content with
    | error e =>
      rw [fixFrom_of_error hcheck]
      cases n with
      | zero =>
        change _ = (l.check path content).bind _
        rw [hcheck]
        rfl
      | succ n =>
        rw [textAfter_succ_of_error hcheck]
        rfl
    | ok vs =>
      cases hset : (EditSet.ofViolations vs).isEmpty with
      | true =>
        have hzero : n = 0 := by
          by_contra hne
          exact hn.before 0 (Nat.pos_of_ne_zero hne) ((stableAt_zero_iff hcheck).mpr hset)
        subst hzero
        rw [fixFrom_of_empty hcheck hset]
        change _ = (l.check path content).bind _
        rw [hcheck]
        rfl
      | false =>
        obtain ⟨m, rfl, hm⟩ := hn.tail hcheck hset
        rw [fixFrom_of_pass hcheck hset, ih hm, textAfter_succ_of_check hcheck, sum_editsIn_succ hcheck]
        simp only [Nat.add_assoc, Nat.add_comm 1]

theorem textAfter_of_foundAfter {n : Nat} {vs : List Violation}
    (h : l.foundAfter path content n = .ok vs) :
    ∃ text, l.textAfter path content n = .ok text ∧ l.check path text = .ok vs := by
  rw [foundAfter] at h
  cases htext : l.textAfter path content n with
  | error e => rw [htext] at h; cases h
  | ok text => rw [htext] at h; exact ⟨text, rfl, h⟩

/-- Where a text on the way cannot be checked there is a first such text. -/
theorem exists_first_error {n : Nat} (h : ¬ ∀ j ≤ n, ∃ vs, l.foundAfter path content j = .ok vs) :
    ∃ j ≤ n, (∀ i < j, ∃ vs, l.foundAfter path content i = .ok vs) ∧
      ∃ text e, l.textAfter path content j = .ok text ∧ l.check path text = .error e := by
  classical
  push Not at h
  let fails := fun j => j ≤ n ∧ ∀ vs, l.foundAfter path content j ≠ .ok vs
  have hfails : ∃ j, fails j := h
  obtain ⟨hle, herror⟩ := Nat.find_spec hfails
  have hbefore : ∀ i < Nat.find hfails, ∃ vs, l.foundAfter path content i = .ok vs := by
    intro i hi
    by_contra hnot
    exact Nat.find_min hfails hi ⟨by omega, fun vs hvs => hnot ⟨vs, hvs⟩⟩
  generalize Nat.find hfails = j at hle herror hbefore
  have htext : ∃ text, l.textAfter path content j = .ok text := by
    cases j with
    | zero => exact ⟨content, rfl⟩
    | succ i =>
      obtain ⟨vs, hvs⟩ := hbefore i (Nat.lt_succ_self i)
      obtain ⟨text, htext, hcheck⟩ := textAfter_of_foundAfter hvs
      refine ⟨(EditSet.ofViolations vs).apply text, ?_⟩
      rw [textAfter, htext]
      exact round_of_check hcheck
  obtain ⟨text, htext⟩ := htext
  refine ⟨j, hle, hbefore, text, ?_⟩
  cases hcheck : l.check path text with
  | error e => exact ⟨e, htext, rfl⟩
  | ok vs =>
    refine absurd ?_ (herror vs)
    rw [foundAfter, htext]
    exact hcheck

/-- Behind a text that cannot be checked there is only its error. -/
theorem textAfter_of_error {j : Nat} {text : String} {e : Error}
    (htext : l.textAfter path content j = .ok text) (hcheck : l.check path text = .error e) (k : Nat) :
    l.textAfter path content (j + k + 1) = .error e := by
  induction k with
  | zero =>
    rw [Nat.add_zero, textAfter, htext]
    change l.round path text = .error e
    rw [round, hcheck]
    rfl
  | succ k ih =>
    rw [← Nat.add_assoc, textAfter, ih]
    rfl

theorem fix_of_error {j p : Nat} {text : String} {e : Error}
    (hp : l.RoundsWithin path content maxPasses p) (hj : j ≤ p)
    (htext : l.textAfter path content j = .ok text) (hcheck : l.check path text = .error e) :
    l.fix path content = .error e := by
  rw [fix, fixFrom_eq hp]
  rcases Nat.lt_or_eq_of_le hj with hlt | rfl
  · obtain ⟨k, rfl⟩ := Nat.exists_eq_add_of_lt hlt
    rw [textAfter_of_error htext hcheck]
    rfl
  · rw [htext]
    change (l.check path text).bind _ = _
    rw [hcheck]
    rfl

theorem fix_of_textAfter {p : Nat} {output : String} {remaining : List Violation}
    (hp : l.RoundsWithin path content maxPasses p) (houtput : l.textAfter path content p = .ok output)
    (hcheck : l.check path output = .ok remaining) :
    l.fix path content =
      .ok ⟨output, p, ∑ j ∈ Finset.range p, l.editsIn path content j, remaining⟩ := by
  rw [fix, fixFrom_eq hp, houtput]
  change (l.check path output).bind _ = _
  rw [hcheck, Nat.zero_add, Nat.zero_add]
  rfl

/-- A text that is mended went through the rounds that are due, and all texts on the way were checked. -/
theorem rounds_of_fix {fixed : Fixed} (h : l.fix path content = .ok fixed) :
    l.RoundsWithin path content maxPasses fixed.passes ∧
      (∀ j ≤ fixed.passes, ∃ vs, l.foundAfter path content j = .ok vs) ∧
      l.textAfter path content fixed.passes = .ok fixed.output ∧
      l.check path fixed.output = .ok fixed.remaining ∧
      fixed.edits = ∑ j ∈ Finset.range fixed.passes, l.editsIn path content j := by
  obtain ⟨p, -, hp⟩ := l.exists_roundsWithin path content maxPasses
  have hchecked : ∀ j ≤ p, ∃ vs, l.foundAfter path content j = .ok vs := by
    by_contra hnot
    obtain ⟨j, hj, -, text, e, htext, hcheck⟩ := exists_first_error hnot
    rw [fix_of_error hp hj htext hcheck] at h
    cases h
  obtain ⟨vs, hvs⟩ := hchecked p le_rfl
  obtain ⟨output, houtput, hcheck⟩ := textAfter_of_foundAfter hvs
  rw [fix_of_textAfter hp houtput hcheck] at h
  obtain rfl := Except.ok.inj h
  exact ⟨hp, hchecked, houtput, hcheck, rfl⟩

/-- Below the bound, mending stops only where nothing more is to be mended. -/
theorem no_mends_of_fix {fixed : Fixed} (h : l.fix path content = .ok fixed)
    (hpasses : fixed.passes < maxPasses) : ∀ v ∈ fixed.remaining, v.replacement? = none := by
  obtain ⟨hp, -, houtput, hcheck, -⟩ := rounds_of_fix h
  obtain ⟨vs, hvs, hnone⟩ := hp.stop.resolve_left (Nat.ne_of_lt hpasses)
  obtain ⟨text, htext, hfound⟩ := textAfter_of_foundAfter hvs
  obtain rfl := Except.ok.inj (houtput.symm.trans htext)
  obtain rfl := Except.ok.inj (hcheck.symm.trans hfound)
  exact hnone

/-- Mending a text leads to its first stable iterate or to the one at the bound of ten rounds, whichever
comes first, and reports what is found there; a text on the way that cannot be checked ends it with its
error. What remains below the bound carries no mend, and mending what has none changes nothing. -/
theorem fix_first_stable_iterate (l : Linter) (path : Path) (content : String) :
    ∃ p : ℕ, (p : ℕ∞) = min (l.roundsToStable path content) 10 ∧
      ((∀ j ≤ p, ∃ vs, l.foundAfter path content j = .ok vs) →
        ∃ output remaining, l.textAfter path content p = .ok output ∧
          l.check path output = .ok remaining ∧
          l.fix path content =
            .ok ⟨output, p, ∑ j ∈ Finset.range p, l.editsIn path content j, remaining⟩) ∧
      ((¬ ∀ j ≤ p, ∃ vs, l.foundAfter path content j = .ok vs) →
        ∃ j ≤ p, (∀ i < j, ∃ vs, l.foundAfter path content i = .ok vs) ∧
          ∃ text e, l.textAfter path content j = .ok text ∧ l.check path text = .error e ∧
            l.fix path content = .error e) ∧
      ∀ fixed, l.fix path content = .ok fixed →
        (fixed.passes < 10 → ∀ v ∈ fixed.remaining, v.replacement? = none) ∧
        (fixed.changed = false → fixed.passes = 0 ∧ fixed.output = content) ∧
        ((∀ v ∈ fixed.remaining, v.replacement? = none) →
          l.fix path fixed.output = .ok ⟨fixed.output, 0, 0, fixed.remaining⟩) := by
  obtain ⟨p, hp, hrounds⟩ := l.exists_roundsWithin path content maxPasses
  refine ⟨p, hp, fun hall => ?_, fun hnot => ?_, fun fixed hfixed => ⟨?_, ?_, fun hnone => ?_⟩⟩
  · obtain ⟨vs, hvs⟩ := hall p le_rfl
    obtain ⟨output, houtput, hcheck⟩ := textAfter_of_foundAfter hvs
    exact ⟨output, vs, houtput, hcheck, fix_of_textAfter hrounds houtput hcheck⟩
  · obtain ⟨j, hj, hbefore, text, e, htext, hcheck⟩ := exists_first_error hnot
    exact ⟨j, hj, hbefore, text, e, htext, hcheck, fix_of_error hrounds hj htext hcheck⟩
  · exact no_mends_of_fix hfixed
  · exact of_not_changed hfixed
  · obtain ⟨-, -, -, -, hcheck⟩ := passes_of_fix hfixed
    exact fixFrom_of_empty hcheck (EditSet.isEmpty_ofViolations_iff.mpr hnone)

end Linter

end CallChain
