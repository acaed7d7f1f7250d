import Mathlib
import CallChain.Linter

/-!
# The rounds of mending a text

`Passes` is one round after the other, without the bound on their number. A text that is mended was led
to its output by so many rounds, and the output passes the check; a text that some round makes
unparsable, within the bound, is not mended at all.
-/
namespace CallChain.Linter

variable {l : Linter} {path : Path}

/-- So many rounds, each with something to mend, lead from one text to another. -/
inductive Passes (l : Linter) (path : Path) : Nat → String → String → Prop
  | done (s : String) : Passes l path 0 s s
  | pass {n : Nat} {s s' : String} {vs : List Violation} (hcheck : l.check path s = .ok vs)
      (hset : (EditSet.ofViolations vs).isEmpty = false)
      (hrest : Passes l path n ((EditSet.ofViolations vs).apply s) s') : Passes l path (n + 1) s s'

theorem fixFrom_zero (passes edits : Nat) (s : String) :
    l.fixFrom path passes edits 0 s =
      (l.check path s).map fun vs => ⟨s, passes, edits, vs⟩ := by
  rw [fixFrom]
  cases l.check path s <;> rfl

theorem fixFrom_of_error {passes edits rounds : Nat} {s : String} {e : Error}
    (h : l.check path s = .error e) : l.fixFrom path passes edits rounds s = .error e := by
  cases rounds with
  | zero => rw [fixFrom_zero, h]; rfl
  | succ rounds => rw [fixFrom, h]; rfl

theorem fixFrom_of_empty {passes edits rounds : Nat} {s : String} {vs : List Violation}
    (h : l.check path s = .ok vs) (hset : (EditSet.ofViolations vs).isEmpty = true) :
    l.fixFrom path passes edits rounds s = .ok ⟨s, passes, edits, vs⟩ := by
  cases rounds with
  | zero => rw [fixFrom_zero, h]; rfl
  | succ rounds =>
    rw [fixFrom, h]
    change (if (EditSet.ofViolations vs).isEmpty = true then _ else _) = _
    rw [if_pos hset]
    rfl

theorem fixFrom_of_pass {passes edits rounds : Nat} {s : String} {vs : List Violation}
    (h : l.check path s = .ok vs) (hset : (EditSet.ofViolations vs).isEmpty = false) :
    l.fixFrom path passes edits (rounds + 1) s =
      l.fixFrom path (passes + 1) (edits + (EditSet.ofViolations vs).size) rounds
        ((EditSet.ofViolations vs).apply s) := by
  rw [fixFrom, h]
  change (if (EditSet.ofViolations vs).isEmpty = true then _ else _) = _
  rw [if_neg (by simp [hset])]

/-- A text is mended by ending here or by going on after one round. -/
theorem fixFrom_cases {passes edits rounds : Nat} {s : String} {fixed : Fixed}
    (h : l.fixFrom path passes edits rounds s = .ok fixed) :
    (∃ vs, l.check path s = .ok vs ∧ fixed = ⟨s, passes, edits, vs⟩) ∨
      ∃ more vs, rounds = more + 1 ∧ l.check path s = .ok vs ∧
        (EditSet.ofViolations vs).isEmpty = false ∧
        l.fixFrom path (passes + 1) (edits + (EditSet.ofViolations vs).size) more
          ((EditSet.ofViolations vs).apply s) = .ok fixed := by
  cases hcheck : l.check path s with
  | error e => rw [fixFrom_of_error hcheck] at h; cases h
  | ok vs =>
    cases hset : (EditSet.ofViolations vs).isEmpty with
    | true =>
      rw [fixFrom_of_empty hcheck hset] at h
      exact Or.inl ⟨vs, rfl, (Except.ok.inj h).symm⟩
    | false =>
      cases rounds with
      | zero =>
        rw [fixFrom_zero, hcheck] at h
        exact Or.inl ⟨vs, rfl, (Except.ok.inj h).symm⟩
      | succ rounds =>
        rw [fixFrom_of_pass hcheck hset] at h
        exact Or.inr ⟨rounds, vs, rfl, rfl, hset, h⟩

theorem passes_of_fixFrom {passes edits rounds : Nat} {s : String} {fixed : Fixed}
    (h : l.fixFrom path passes edits rounds s = .ok fixed) :
    ∃ k ≤ rounds, Passes l path k s fixed.output ∧ fixed.passes = passes + k ∧
      l.check path fixed.output = .ok fixed.remaining := by
  induction rounds generalizing passes edits s with
  | zero =>
    rcases fixFrom_cases h with ⟨vs, hcheck, rfl⟩ | ⟨more, -, hrounds, -⟩
    · exact ⟨0, le_rfl, .done s, rfl, hcheck⟩
    · cases hrounds
  | succ rounds ih =>
    rcases fixFrom_cases h with ⟨vs, hcheck, rfl⟩ | ⟨more, vs, hrounds, hcheck, hset, hmore⟩
    · exact ⟨0, Nat.zero_le _, .done s, rfl, hcheck⟩
    · obtain rfl := Nat.succ.inj hrounds
      obtain ⟨k, hk, hrun, hcount, hout⟩ := ih hmore
      exact ⟨k + 1, Nat.succ_le_succ hk, .pass hcheck hset hrun, by omega, hout⟩

/-- What is mended was mended by at most `maxPasses` rounds, and its output can be checked. -/
theorem passes_of_fix {s : String} {fixed : Fixed} (h : l.fix path s = .ok fixed) :
    ∃ k ≤ maxPasses, Passes l path k s fixed.output ∧ fixed.passes = k ∧
      l.check path fixed.output = .ok fixed.remaining := by
  obtain ⟨k, hk, hrun, hcount, hout⟩ := passes_of_fixFrom h
  exact ⟨k, hk, hrun, by omega, hout⟩

theorem fixFrom_of_passes_error {k : Nat} {s s' : String} {e : Error} (hrun : Passes l path k s s')
    (he : l.check path s' = .error e) {passes edits rounds : Nat} (hk : k ≤ rounds) :
    l.fixFrom path passes edits rounds s = .error e := by
  induction hrun generalizing passes edits rounds with
  | done s => exact fixFrom_of_error he
  | pass hcheck hset _ ih =>
    cases rounds with
    | zero => omega
    | succ rounds =>
      rw [fixFrom_of_pass hcheck hset]
      exact ih he (Nat.le_of_succ_le_succ hk)

/-- A text that cannot be checked after some round within the bound, or at the start, is not mended. -/
theorem fix_of_passes_error {k : Nat} {s s' : String} {e : Error} (hrun : Passes l path k s s')
    (hk : k ≤ maxPasses) (he : l.check path s' = .error e) : l.fix path s = .error e :=
  fixFrom_of_passes_error hrun he hk

theorem edits_le_of_fixFrom {passes edits rounds : Nat} {s : String} {fixed : Fixed}
    (h : l.fixFrom path passes edits rounds s = .ok fixed) : edits ≤ fixed.edits := by
  induction rounds generalizing passes edits s with
  | zero =>
    rcases fixFrom_cases h with ⟨vs, -, rfl⟩ | ⟨more, -, hrounds, -⟩
    · exact le_rfl
    · cases hrounds
  | succ rounds ih =>
    rcases fixFrom_cases h with ⟨vs, -, rfl⟩ | ⟨more, vs, hrounds, -, -, hmore⟩
    · exact le_rfl
    · obtain rfl := Nat.succ.inj hrounds
      exact (Nat.le_add_right _ _).trans (ih hmore)

theorem size_pos_of_not_isEmpty {set : EditSet} (h : set.isEmpty = false) : 0 < set.size := by
  rw [EditSet.size, List.length_pos_iff]
  intro hnil
  rw [EditSet.isEmpty, hnil] at h
  cases h

/-- A text that is not changed went through no round. -/
theorem of_not_changed {s : String} {fixed : Fixed} (h : l.fix path s = .ok fixed)
    (hchanged : fixed.changed = false) : fixed.passes = 0 ∧ fixed.output = s := by
  rw [Fixed.changed, decide_eq_false_iff_not] at hchanged
  rcases fixFrom_cases h with ⟨vs, -, rfl⟩ | ⟨more, vs, -, -, hset, hmore⟩
  · exact ⟨rfl, rfl⟩
  · have hsize := size_pos_of_not_isEmpty hset
    have hle := edits_le_of_fixFrom hmore
    omega

end CallChain.Linter
