import Mathlib
import CallChain.JavaScript.Reader

/-!
# Runs that end

A run of a parser that ends is taken apart into the runs of its parts, each from the place where the one
before ended. A program is read in one such run.
-/
namespace CallChain.JavaScript.Grammar

variable {α β : Type} {p q : Place}

theorem bind_eq_ok {x : Parser α} {f : α → Parser β} {r : β} :
    (x >>= f) p = .ok (r, q) ↔ ∃ a m, x p = .ok (a, m) ∧ f a m = .ok (r, q) := by
  change (x p >>= fun result => f result.1 result.2) = _ ↔ _
  cases x p with
  | error fault => simp [bind, Except.bind]
  | ok result =>
    obtain ⟨a, m⟩ := result
    simp [bind, Except.bind]

theorem pure_eq_ok {a r : α} : (pure a : Parser α) p = .ok (r, q) ↔ a = r ∧ p = q := by
  constructor
  · intro h
    cases h
    exact ⟨rfl, rfl⟩
  · rintro ⟨rfl, rfl⟩
    rfl

theorem ite_eq_ok {P : Prop} [Decidable P] {x y : Parser α} {r : α} :
    (if P then x else y) p = .ok (r, q) ↔ P ∧ x p = .ok (r, q) ∨ ¬ P ∧ y p = .ok (r, q) := by
  by_cases h : P <;> simp [h]

theorem get_eq_ok {r : Place} : (get : Parser Place) p = .ok (r, q) ↔ p = r ∧ p = q := pure_eq_ok

theorem set_eq_ok {m : Place} {r : PUnit} : (set m : Parser PUnit) p = .ok (r, q) ↔ m = q := by
  constructor
  · intro h
    cases h
    rfl
  · rintro rfl
    rfl

theorem modify_eq_ok {f : Place → Place} {r : PUnit} :
    (modify f : Parser PUnit) p = .ok (r, q) ↔ f p = q :=
  set_eq_ok (p := p)

theorem throw_ne_ok {fault : Fault} {r : α} : (throw fault : Parser α) p = .ok (r, q) ↔ False := by
  constructor
  · intro h
    cases h
  · exact False.elim

theorem fail_eq_ok {r : α} : (fail : Parser α) p = .ok (r, q) ↔ False := by
  simp only [fail, bind_eq_ok, throw_ne_ok, and_false, exists_false]

theorem orElse_ok {x y : Parser α} {r : α} (h : orElse x y p = .ok (r, q)) :
    x p = .ok (r, q) ∨ y p = .ok (r, q) := by
  unfold orElse at h
  split at h
  · next result hok => exact Or.inl (hok.trans h)
  · split at h
    · next result hok => exact Or.inr (hok.trans h)
    · cases h
    · cases h

/-- The parser of a run, so that it can be split where it is a `match`. -/
theorem eq_ok_iff {x : Parser α} {r : α} :
    x p = .ok (r, q) ↔ ∃ y, y = x ∧ y p = .ok (r, q) := by
  simp

/-- A program is read in one run over the text. -/
theorem exists_run_of_program {text : List Char} {tree : Concrete} (h : program text = .ok tree) :
    ∃ first m body q, hashBang ((Place.start text).skip (spaceLength text)) = .ok (first, m) ∧
      programBody (depthFor text) (depthFor text) m = .ok (body, q) ∧
      tree = .node
        { kind := "program", named := true, extra := false, role := none
          span := ((Place.start text).skip (spaceLength text)).spanTo ((Place.start text).skip text.length) }
        (first ++ body) := by
  cases hrun : (do
      let first ← hashBang
      return first ++ (← programBody (depthFor text) (depthFor text)) : Parser (List Concrete)).run
      ((Place.start text).skip (spaceLength text)) with
  | error fault =>
    rw [program, hrun] at h
    cases h
  | ok result =>
    rw [program, hrun] at h
    obtain ⟨nodes, q⟩ := result
    simp only [StateT.run, bind_eq_ok, pure_eq_ok] at hrun
    obtain ⟨first, m, hfirst, body, _, hbody, rfl, rfl⟩ := hrun
    exact ⟨first, m, body, _, hfirst, hbody, (Except.ok.inj h).symm⟩

end CallChain.JavaScript.Grammar
