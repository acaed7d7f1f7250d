import CallChain.Proofs.Linter.Passes
import CallChain.Text.Search

/-!
# Two linters on one text

Two linters that find the same in every text, up to some relation between their findings, mend every text
alike, provided that related findings carry the same edits. That is asked only of the texts which the
rounds of the first linter come to.
-/
namespace CallChain.Linter

open CallChain.Syntax (Arena)

variable {l l' : Linter} {path : Path} {content : String}

/-- Both fail, and with the same error, or both succeed, and with related results. -/
inductive Alike {ε α β : Type} (R : α → β → Prop) : Except ε α → Except ε β → Prop
  | failed (e : ε) : Alike R (.error e) (.error e)
  | done {a : α} {b : β} (h : R a b) : Alike R (.ok a) (.ok b)

theorem Alike.cases {ε α β : Type} {R : α → β → Prop} {x : Except ε α} {y : Except ε β}
    (h : Alike R x y) :
    (∃ e, x = .error e ∧ y = .error e) ∨ ∃ a b, x = .ok a ∧ y = .ok b ∧ R a b := by
  cases h with
  | failed e => exact Or.inl ⟨e, rfl, rfl⟩
  | done h => exact Or.inr ⟨_, _, rfl, rfl, h⟩

/-- Mended texts that differ at most in what remains to be found, which is related. -/
structure Fixed.Alike (R : List Violation → List Violation → Prop) (a b : Fixed) : Prop where
  output : a.output = b.output
  passes : a.passes = b.passes
  edits : a.edits = b.edits
  remaining : R a.remaining b.remaining

/-- The tree of a text, by the front end that the path selects. -/
def treeOf (l : Linter) (path : Path) (content : String) : Except Error Arena :=
  match l.frontEnd? path with
  | none => .error (.unsupported path)
  | some frontEnd => (frontEnd.parse content).mapError (.unparsable path)

theorem check_eq (l : Linter) (path : Path) (content : String) :
    l.check path content = (l.treeOf path content).map fun tree =>
      (l.findings (.make path content l.base) tree).mergeSort Violation.inText := by
  unfold check treeOf
  cases l.frontEnd? path with
  | none => rfl
  | some frontEnd =>
    simp only
    cases frontEnd.parse content <;> rfl

/-- Linters with the same front ends differ at most in what their rules find. -/
theorem check_alike {R : List Violation → List Violation → Prop}
    (htree : l'.treeOf path content = l.treeOf path content)
    (h : ∀ tree, R ((l.findings (.make path content l.base) tree).mergeSort Violation.inText)
      ((l'.findings (.make path content l'.base) tree).mergeSort Violation.inText)) :
    Alike R (l.check path content) (l'.check path content) := by
  rw [check_eq, check_eq, htree]
  cases l.treeOf path content with
  | error e => exact .failed e
  | ok tree => exact .done (h tree)

theorem fixFrom_alike {R : List Violation → List Violation → Prop} {rounds passes edits : Nat}
    (hcheck : ∀ s, Alike R (l.check path s) (l'.check path s))
    (hset : ∀ k < rounds, ∀ s vs vs', Passes l path k content s → l.check path s = .ok vs →
      R vs vs' → EditSet.ofViolations vs = EditSet.ofViolations vs') :
    Alike (Fixed.Alike R) (l.fixFrom path passes edits rounds content)
      (l'.fixFrom path passes edits rounds content) := by
  induction rounds generalizing passes edits content with
  | zero =>
    rw [fixFrom_zero, fixFrom_zero]
    rcases (hcheck content).cases with ⟨e, hvs, hvs'⟩ | ⟨vs, vs', hvs, hvs', hrelated⟩
    · rw [hvs, hvs']
      exact .failed e
    · rw [hvs, hvs']
      exact .done ⟨rfl, rfl, rfl, hrelated⟩
  | succ rounds ih =>
    rcases (hcheck content).cases with ⟨e, hvs, hvs'⟩ | ⟨vs, vs', hvs, hvs', hrelated⟩
    · rw [fixFrom_of_error hvs, fixFrom_of_error hvs']
      exact .failed e
    · have hsame := hset 0 (Nat.succ_pos rounds) content vs vs' (.done content) hvs hrelated
      cases hempty : (EditSet.ofViolations vs).isEmpty with
      | true =>
        rw [fixFrom_of_empty hvs hempty, fixFrom_of_empty hvs' (hsame ▸ hempty)]
        exact .done ⟨rfl, rfl, rfl, hrelated⟩
      | false =>
        -- Both linters go on from the same text, which is one round further for the first.
        rw [fixFrom_of_pass hvs hempty, fixFrom_of_pass hvs' (hsame ▸ hempty), ← hsame]
        refine ih fun k hk s us us' hrun => hset (k + 1) (Nat.succ_lt_succ hk) s us us' ?_
        exact .pass hvs hempty hrun

/-- Linters whose findings are related in every text mend a text alike. -/
theorem fix_alike {R : List Violation → List Violation → Prop}
    (hcheck : ∀ s, Alike R (l.check path s) (l'.check path s))
    (hset : ∀ k < maxPasses, ∀ s vs vs', Passes l path k content s → l.check path s = .ok vs →
      R vs vs' → EditSet.ofViolations vs = EditSet.ofViolations vs') :
    Alike (Fixed.Alike R) (l.fix path content) (l'.fix path content) :=
  fixFrom_alike hcheck hset

/-! ### Rules on single characters -/

/-- Every text is a tree of one node. -/
def plainText : FrontEnd where
  extensions := [".txt"]
  parse := fun _ => .ok ⟨#[⟨.other "file" [], default, none⟩], #[], 0⟩

/-- The rule that reports each `mark` and takes it out. -/
def erasing (name : String) (mark : Char) : Rule where
  name
  code := "TEST001"
  check := fun ctx _ => (Text.occurrences [mark] ctx.content.toList).map fun offset =>
    let place : Location := ⟨ctx.relativePath, 1, offset + 1, offset, 1⟩
    (Violation.make "TEST001" name .warning place "found").withSuggestion ⟨"erase", some ⟨place, ""⟩⟩

end CallChain.Linter
