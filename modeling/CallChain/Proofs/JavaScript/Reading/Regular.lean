import CallChain.Proofs.JavaScript.Reading.Statement

/-!
# Where parentheses stand

In a tree that is read, parentheses are constructs, and they hold no `?.`, which only stands in an
access. Argument lists and `else` clauses are not in parentheses.
-/
namespace CallChain.JavaScript

namespace Concrete

variable {c d : Concrete} {cs : List Concrete} {l : Label}

/-- Parentheses around a construct are a construct themselves, and what they hold is not a `?.`. -/
def Encloses (s : Concrete) : Prop :=
  s.kind = "parenthesized_expression" → ∀ inner ∈ s.children.find? isProper,
    s.isProper = true ∧ ¬ IsMark inner.kind

/-- The argument list of a call and the `else` clause of a statement are not in parentheses. -/
def BareFields (s : Concrete) : Prop :=
  ∀ d ∈ s.children, d.kind = "parenthesized_expression" →
    (s.kind = "call_expression" → d.label.role ≠ some .arguments) ∧
      (s.kind = "if_statement" → d.label.role ≠ some .alternative)

/-- Every node of the tree is as the grammar has it. -/
def Regular (c : Concrete) : Prop := ∀ s : Concrete, s.Within c → s.Encloses ∧ s.BareFields

theorem Regular.child {l : Label} {cs : List Concrete} (h : (node l cs).Regular) (hd : d ∈ cs) :
    d.Regular :=
  fun s hs => h s (.inside hd hs)

theorem regular_node :
    (node l cs).Regular ↔
      ((node l cs).Encloses ∧ (node l cs).BareFields) ∧ ∀ c ∈ cs, c.Regular :=
  forall_within_node

theorem regular_leaf (l : Label) : (node l []).Regular :=
  regular_node.mpr
    ⟨⟨fun _ _ h => (by cases h), fun _ h => (by cases h)⟩, fun _ h => (by cases h)⟩

/-- Fields matter only in calls and `if` statements. -/
theorem bareFields_of_kind (hcall : l.kind ≠ "call_expression") (hif : l.kind ≠ "if_statement") :
    (node l cs).BareFields :=
  fun _ _ _ => ⟨fun h => absurd h hcall, fun h => absurd h hif⟩

/-- A node with a plain name may have any regular children. -/
theorem regular_plain (hkind : isPlain l.kind = true) (h : ∀ c ∈ cs, c.Regular) :
    (node l cs).Regular := by
  simp only [isPlain, List.all_cons, List.all_nil, Bool.and_true, Bool.and_eq_true,
    decide_eq_true_eq] at hkind
  obtain ⟨-, -, hparenthesis, hcall, hif⟩ := hkind
  exact regular_node.mpr
    ⟨⟨fun hp => absurd hp.symm hparenthesis, bareFields_of_kind hcall.symm hif.symm⟩, h⟩

theorem regular_as (role : Role) : (c.as role).Regular ↔ c.Regular := by
  obtain ⟨m, cs⟩ := c
  rw [as, regular_node, regular_node]
  rfl

end Concrete

theorem not_isMark_of_isPlain {kind : String} (h : isPlain kind = true) : ¬ IsMark kind := by
  simp only [isPlain, List.all_cons, List.all_nil, Bool.and_true, Bool.and_eq_true,
    decide_eq_true_eq] at h
  rintro (hmark | hmark)
  · exact h.1 hmark.symm
  · exact h.2.1 hmark.symm

/-- The reader puts parentheses only around constructs, and none around fields that are looked into. -/
def keepsRegular : ReadInvariant where
  place _ := True
  part c := c.Regular
  tree c := c.Regular ∧ (c.isProper = true → ¬ IsMark c.kind)
  step h := h
  part_of_tree h := h.1
  mark _ _ := Concrete.regular_leaf _
  leaf hkind _ _ := by
    refine ⟨Concrete.regular_leaf _, fun hproper => hkind ?_⟩
    exact (Bool.and_eq_true_iff.mp hproper).1
  as role := and_congr_left' (Concrete.regular_as role)
  renamed {c} kind hkind h := by
    obtain ⟨m, cs⟩ := c
    exact ⟨Concrete.regular_plain hkind fun d hd => h.1.child hd, fun _ => not_isMark_of_isPlain hkind⟩
  bare _ := ⟨Concrete.regular_leaf _, fun hproper => by cases hproper⟩
  construct hkind _ h := ⟨Concrete.regular_plain hkind h, fun _ => not_isMark_of_isPlain hkind⟩
  constructTo hkind _ h _ := ⟨Concrete.regular_plain hkind h, fun _ => not_isMark_of_isPlain hkind⟩
  parentheses _ h := by
    refine ⟨Concrete.regular_node.mpr ⟨⟨fun _ inner hinner => ?_, ?_⟩, ?_⟩, fun _ => ?_⟩
    · exact ⟨rfl, (h inner (List.mem_of_find?_eq_some hinner)).2 (List.find?_some hinner)⟩
    · exact Concrete.bareFields_of_kind (by simp) (by simp)
    · exact fun c hc => (h c hc).1
    · simp
  call _ h hlist := by
    refine ⟨Concrete.regular_node.mpr ⟨⟨fun hkind => ?_, fun d hd hkind => ?_⟩, h⟩, fun _ => ?_⟩
    · simp [Concrete.kind, Concrete.label] at hkind
    · refine ⟨fun _ hrole => hlist d hd hrole hkind, fun hif => ?_⟩
      simp [Concrete.kind, Concrete.label] at hif
    · simp
  ifStatement _ h hclause := by
    refine ⟨Concrete.regular_node.mpr ⟨⟨fun hkind => ?_, fun d hd hkind => ?_⟩, ?_⟩, fun _ => ?_⟩
    · simp [Concrete.kind, Concrete.label] at hkind
    · refine ⟨fun hcall => ?_, fun _ hrole => hclause d hd hrole hkind⟩
      simp [Concrete.kind, Concrete.label] at hcall
    · exact fun c hc => (h c hc).1
    · simp

theorem regular_of_program {text : List Char} {tree : Concrete} (h : Grammar.program text = .ok tree) :
    tree.Regular := by
  obtain ⟨p, q, children, -, -, hchildren, rfl⟩ :=
    Grammar.exists_of_program (I := keepsRegular) trivial h
  exact Concrete.regular_plain (by simp) fun c hc => (hchildren c hc).1

end CallChain.JavaScript
