import CallChain.Proofs.JavaScript.Composition
import CallChain.Proofs.JavaScript.Orderly

/-!
# The shapes of the grammar

What a reader can rely on in a concrete tree besides the order of its spans: fields stand in the order in
which they stand in a text, and constructs that are looked into hold their fields and nothing else.
-/
namespace CallChain.JavaScript

/-- The roles behind a role in the constructs that have both. -/
def Role.later : Role → List Role
  | condition => [consequence, alternative]
  | consequence => [alternative]
  | object => [property, index]
  | function => [arguments]
  | alternative | property | index | arguments => []

theorem Role.notMem_later (r : Role) : r ∉ r.later := by cases r <;> decide

namespace Concrete

/-- No child stands before another whose role comes first. -/
def FieldsInOrder (s : Concrete) : Prop :=
  s.children.Pairwise fun d e => ∀ r ∈ d.label.role, ∀ r' ∈ e.label.role, r ∉ r'.later

instance : DecidablePred FieldsInOrder := fun s => inferInstanceAs
  (Decidable (s.children.Pairwise fun d e => ∀ r ∈ d.label.role, ∀ r' ∈ e.label.role, r ∉ r'.later))

mutual

def decideEq : ∀ c d : Concrete, Decidable (c = d)
  | node l cs, node m ds =>
    have := decideEqAll cs ds
    decidable_of_iff (l = m ∧ cs = ds) (by rw [node.injEq])

def decideEqAll : ∀ cs ds : List Concrete, Decidable (cs = ds)
  | [], [] => isTrue rfl
  | [], _ :: _ => isFalse nofun
  | _ :: _, [] => isFalse nofun
  | c :: cs, d :: ds =>
    have := decideEq c d
    have := decideEqAll cs ds
    decidable_of_iff (c = d ∧ cs = ds) (by rw [List.cons.injEq])

end

instance : DecidableEq Concrete := decideEq

/-- The proper children that are not a `?.`. -/
def constructs (s : Concrete) : List Concrete := s.proper.filter fun d => ¬ IsMark d.kind

/-- The roles in constructs that are made of their fields. -/
def rolesOf? : String → Option (List Role)
  | "ternary_expression" => some [.condition, .consequence, .alternative]
  | "member_expression" => some [.object, .property]
  | "subscript_expression" => some [.object, .index]
  | "call_expression" => some [.function, .arguments]
  | _ => none

/-- The shapes that the grammar gives to its nodes. -/
@[mk_iff] structure FollowsGrammar (s : Concrete) : Prop where
  /-- Punctuation, keywords, `?.` and names are leaves. -/
  leaf : s.label.named = false ∨ IsMark s.kind ∨ s.kind = "identifier" ∨
    s.kind = "property_identifier" → s.children = []
  /-- One construct stands in parentheses, in an expression statement and behind `else`. -/
  single : s.kind ∈ ["parenthesized_expression", "expression_statement", "else_clause"] →
    s.proper.length = 1
  fields : ∀ roles ∈ rolesOf? s.kind, s.fields? roles = some s.constructs
  /-- An `if` statement has one branch, or a second one in an `else` clause. -/
  branches : s.kind = "if_statement" →
    (s.fields? [.condition, .consequence] = some s.constructs ∧ s.field? .alternative = none) ∨
    (s.fields? [.condition, .consequence, .alternative] = some s.constructs ∧
      ∀ clause ∈ s.field? .alternative, clause.kind = "else_clause")

instance : DecidablePred FollowsGrammar := fun s => decidable_of_iff _ (followsGrammar_iff s).symm

/-- The node is in place, and it is as the grammar has it. -/
structure Sound (s : Concrete) : Prop where
  inPlace : s.InPlace
  fieldsInOrder : s.FieldsInOrder
  followsGrammar : s.FollowsGrammar

end Concrete

end CallChain.JavaScript
