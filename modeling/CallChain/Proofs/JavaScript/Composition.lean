import CallChain.Proofs.JavaScript.Abstraction

/-!
# What an abstract tree is made of

The tree of a node is made from the trees of some nodes in it: `taken` lists these from left to right. Most
constructs take their proper children, some take their fields, a call takes its arguments out of their
list, and an `if` statement its last branch out of the `else` clause. Parentheses are dropped for what is
in them.
-/
namespace CallChain.JavaScript.Concrete

open CallChain.Syntax

variable {text : List Char} {s d : Concrete} {role : Role}

/-- The first child in a role. -/
def field? (s : Concrete) (role : Role) : Option Concrete :=
  s.children.find? (·.label.role == some role)

/-- The proper children. -/
def proper (s : Concrete) : List Concrete := s.children.filter isProper

/-- `?.` stands directly below the node. -/
def hasMark (s : Concrete) : Bool := s.children.any fun d => IsMark d.kind

/-- The argument list of a call; a template is none. -/
def argumentList? (s : Concrete) : Option Concrete :=
  (s.field? .arguments).filter (·.kind == "arguments")

/-- The branch of an `if` statement behind `else`. -/
def elseBranch? (s : Concrete) : Option Concrete := (s.field? .alternative).bind (·.proper.head?)

/-- The nodes in some roles, if there is one in each. -/
def fields? (s : Concrete) (roles : List Role) : Option (List Concrete) := roles.mapM s.field?

/-- The nodes whose trees become the children of the node's tree. -/
def taken (s : Concrete) : List Concrete :=
  match s.kind with
  | "expression_statement" => s.proper.head?.toList
  | "if_statement" =>
    ((s.fields? [.condition, .consequence]).map (· ++ s.elseBranch?.toList)).getD s.proper
  | "ternary_expression" => (s.fields? [.condition, .consequence, .alternative]).getD s.proper
  | "member_expression" => (s.fields? [.object, .property]).getD s.proper
  | "subscript_expression" => (s.fields? [.object, .index]).getD s.proper
  | "call_expression" =>
    ((s.field? .function).bind fun callee => s.argumentList?.map (callee :: ·.proper)).getD s.proper
  | "identifier" | "property_identifier" => []
  | _ => s.proper

section Parts

variable (text : List Char) (s : Concrete)

theorem tree_part : (s.part text).tree = s.abstract text := rfl

theorem abstract_eq_shape : s.abstract text = Part.shape text s.label (partAll text s.children) := by
  cases s
  rfl

theorem withRole?_partAll (role : Role) :
    Part.withRole? role (partAll text s.children) = (s.field? role).map (part text) := by
  rw [Part.withRole?, partAll_eq, List.find?_map, field?]
  congr 2
  funext d
  simp [label_part]

theorem proper_partAll : Part.proper (partAll text s.children) = s.proper.map (part text) := by
  rw [Part.proper, partAll_eq, List.filter_map, proper]
  congr 2
  funext d
  simp [Part.isProper, isProper, label_part]

theorem trees_partAll : Part.trees (partAll text s.children) = s.proper.map (·.abstract text) := by
  rw [Part.trees, proper_partAll, List.map_map]
  rfl

theorem isOptional_partAll : Part.isOptional (partAll text s.children) = s.hasMark := by
  rw [Part.isOptional, partAll_eq, List.any_map, hasMark]
  congr 1
  funext d
  rw [Function.comp_apply, label_part]
  exact (Bool.decide_or _ _).symm

theorem children_asOther (l : Label) :
    (Part.asOther l (partAll text s.children)).children = s.proper.map (·.abstract text) :=
  trees_partAll text s

theorem children_memberTree (l : Label) (computed : Bool) (name : Role) :
    (Part.memberTree l (partAll text s.children) computed name).children =
      ((s.fields? [.object, name]).getD s.proper).map (·.abstract text) := by
  simp only [Part.memberTree, withRole?_partAll, fields?, List.mapM_cons, List.mapM_nil]
  cases s.field? .object <;> cases s.field? name <;>
    simp [Part.asOther, trees_partAll, Tree.children, tree_part]

theorem children_conditionalTree (l : Label) :
    (Part.conditionalTree l (partAll text s.children)).children =
      ((s.fields? [.condition, .consequence, .alternative]).getD s.proper).map (·.abstract text) := by
  simp only [Part.conditionalTree, withRole?_partAll, fields?, List.mapM_cons, List.mapM_nil]
  cases s.field? .condition <;> cases s.field? .consequence <;> cases s.field? .alternative <;>
    simp [Part.asOther, trees_partAll, Tree.children, tree_part]

theorem children_ifTree (l : Label) :
    (Part.ifTree l (partAll text s.children)).children =
      (((s.fields? [.condition, .consequence]).map (· ++ s.elseBranch?.toList)).getD s.proper).map
        (·.abstract text) := by
  simp only [Part.ifTree, withRole?_partAll, fields?, List.mapM_cons, List.mapM_nil, elseBranch?]
  cases s.field? .condition <;> cases s.field? .consequence <;> cases s.field? .alternative <;>
    simp [Part.asOther, trees_partAll, Tree.children, tree_part, children_part, proper_partAll, Option.toList_map]

theorem argumentList?_partAll :
    (Part.withRole? .arguments (partAll text s.children)).filter (·.label.kind == "arguments") =
      s.argumentList?.map (part text) := by
  rw [withRole?_partAll, argumentList?, Option.filter_map]
  congr 2
  funext d
  simp [label_part, kind]

theorem children_callTree (l : Label) :
    (Part.callTree l (partAll text s.children)).children =
      (((s.field? .function).bind fun callee => s.argumentList?.map (callee :: ·.proper)).getD
        s.proper).map (·.abstract text) := by
  rw [Part.callTree, argumentList?_partAll, withRole?_partAll]
  cases s.field? .function <;> cases s.argumentList? <;>
    simp [Part.asOther, trees_partAll, Tree.children, tree_part, children_part]

end Parts

/-- Parentheses are dropped for what is in them. -/
theorem abstract_of_head? {inner : Concrete} (hkind : s.kind = "parenthesized_expression")
    (hinner : s.proper.head? = some inner) : s.abstract text = inner.abstract text := by
  rw [kind] at hkind
  rw [abstract_eq_shape, Part.shape]
  simp only [hkind, proper_partAll, List.head?_map, hinner, Option.map_some]
  rfl

/-- The node is not dropped. -/
def IsKept (s : Concrete) : Prop := s.kind = "parenthesized_expression" → s.proper = []

/-- What stands for a node is the node itself or a node inside it. -/
theorem exists_isKept (text : List Char) (c : Concrete) : ∃ s : Concrete, s.Within c ∧ s.IsKept ∧
    s.abstract text = c.abstract text := by
  cases c with
  | node l cs =>
    by_cases hkept : (node l cs).IsKept
    · exact ⟨node l cs, .here _, hkept, rfl⟩
    · obtain ⟨hkind, hne⟩ := Classical.not_imp.mp hkept
      obtain ⟨inner, hinner⟩ := Option.ne_none_iff_exists'.mp (mt List.head?_eq_none_iff.mp hne)
      have hmem : inner ∈ cs := List.mem_of_mem_filter (List.mem_of_head? hinner)
      have hlt := List.sizeOf_lt_of_mem hmem
      obtain ⟨s, hs, hskept, heq⟩ := exists_isKept text inner
      exact ⟨s, .inside hmem hs, hskept, heq.trans (abstract_of_head? hkind hinner).symm⟩
  termination_by sizeOf c

theorem made_abstract (hkept : s.IsKept) :
    Part.Made s.label (partAll text s.children) (s.abstract text) := by
  rw [abstract_eq_shape]
  rcases Part.shape_cases text s.label (partAll text s.children) with ⟨hkind, p, hp, -⟩ | hmade
  · rw [proper_partAll, hkept hkind] at hp
    cases hp
  · exact hmade

theorem span_abstract (hkept : s.IsKept) : (s.abstract text).span = s.span := (made_abstract hkept).span

/-- The children of its tree are the trees of what it takes. -/
theorem children_abstract (hkept : s.IsKept) :
    (s.abstract text).children = s.taken.map (·.abstract text) := by
  rw [abstract_eq_shape, Part.shape, taken, kind]
  split
  · next h => simp [h, trees_partAll, Tree.children]
  · next h => simp [h, proper_partAll, hkept h, children_asOther]
  · next h =>
    cases hp : s.proper <;>
      simp [h, hp, proper_partAll, Part.asOther, trees_partAll, Tree.children, tree_part]
  · next h => simp only [h, children_ifTree]
  · next h => simp only [h, children_conditionalTree]
  · next h => simp only [h, children_memberTree]
  · next h => simp only [h, children_memberTree]
  · next h => simp only [h, children_callTree]
  · next h => simp [h, Tree.children]
  · next h => simp [h, Tree.children]
  · next h =>
    rw [children_asOther]
    split <;> simp_all

theorem fields?_eq_some_iff {roles : List Role} {ds : List Concrete} :
    s.fields? roles = some ds ↔ List.Forall₂ (fun r d => s.field? r = some d) roles ds := by
  induction roles generalizing ds with
  | nil => simp [fields?, eq_comm]
  | cons r roles ih =>
    have hcons : s.fields? (r :: roles) =
        (s.field? r).bind fun d => (s.fields? roles).map (d :: ·) := by
      simp only [fields?, List.mapM_cons]
      cases s.field? r <;> cases roles.mapM s.field? <;> rfl
    rw [hcons]
    constructor
    · intro h
      obtain ⟨d, hd, h⟩ := Option.bind_eq_some_iff.mp h
      obtain ⟨es, hes, rfl⟩ := Option.map_eq_some_iff.mp h
      exact .cons hd (ih.mp hes)
    · rintro (_ | ⟨hd, hrest⟩)
      simp [hd, ih.mpr hrest]

theorem mem_of_field? (h : s.field? role = some d) : d ∈ s.children := List.mem_of_find?_eq_some h

theorem role_of_field? (h : s.field? role = some d) : d.label.role = some role := by
  simpa using List.find?_some h

theorem within_of_mem_children (h : d ∈ s.children) : d.Within s := by
  obtain ⟨l, cs⟩ := s
  exact .inside h (.here d)

theorem within_of_mem_proper (h : d ∈ s.proper) : d.Within s :=
  within_of_mem_children (List.mem_of_mem_filter h)

end CallChain.JavaScript.Concrete
