import CallChain.JavaScript.Abstraction
import CallChain.JavaScript.Walk
import CallChain.Proofs.Syntax.Layout

/-!
# The arena of a concrete tree

Each tree inside the abstract tree of a node is the abstract tree of a node inside it, and one that was
not dropped as a parenthesis: it has that node's span, and the kind that goes with its grammar name, or no
more than that name if the node lacks a part that the kind asks for. Laid out, these trees make up an arena
in preorder.
-/
namespace CallChain.JavaScript

open CallChain.Syntax

/-- The grammar's names for what becomes a node of a kind. -/
def grammarNames : NodeKind → List String
  | .program _ => ["program"]
  | .expressionStatement _ => ["expression_statement"]
  | .ifStatement .. => ["if_statement"]
  | .conditional .. => ["ternary_expression"]
  | .member _ _ computed _ => if computed then ["subscript_expression"] else ["member_expression"]
  | .call .. => ["call_expression"]
  | .identifier _ => ["identifier", "property_identifier"]
  | .other kind _ => [kind]

/-- The names of the token `?.`. -/
@[simp] def IsMark (kind : String) : Prop := kind = "optional_chain" ∨ kind = "?."

instance (kind : String) : Decidable (IsMark kind) :=
  inferInstanceAs (Decidable (kind = "optional_chain" ∨ kind = "?."))

/-- One of the labels is of the role. -/
def Label.hasRole (below : List Label) (role : Role) : Bool := below.any (·.role == some role)

/-- A construct that has a kind of its own, with all children that this kind asks for. -/
def Label.isComplete (l : Label) (below : List Label) : Bool :=
  match l.kind with
  | "program" | "identifier" | "property_identifier" => true
  | "parenthesized_expression" | "expression_statement" => below.any fun d => d.named && !d.extra
  | "if_statement" => hasRole below .condition && hasRole below .consequence
  | "ternary_expression" =>
    hasRole below .condition && hasRole below .consequence && hasRole below .alternative
  | "member_expression" => hasRole below .object && hasRole below .property
  | "subscript_expression" => hasRole below .object && hasRole below .index
  | "call_expression" =>
    hasRole below .function &&
      (below.find? (·.role == some .arguments)).any (·.kind == "arguments")
  | _ => false

/-- The kind goes with the construct: it bears its name, and is `other` only if the construct is not
complete. -/
structure Label.GoesWith (l : Label) (below : List Label) (k : NodeKind) : Prop where
  name : l.kind ∈ grammarNames k
  other : (∃ children, k = .other l.kind children) ↔ l.isComplete below = false

namespace Part

variable {text : List Char} {l : Label} {ps : List Part} {t : Tree}

/-- The tree of one of some nodes or of a child of one of them. -/
def IsInner (ps : List Part) (t : Tree) : Prop :=
  ∃ p ∈ ps, t = p.tree ∨ ∃ q ∈ p.children, t = q.tree

/-- A tree as it is made for a node that is not dropped. -/
structure Made (l : Label) (ps : List Part) (t : Tree) : Prop where
  span : t.span = l.span
  kind : ∀ {ids : List NodeId}, ids.length = t.children.length →
    l.GoesWith (ps.map label) (t.kindWith ids)
  children : ∀ c ∈ t.children, IsInner ps c

theorem isInner_of_mem {p : Part} (h : p ∈ ps) : IsInner ps p.tree := ⟨p, h, Or.inl rfl⟩

theorem isInner_of_withRole? {role : Role} {p : Part} (h : withRole? role ps = some p) :
    IsInner ps p.tree :=
  isInner_of_mem (List.mem_of_find?_eq_some h)

theorem isInner_of_mem_trees (h : t ∈ trees ps) : IsInner ps t := by
  obtain ⟨p, hp, rfl⟩ := List.mem_map.mp h
  exact isInner_of_mem (List.mem_of_mem_filter hp)

/-- The proper children of a child are below the node as well. -/
theorem isInner_of_mem_below {p q : Part} (hp : p ∈ ps) (hq : q ∈ proper p.children) :
    IsInner ps q.tree :=
  ⟨p, hp, Or.inr ⟨q, List.mem_of_mem_filter hq, rfl⟩⟩

theorem hasRole_map_label (ps : List Part) (role : Role) :
    Label.hasRole (ps.map label) role = (withRole? role ps).isSome := by
  rw [Label.hasRole, withRole?, List.any_map, List.isSome_find?]
  rfl

theorem any_map_label (ps : List Part) :
    ((ps.map label).any fun d => d.named && !d.extra) = (proper ps).head?.isSome := by
  rw [List.any_map, proper, List.head?_filter, List.isSome_find?]
  rfl

theorem made_asOther (h : l.isComplete (ps.map label) = false) : Made l ps (asOther l ps) where
  span := rfl
  kind {ids} _ := ⟨List.mem_singleton.mpr rfl, fun _ => h, fun _ => ⟨ids, rfl⟩⟩
  children _ := isInner_of_mem_trees

theorem made_memberTree {computed : Bool} {name : Role}
    (hname : l.kind ∈ grammarNames (.member 0 0 computed false))
    (hcomplete : l.isComplete (ps.map label) =
      (Label.hasRole (ps.map label) .object && Label.hasRole (ps.map label) name)) :
    Made l ps (memberTree l ps computed name) := by
  rw [hasRole_map_label, hasRole_map_label] at hcomplete
  unfold memberTree
  cases hobject : withRole? .object ps with
  | none => exact made_asOther (by simp [hcomplete, hobject])
  | some object =>
    cases hlast : withRole? name ps with
    | none => exact made_asOther (by simp [hcomplete, hlast])
    | some last =>
      refine ⟨rfl, fun {ids} h => ?_, fun c hc => ?_⟩
      · obtain ⟨object, property, rfl⟩ := List.length_eq_two.mp h
        exact ⟨hname, by simp [Tree.kindWith, hcomplete, hobject, hlast]⟩
      · simp only [Tree.children, List.mem_cons, List.not_mem_nil, or_false] at hc
        rcases hc with rfl | rfl
        · exact isInner_of_withRole? hobject
        · exact isInner_of_withRole? hlast

theorem made_callTree (hkind : l.kind = "call_expression") : Made l ps (callTree l ps) := by
  have hcomplete : l.isComplete (ps.map label) = ((withRole? .function ps).isSome &&
      ((withRole? .arguments ps).filter (·.label.kind == "arguments")).isSome) := by
    simp only [Label.isComplete, hkind, hasRole_map_label, List.find?_map, Option.any_map,
      Option.isSome_filter]
    rfl
  unfold callTree
  cases hcallee : withRole? .function ps with
  | none => exact made_asOther (by simp [hcomplete, hcallee])
  | some callee =>
    cases harguments : (withRole? .arguments ps).filter (·.label.kind == "arguments") with
    | none => exact made_asOther (by rw [hcomplete, harguments, hcallee]; rfl)
    | some arguments =>
      refine ⟨rfl, fun {ids} h => ?_, fun c hc => ?_⟩
      · obtain ⟨callee, arguments, rfl⟩ := List.exists_cons_of_length_eq_add_one h
        exact ⟨List.mem_singleton.mpr hkind, by simp [Tree.kindWith, hcomplete, hcallee, harguments]⟩
      · rcases List.mem_cons.mp hc with rfl | hc
        · exact isInner_of_withRole? hcallee
        · obtain ⟨q, hq, rfl⟩ := List.mem_map.mp hc
          have hrole := (Option.filter_eq_some_iff.mp harguments).1
          exact isInner_of_mem_below (List.mem_of_find?_eq_some hrole) hq

theorem made_ifTree (hkind : l.kind = "if_statement") : Made l ps (ifTree l ps) := by
  have hcomplete : l.isComplete (ps.map label) =
      ((withRole? .condition ps).isSome && (withRole? .consequence ps).isSome) := by
    simp only [Label.isComplete, hkind, hasRole_map_label]
  unfold ifTree
  cases htest : withRole? .condition ps with
  | none => exact made_asOther (by simp [hcomplete, htest])
  | some test =>
    cases hconsequent : withRole? .consequence ps with
    | none => exact made_asOther (by simp [hcomplete, hconsequent])
    | some consequent =>
      refine ⟨rfl, fun {ids} h => ?_, fun c hc => ?_⟩
      · obtain ⟨test, ids, rfl⟩ := List.exists_cons_of_length_eq_add_one h
        obtain ⟨consequent, rest, rfl⟩ := List.exists_cons_of_length_eq_add_one (Nat.succ.inj h)
        exact ⟨List.mem_singleton.mpr hkind, by simp [Tree.kindWith, hcomplete, htest, hconsequent]⟩
      · simp only [Tree.children, List.mem_cons, Option.mem_toList] at hc
        rcases hc with rfl | rfl | hc
        · exact isInner_of_withRole? htest
        · exact isInner_of_withRole? hconsequent
        · obtain ⟨q, hq, rfl⟩ := Option.map_eq_some_iff.mp hc
          obtain ⟨clause, hclause, hhead⟩ := Option.bind_eq_some_iff.mp hq
          exact isInner_of_mem_below (List.mem_of_find?_eq_some hclause) (List.mem_of_head? hhead)

theorem made_conditionalTree (hkind : l.kind = "ternary_expression") :
    Made l ps (conditionalTree l ps) := by
  have hcomplete : l.isComplete (ps.map label) = ((withRole? .condition ps).isSome &&
      (withRole? .consequence ps).isSome && (withRole? .alternative ps).isSome) := by
    simp only [Label.isComplete, hkind, hasRole_map_label]
  unfold conditionalTree
  cases htest : withRole? .condition ps with
  | none => exact made_asOther (by simp [hcomplete, htest])
  | some test =>
    cases hconsequent : withRole? .consequence ps with
    | none => exact made_asOther (by simp [hcomplete, hconsequent])
    | some consequent =>
      cases halternate : withRole? .alternative ps with
      | none => exact made_asOther (by simp [hcomplete, halternate])
      | some alternate =>
        refine ⟨rfl, fun {ids} h => ?_, fun c hc => ?_⟩
        · obtain ⟨test, consequent, alternate, rfl⟩ := List.length_eq_three.mp h
          exact ⟨List.mem_singleton.mpr hkind,
            by simp [Tree.kindWith, hcomplete, htest, hconsequent, halternate]⟩
        · simp only [Tree.children, List.mem_cons, List.not_mem_nil, or_false] at hc
          rcases hc with rfl | rfl | rfl
          · exact isInner_of_withRole? htest
          · exact isInner_of_withRole? hconsequent
          · exact isInner_of_withRole? halternate

theorem made_identifier {name : String} (hname : l.kind ∈ grammarNames (.identifier name))
    (hcomplete : l.isComplete (ps.map label) = true) : Made l ps (.identifier l.span name) where
  span := rfl
  kind _ := ⟨hname, by simp [Tree.kindWith, hcomplete]⟩
  children _ hc := by cases hc

/-- Parentheses are dropped for the first of their proper children; all other nodes have trees made for
them. -/
theorem shape_cases (text : List Char) (l : Label) (ps : List Part) :
    (l.kind = "parenthesized_expression" ∧ ∃ p, (proper ps).head? = some p ∧
      shape text l ps = p.tree) ∨ Made l ps (shape text l ps) := by
  unfold shape
  split
  · next hkind =>
    exact Or.inr ⟨rfl, fun _ => ⟨List.mem_singleton.mpr hkind,
      by simp [Tree.kindWith, Label.isComplete, hkind]⟩, fun _ => isInner_of_mem_trees⟩
  · next hkind =>
    split
    · next inner hinner => exact Or.inl ⟨hkind, inner, hinner, rfl⟩
    · next hnone =>
      exact Or.inr (made_asOther (by simp only [Label.isComplete, hkind, any_map_label, hnone]; rfl))
  · next hkind =>
    right
    have hcomplete : l.isComplete (ps.map label) = (proper ps).head?.isSome := by
      simp only [Label.isComplete, hkind, any_map_label]
    split
    · next e he =>
      refine ⟨rfl, fun {ids} h => ?_, fun c hc => ?_⟩
      · obtain ⟨e, rfl⟩ := List.length_eq_one_iff.mp h
        exact ⟨List.mem_singleton.mpr hkind, by simp [Tree.kindWith, hcomplete, he]⟩
      · obtain rfl := List.mem_singleton.mp hc
        exact isInner_of_mem (List.mem_of_mem_filter (List.mem_of_head? he))
    · next hnone => exact made_asOther (by rw [hcomplete, hnone]; rfl)
  · next hkind => exact Or.inr (made_ifTree hkind)
  · next hkind => exact Or.inr (made_conditionalTree hkind)
  · next hkind =>
    exact Or.inr (made_memberTree (List.mem_singleton.mpr hkind)
      (by simp only [Label.isComplete, hkind]))
  · next hkind =>
    exact Or.inr (made_memberTree (List.mem_singleton.mpr hkind)
      (by simp only [Label.isComplete, hkind]))
  · next hkind => exact Or.inr (made_callTree hkind)
  · next hkind =>
    exact Or.inr (made_identifier (by simp [grammarNames, hkind])
      (by simp only [Label.isComplete, hkind]))
  · next hkind =>
    exact Or.inr (made_identifier (by simp [grammarNames, hkind])
      (by simp only [Label.isComplete, hkind]))
  · next =>
    refine Or.inr (made_asOther ?_)
    unfold Label.isComplete
    split <;> first | contradiction | rfl

end Part

namespace Concrete

variable {text : List Char} {s c d : Concrete}

/-- The node has a kind of its own, with all children that this kind asks for. -/
def isComplete (s : Concrete) : Bool := s.label.isComplete (s.children.map label)

/-- The node itself or a node inside it. -/
inductive Within : Concrete → Concrete → Prop
  | here (c : Concrete) : Within c c
  | inside {s d : Concrete} {l : Label} {cs : List Concrete} (hd : d ∈ cs) (h : Within s d) :
      Within s (.node l cs)

theorem Within.trans (h : Within s d) (h' : Within d c) : Within s c := by
  induction h' with
  | here => exact h
  | inside hd _ ih => exact .inside hd ih

/-- What holds of all nodes inside a node holds of the node and of all nodes inside its children. -/
theorem forall_within_node {P : Concrete → Prop} {l : Label} {cs : List Concrete} :
    (∀ s : Concrete, s.Within (node l cs) → P s) ↔
      P (node l cs) ∧ ∀ d ∈ cs, ∀ s : Concrete, s.Within d → P s := by
  constructor
  · intro h
    exact ⟨h _ (.here _), fun d hd s hs => h s (.inside hd hs)⟩
  · rintro ⟨hroot, hcs⟩ s hs
    cases hs with
    | here => exact hroot
    | inside hd h => exact hcs _ hd s h

theorem partAll_eq (text : List Char) (cs : List Concrete) :
    partAll text cs = cs.map (part text) := by
  induction cs with
  | nil => rfl
  | cons c cs ih => rw [partAll, ih, List.map_cons]

theorem mem_partAll {p : Part} {cs : List Concrete} :
    p ∈ partAll text cs ↔ ∃ d ∈ cs, d.part text = p := by
  rw [partAll_eq, List.mem_map]

theorem label_part (text : List Char) (c : Concrete) : (c.part text).label = c.label := by
  cases c
  rfl

theorem children_part (text : List Char) (c : Concrete) :
    (c.part text).children = partAll text c.children := by
  cases c
  rfl

theorem map_label_partAll (text : List Char) (cs : List Concrete) :
    (partAll text cs).map Part.label = cs.map label := by
  rw [partAll_eq, List.map_map]
  exact List.map_congr_left fun c _ => label_part text c

/-- Behind the parentheses that are dropped stands a node with a tree of its own. -/
theorem exists_made (text : List Char) (c : Concrete) : ∃ s : Concrete, s.Within c ∧
    s.abstract text = c.abstract text ∧
      Part.Made s.label (partAll text s.children) (s.abstract text) := by
  cases c with
  | node l cs =>
    rcases Part.shape_cases text l (partAll text cs) with ⟨-, p, hp, hshape⟩ | hmade
    · obtain ⟨d, hd, rfl⟩ := mem_partAll.mp (List.mem_of_mem_filter (List.mem_of_head? hp))
      have hlt := List.sizeOf_lt_of_mem hd
      obtain ⟨s, hs, heq, hmade⟩ := exists_made text d
      exact ⟨s, .inside hd hs, heq.trans hshape.symm, hmade⟩
    · exact ⟨.node l cs, .here _, rfl, hmade⟩
  termination_by sizeOf c

theorem exists_of_isInner {t : Tree} (h : Part.IsInner (partAll text c.children) t) :
    ∃ s : Concrete, s.Within c ∧ t = s.abstract text := by
  obtain ⟨l, cs⟩ := c
  obtain ⟨p, hp, ht⟩ := h
  obtain ⟨d, hd, rfl⟩ := mem_partAll.mp hp
  rcases ht with rfl | ⟨q, hq, rfl⟩
  · exact ⟨d, .inside hd (.here d), rfl⟩
  · rw [children_part] at hq
    obtain ⟨e, he, rfl⟩ := mem_partAll.mp hq
    refine ⟨e, .inside hd ?_, rfl⟩
    obtain ⟨m, ds⟩ := d
    exact .inside he (.here e)

/-- The trees inside the abstract tree of a node are those of the nodes inside it. -/
theorem exists_of_within {t : Tree} (h : t.Within (c.abstract text)) :
    ∃ s : Concrete, s.Within c ∧ t = s.abstract text := by
  induction h using Relation.ReflTransGen.head_induction_on with
  | refl => exact ⟨c, .here c, rfl⟩
  | head hchild _ ih =>
    obtain ⟨d, hd, rfl⟩ := ih
    obtain ⟨e, he, heq, hmade⟩ := exists_made text d
    rw [← heq] at hchild
    obtain ⟨s, hs, rfl⟩ := exists_of_isInner (hmade.children _ hchild)
    exact ⟨s, hs.trans (he.trans hd), rfl⟩

/-- The arena of a concrete tree is in preorder. Each of its nodes is closed: with all that is below it,
it is the abstract tree of a node of the concrete tree, and it has the span of that node and the kind that
goes with its name; it is `other`, under that name, if and only if there is no such kind or the node lacks
a child that the kind asks for. -/
theorem toArena_abstract_preorder (c : Concrete) (text : List Char) :
    let a := (c.abstract text).toArena c.tokens
    a.Preorder ∧
    (∀ i < a.size, ∃ (s : Concrete) (stop : Nat), s.Within c ∧
      HoldsAt a.nodes (a.parent? i) i (s.abstract text) stop ∧ a.span i = s.span ∧
      ∃ k, a.kind? i = some k ∧ s.kind ∈ grammarNames k ∧
        ((∃ children, k = .other s.kind children) ↔ s.isComplete = false)) ∧
    ((∀ s : Concrete, s.Within c → s.kind ≠ "") → ∀ i, a.kind? i ≠ some Builder.placeholder) := by
  intro a
  have ha : a.IsOf (c.abstract text) := Tree.toArena_isOf _ _
  have hclosed : ∀ i < a.size, ∃ (s : Concrete) (stop : Nat), s.Within c ∧
      HoldsAt a.nodes (a.parent? i) i (s.abstract text) stop ∧
      a.span i = s.span ∧ ∃ k, a.kind? i = some k ∧ s.kind ∈ grammarNames k ∧
        ((∃ children, k = .other s.kind children) ↔ s.isComplete = false) := by
    intro i hi
    obtain ⟨parent, t, stop, hholds, -, hwithin, -⟩ := ha.holds.at i.zero_le hi
    obtain ⟨d, hd, rfl⟩ := exists_of_within hwithin
    obtain ⟨s, hs, heq, hmade⟩ := exists_made text d
    rw [← Arena.parent?_of_holdsAt hholds, ← heq] at hholds
    refine ⟨s, stop, hs.trans hd, hholds, ?_⟩
    cases hholds with
    | root hnode hbelow =>
      have hgoes := hmade.kind hbelow.length_eq
      rw [map_label_partAll] at hgoes
      refine ⟨?_, _, Arena.kind?_of_getElem? hnode, hgoes.name, hgoes.other⟩
      rw [Arena.span_of_getElem? hnode]
      exact hmade.span
  refine ⟨ha.preorder, hclosed, fun hnamed i hi => ?_⟩
  have hsize : i < a.size := by
    obtain ⟨node, hnode, -⟩ := Option.map_eq_some_iff.mp hi
    exact (Array.getElem?_eq_some_iff.mp hnode).1
  obtain ⟨s, -, hs, -, -, k, hk, hname, -⟩ := hclosed i hsize
  cases hk.symm.trans hi
  exact hnamed s hs (List.mem_singleton.mp hname)

end Concrete

end CallChain.JavaScript
