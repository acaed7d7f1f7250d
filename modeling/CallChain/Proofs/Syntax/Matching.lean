import CallChain.Proofs.Chain.Moved
import CallChain.Proofs.Syntax.Layout

/-!
# Trees that match but for their spans

Two trees match if they differ at most in their spans, and those of nodes in the same place are related.
Laid out, they give arenas that match number by number: a node has the same kind, with the same numbers
of children, and the same parent in both.
-/
namespace CallChain.Syntax

variable {R : Span → Span → Prop}

inductive Tree.Matches (R : Span → Span → Prop) : Tree → Tree → Prop
  | program {s s' : Span} {ts ts' : List Tree} (hspan : R s s') (hbody : List.Forall₂ (Matches R) ts ts') :
      Matches R (.program s ts) (.program s' ts')
  | expressionStatement {s s' : Span} {e e' : Tree} (hspan : R s s') (he : Matches R e e') :
      Matches R (.expressionStatement s e) (.expressionStatement s' e')
  | ifStatement {s s' : Span} {t t' c c' : Tree} {o o' : Option Tree} (hspan : R s s')
      (htest : Matches R t t') (hconsequent : Matches R c c') (halternate : Option.Rel (Matches R) o o') :
      Matches R (.ifStatement s t c o) (.ifStatement s' t' c' o')
  | conditional {s s' : Span} {t t' c c' o o' : Tree} (hspan : R s s') (htest : Matches R t t')
      (hconsequent : Matches R c c') (halternate : Matches R o o') :
      Matches R (.conditional s t c o) (.conditional s' t' c' o')
  | member {s s' : Span} {o o' p p' : Tree} {computed optional : Bool} (hspan : R s s')
      (hobject : Matches R o o') (hproperty : Matches R p p') :
      Matches R (.member s o p computed optional) (.member s' o' p' computed optional)
  | call {s s' : Span} {c c' : Tree} {ts ts' : List Tree} {optional : Bool} (hspan : R s s')
      (hcallee : Matches R c c') (harguments : List.Forall₂ (Matches R) ts ts') :
      Matches R (.call s c ts optional) (.call s' c' ts' optional)
  | identifier {s s' : Span} {name : String} (hspan : R s s') :
      Matches R (.identifier s name) (.identifier s' name)
  | other {s s' : Span} {kind : String} {ts ts' : List Tree} (hspan : R s s')
      (hchildren : List.Forall₂ (Matches R) ts ts') : Matches R (.other s kind ts) (.other s' kind ts')

namespace Tree.Matches

variable {t t' : Tree}

theorem span (h : Matches R t t') : R t.span t'.span := by cases h <;> assumption

theorem children (h : Matches R t t') : List.Forall₂ (Matches R) t.children t'.children := by
  cases h with
  | program _ hbody => exact hbody
  | expressionStatement _ he => exact .cons he .nil
  | ifStatement _ htest hconsequent halternate =>
    cases halternate with
    | none => exact .cons htest (.cons hconsequent .nil)
    | some h => exact .cons htest (.cons hconsequent (.cons h .nil))
  | conditional _ htest hconsequent halternate =>
    exact .cons htest (.cons hconsequent (.cons halternate .nil))
  | member _ hobject hproperty => exact .cons hobject (.cons hproperty .nil)
  | call _ hcallee harguments => exact .cons hcallee harguments
  | identifier => exact .nil
  | other _ hchildren => exact hchildren

theorem kindWith (h : Matches R t t') (ids : List NodeId) : t.kindWith ids = t'.kindWith ids := by
  rcases ids with _ | ⟨i, _ | ⟨j, _ | ⟨k, _ | ⟨l, rest⟩⟩⟩⟩ <;> cases h <;> rfl

end Tree.Matches

structure Node.Matches (R : Span → Span → Prop) (n n' : Node) : Prop where
  kind : n.kind = n'.kind
  span : R n.span n'.span
  parent : n.parent = n'.parent

/-- The same number of nodes, which match under each number. -/
structure NodesMatch (R : Span → Span → Prop) (nodes nodes' : Array Node) : Prop where
  size : nodes.size = nodes'.size
  node : ∀ i : Nat, Option.Rel (Node.Matches R) nodes[i]? nodes'[i]?

namespace NodesMatch

variable {b b' : Builder}

theorem openNode (h : NodesMatch R b.nodes b'.nodes) {s s' : Span} (hspan : R s s')
    (parent : Option NodeId) :
    NodesMatch R (b.openNode s parent).nodes (b'.openNode s' parent).nodes where
  size := by simp [Builder.openNode, h.size]
  node i := by
    simp only [Builder.openNode, Array.getElem?_push, h.size]
    split
    · exact .some ⟨rfl, hspan, rfl⟩
    · exact h.node i

theorem closeNode (h : NodesMatch R b.nodes b'.nodes) (id : NodeId) (kind : NodeKind) :
    NodesMatch R (b.closeNode id kind).nodes (b'.closeNode id kind).nodes where
  size := by simp [Builder.closeNode, h.size]
  node i := by
    rw [Builder.getElem?_closeNode, Builder.getElem?_closeNode]
    split
    · have hnode := h.node i
      generalize b.nodes[i]? = x, b'.nodes[i]? = y at hnode ⊢
      cases hnode with
      | none => exact .none
      | some hnode => exact .some ⟨rfl, hnode.span, hnode.parent⟩
    · exact h.node i

end NodesMatch

namespace Tree

/-- Behind matching nodes the two trees are laid out alike. -/
def LayOutMatches (R : Span → Span → Prop) (t t' : Tree) : Prop :=
  ∀ (parent : Option NodeId) (b b' : Builder), NodesMatch R b.nodes b'.nodes →
    (layOut parent b t).1 = (layOut parent b' t').1 ∧
      NodesMatch R (layOut parent b t).2.nodes (layOut parent b' t').2.nodes

theorem layOutAll_matches {ts ts' : List Tree} (h : List.Forall₂ (LayOutMatches R) ts ts') (p : NodeId)
    {b b' : Builder} (hb : NodesMatch R b.nodes b'.nodes) :
    (layOutAll p b ts).1 = (layOutAll p b' ts').1 ∧
      NodesMatch R (layOutAll p b ts).2.nodes (layOutAll p b' ts').2.nodes := by
  induction h generalizing b b' with
  | nil => exact ⟨rfl, hb⟩
  | cons hfirst _ ih =>
    obtain ⟨hid, hnodes⟩ := hfirst (some p) b b' hb
    obtain ⟨hids, hnodes⟩ := ih hnodes
    exact ⟨congrArg₂ List.cons hid hids, hnodes⟩

theorem Matches.layOut {t t' : Tree} (h : Matches R t t') : LayOutMatches R t t' := by
  induction t using child_induction generalizing t' with
  | step t ih =>
    intro parent b b' hb
    have hchildren : List.Forall₂ (LayOutMatches R) t.children t'.children :=
      ((List.forall₂_and_left _ _).mpr ⟨ih, h.children⟩).imp fun _ _ ⟨hlaid, hmatch⟩ => hlaid hmatch
    obtain ⟨hids, hnodes⟩ := layOutAll_matches hchildren b.nodes.size (hb.openNode h.span parent)
    rw [layOut_eq, layOut_eq, ← hb.size, ← hids, ← h.kindWith]
    exact ⟨rfl, hnodes.closeNode _ _⟩

end Tree

namespace Arena

/-- The same root and matching nodes. The tokens are not compared. -/
structure Matches (R : Span → Span → Prop) (a b : Arena) : Prop where
  root : a.root = b.root
  size : a.size = b.size
  node? : ∀ i, Option.Rel (Node.Matches R) (a.node? i) (b.node? i)

theorem Matches.node?_cases {a b : Arena} (h : Matches R a b) (i : NodeId) :
    (a.node? i = none ∧ b.node? i = none) ∨
      ∃ n n', a.node? i = some n ∧ b.node? i = some n' ∧ n.Matches R n' := by
  have hnode := h.node? i
  generalize a.node? i = x, b.node? i = y at hnode
  cases hnode with
  | none => exact Or.inl ⟨rfl, rfl⟩
  | some hnode => exact Or.inr ⟨_, _, rfl, rfl, hnode⟩

theorem Matches.sameShape {a b : Arena} (h : Matches R a b) : SameShape a b where
  size := h.size
  kind? i := by
    rw [kind?, kind?]
    obtain ⟨hnone, hnone'⟩ | ⟨n, n', hn, hn', hnode⟩ := h.node?_cases i
    · rw [hnone, hnone']
    · rw [hn, hn', Option.map_some, Option.map_some, hnode.kind]
  parent? i := by
    rw [parent?, parent?]
    obtain ⟨hnone, hnone'⟩ | ⟨n, n', hn, hn', hnode⟩ := h.node?_cases i
    · rw [hnone, hnone']
    · rw [hn, hn', Option.bind_some, Option.bind_some, hnode.parent]

/-- Where spans match only if they are equal, so do nodes. -/
theorem Matches.node?_eq {a b : Arena} (h : Matches Eq a b) (i : NodeId) : a.node? i = b.node? i := by
  obtain ⟨hnone, hnone'⟩ | ⟨n, n', hn, hn', hkind, hspan, hparent⟩ := h.node?_cases i
  · rw [hnone, hnone']
  · rw [hn, hn']
    cases n
    cases n'
    subst hkind hspan hparent
    rfl

end Arena

theorem Tree.Matches.toArena {t t' : Tree} (h : Matches R t t') (tokens tokens' : List Token) :
    Arena.Matches R (t.toArena tokens) (t'.toArena tokens') := by
  obtain ⟨hroot, hnodes⟩ := h.layOut none .empty .empty ⟨rfl, fun _ => .none⟩
  simp only [Tree.toArena, foldl_pushToken]
  exact ⟨hroot, hnodes.size, hnodes.node⟩

end CallChain.Syntax
