import Mathlib
import CallChain.Syntax.Tree

/-!
# The arena of a tree

`HoldsAt` says how a tree stands in a table of nodes: its root, right behind it the trees of its children
from left to right, and nothing else up to where it stops. The layout of a tree stands so behind the
nodes that were there before. From this alone follows what is asked of a finished arena: children come
behind their parents, each node but the root is listed by its parent and once, and what is below a node
stands directly behind it.
-/
namespace CallChain.Syntax

namespace Tree

def children : Tree → List Tree
  | program _ body => body
  | expressionStatement _ e => [e]
  | ifStatement _ test consequent alternate => test :: consequent :: alternate.toList
  | conditional _ test consequent alternate => [test, consequent, alternate]
  | member _ object property _ _ => [object, property]
  | call _ callee arguments _ => callee :: arguments
  | identifier _ _ => []
  | other _ _ cs => cs

/-- The kind of the root's node, once its children have numbers. There have to be as many of these as
there are children. -/
def kindWith : Tree → List NodeId → NodeKind
  | program _ _, ids => .program ids
  | expressionStatement _ _, [e] => .expressionStatement e
  | ifStatement _ _ _ _, test :: consequent :: rest => .ifStatement test consequent rest.head?
  | conditional _ _ _ _, [test, consequent, alternate] => .conditional test consequent alternate
  | member _ _ _ computed optional, [object, property] => .member object property computed optional
  | call _ _ _ optional, callee :: arguments => .call callee arguments optional
  | identifier _ name, _ => .identifier name
  | other _ kind _, ids => .other kind ids
  | _, ids => .other "" ids

theorem children_kindWith {t : Tree} {ids : List NodeId} (h : ids.length = t.children.length) :
    (t.kindWith ids).children = ids := by
  cases t with
  | program | other => rfl
  | identifier => exact (List.length_eq_zero_iff.mp h).symm
  | expressionStatement =>
    obtain ⟨e, rfl⟩ := List.length_eq_one_iff.mp h
    rfl
  | conditional =>
    obtain ⟨test, consequent, alternate, rfl⟩ := List.length_eq_three.mp h
    rfl
  | member =>
    obtain ⟨object, property, rfl⟩ := List.length_eq_two.mp h
    rfl
  | call =>
    obtain ⟨callee, arguments, rfl⟩ := List.exists_cons_of_length_eq_add_one h
    rfl
  | ifStatement _ _ _ alternate =>
    obtain ⟨test, ids, rfl⟩ := List.exists_cons_of_length_eq_add_one h
    obtain ⟨consequent, rest, rfl⟩ := List.exists_cons_of_length_eq_add_one (Nat.succ.inj h)
    have hrest : rest.length = alternate.toList.length := by simpa [children] using h
    cases alternate with
    | none => rw [List.length_eq_zero_iff.mp hrest]; rfl
    | some _ =>
      obtain ⟨id, rfl⟩ := List.length_eq_one_iff.mp hrest
      rfl

theorem sizeOf_lt_of_mem_children {c t : Tree} (h : c ∈ t.children) : sizeOf c < sizeOf t := by
  cases t with
  | program _ cs | other _ _ cs =>
    have hlt : sizeOf c < sizeOf cs := List.sizeOf_lt_of_mem h
    simp only [program.sizeOf_spec, other.sizeOf_spec]
    omega
  | call _ callee arguments _ =>
    rcases List.mem_cons.mp h with rfl | h
    · simp only [call.sizeOf_spec]
      omega
    · have hlt := List.sizeOf_lt_of_mem h
      simp only [call.sizeOf_spec]
      omega
  | ifStatement _ test consequent alternate =>
    cases alternate with
    | none =>
      simp only [children, Option.toList, List.mem_cons, List.not_mem_nil, or_false] at h
      rcases h with rfl | rfl <;> simp only [ifStatement.sizeOf_spec] <;> omega
    | some last =>
      simp only [children, Option.toList, List.mem_cons, List.not_mem_nil, or_false] at h
      rcases h with rfl | rfl | rfl <;>
        simp only [ifStatement.sizeOf_spec, Option.some.sizeOf_spec] <;> omega
  | identifier => cases h
  | expressionStatement | conditional | member =>
    simp only [children, List.mem_cons, List.not_mem_nil, or_false] at h
    rcases h with rfl | rfl | rfl <;>
      simp only [expressionStatement.sizeOf_spec, conditional.sizeOf_spec, member.sizeOf_spec] <;> omega

/-- What holds of a tree as soon as it holds of its children holds of all trees. -/
theorem child_induction {motive : Tree → Prop}
    (step : ∀ t : Tree, (∀ c ∈ t.children, motive c) → motive t) (t : Tree) : motive t :=
  step t fun c _ => child_induction step c
  termination_by sizeOf t
  decreasing_by exact sizeOf_lt_of_mem_children (by assumption)

/-- All trees are laid out in one way: the root is opened, its children are laid out, and it is closed
with their numbers. -/
theorem layOut_eq (parent : Option NodeId) (b : Builder) (t : Tree) :
    layOut parent b t =
      (b.nodes.size,
        (layOutAll b.nodes.size (b.openNode t.span parent) t.children).2.closeNode b.nodes.size
          (t.kindWith (layOutAll b.nodes.size (b.openNode t.span parent) t.children).1)) := by
  cases t with
  | ifStatement _ _ _ alternate =>
    cases alternate <;> simp [layOut, layOutAll, layOutOption, children, span, kindWith]
  | _ => simp [layOut, layOutAll, children, span, kindWith]

end Tree

mutual

/-- The nodes from `i` up to `stop` are those of a tree. -/
inductive HoldsAt (nodes : Array Node) : Option Nat → Nat → Tree → Nat → Prop
  | root {parent : Option Nat} {i stop : Nat} {t : Tree} {ids : List Nat}
      (hnode : nodes[i]? = some ⟨t.kindWith ids, t.span, parent⟩)
      (hbelow : HoldsAll nodes i (i + 1) t.children ids stop) : HoldsAt nodes parent i t stop

/-- The nodes from `i` up to `stop` are those of trees with one parent, whose roots have the numbers
`ids`. -/
inductive HoldsAll (nodes : Array Node) : Nat → Nat → List Tree → List Nat → Nat → Prop
  | nil {parent i : Nat} : HoldsAll nodes parent i [] [] i
  | cons {parent i mid stop : Nat} {t : Tree} {ts : List Tree} {ids : List Nat}
      (hfirst : HoldsAt nodes (some parent) i t mid) (hrest : HoldsAll nodes parent mid ts ids stop) :
      HoldsAll nodes parent i (t :: ts) (i :: ids) stop

end

mutual

theorem HoldsAt.lt {nodes : Array Node} {parent : Option Nat} {i stop : Nat} {t : Tree} :
    HoldsAt nodes parent i t stop → i < stop
  | .root _ hbelow => Nat.lt_of_succ_le (HoldsAll.le hbelow)

theorem HoldsAll.le {nodes : Array Node} {p i stop : Nat} {ts : List Tree} {ids : List Nat} :
    HoldsAll nodes p i ts ids stop → i ≤ stop
  | .nil => Nat.le_refl _
  | .cons hfirst hrest => (HoldsAt.lt hfirst).le.trans (HoldsAll.le hrest)

end

mutual

/-- Where a tree stands depends on the nodes between its ends alone. -/
theorem HoldsAt.congr {nodes nodes' : Array Node} {parent : Option Nat} {i stop : Nat} {t : Tree} :
    HoldsAt nodes parent i t stop → (∀ j, i ≤ j → j < stop → nodes'[j]? = nodes[j]?) →
      HoldsAt nodes' parent i t stop
  | .root hnode hbelow, hsame => by
    have hle := hbelow.le
    refine .root ((hsame i (Nat.le_refl i) (by omega)).trans hnode) (HoldsAll.congr hbelow ?_)
    intro j hij hj
    exact hsame j (by omega) hj

theorem HoldsAll.congr {nodes nodes' : Array Node} {p i stop : Nat} {ts : List Tree} {ids : List Nat} :
    HoldsAll nodes p i ts ids stop → (∀ j, i ≤ j → j < stop → nodes'[j]? = nodes[j]?) →
      HoldsAll nodes' p i ts ids stop
  | .nil, _ => .nil
  | .cons hfirst hrest, hsame => by
    have hlt := hfirst.lt
    have hle := hrest.le
    refine .cons (HoldsAt.congr hfirst fun j hij hj => hsame j hij (by omega))
      (HoldsAll.congr hrest fun j hij hj => ?_)
    exact hsame j (by omega) hj

end

namespace Builder

/-- Nodes were added, and nothing else has changed. -/
structure Extends (b b' : Builder) : Prop where
  tokens : b'.tokens = b.tokens
  size : b.nodes.size ≤ b'.nodes.size
  kept : ∀ j, j < b.nodes.size → b'.nodes[j]? = b.nodes[j]?

theorem Extends.refl (b : Builder) : Extends b b := ⟨rfl, Nat.le_refl _, fun _ _ => rfl⟩

theorem Extends.trans {b b' b'' : Builder} (h : Extends b b') (h' : Extends b' b'') :
    Extends b b'' where
  tokens := h'.tokens.trans h.tokens
  size := h.size.trans h'.size
  kept j hj := (h'.kept j (Nat.lt_of_lt_of_le hj h.size)).trans (h.kept j hj)

theorem extends_openNode (b : Builder) (span : Span) (parent : Option NodeId) :
    Extends b (b.openNode span parent) where
  tokens := rfl
  size := by simp [openNode]
  kept j hj := by simp [openNode, Array.getElem?_push, Nat.ne_of_lt hj]

theorem getElem?_closeNode (b : Builder) (id : Nat) (kind : NodeKind) (j : Nat) :
    (b.closeNode id kind).nodes[j]? =
      if id = j then b.nodes[j]?.map fun node => { node with kind } else b.nodes[j]? := by
  rw [closeNode, Array.getElem?_modify]

end Builder

namespace Tree

/-- The tree stands behind the nodes that were there. -/
def LaidOut (t : Tree) : Prop := ∀ parent b,
  b.Extends (layOut parent b t).2 ∧
    HoldsAt (layOut parent b t).2.nodes parent b.nodes.size t (layOut parent b t).2.nodes.size

theorem layOutAll_spec {ts : List Tree} (h : ∀ t ∈ ts, t.LaidOut) (p : NodeId) (b : Builder) :
    b.Extends (layOutAll p b ts).2 ∧
      HoldsAll (layOutAll p b ts).2.nodes p b.nodes.size ts (layOutAll p b ts).1
        (layOutAll p b ts).2.nodes.size := by
  induction ts generalizing b with
  | nil => exact ⟨.refl b, .nil⟩
  | cons t ts ih =>
    obtain ⟨hfirst, hholds⟩ := h t List.mem_cons_self (some p) b
    obtain ⟨hrest, hall⟩ := ih (fun t ht => h t (List.mem_cons_of_mem _ ht)) (layOut (some p) b t).2
    have hid : (layOut (some p) b t).1 = b.nodes.size := by rw [layOut_eq]
    refine ⟨hfirst.trans hrest, ?_⟩
    simp only [layOutAll, hid]
    exact .cons (hholds.congr fun j _ hj => hrest.kept j hj) hall

theorem laidOut (t : Tree) : t.LaidOut := by
  induction t using child_induction with
  | step t ih =>
    intro parent b
    let opened := b.openNode t.span parent
    obtain ⟨hextends, hall⟩ := layOutAll_spec ih b.nodes.size opened
    rw [layOut_eq]
    set laid := layOutAll b.nodes.size opened t.children with hlaid
    have hsize : opened.nodes.size = b.nodes.size + 1 := by simp [opened, Builder.openNode]
    have hroot : laid.2.nodes[b.nodes.size]? = some ⟨Builder.placeholder, t.span, parent⟩ := by
      rw [hextends.kept _ (by omega)]
      simp [opened, Builder.openNode]
    have hclosed : (laid.2.closeNode b.nodes.size (t.kindWith laid.1)).nodes.size =
        laid.2.nodes.size := by simp [Builder.closeNode]
    have hopen := b.extends_openNode t.span parent
    refine ⟨⟨hextends.tokens.trans hopen.tokens, ?_, fun j hj => ?_⟩, ?_⟩
    · have hgrown := hextends.size
      rw [hclosed]
      omega
    · rw [Builder.getElem?_closeNode, if_neg (by omega), hextends.kept j (by omega)]
      exact hopen.kept j hj
    · have hbelow := hall.congr fun j hj _ => by
        rw [Builder.getElem?_closeNode laid.2 b.nodes.size (t.kindWith laid.1), if_neg (by omega)]
      rw [hsize] at hbelow
      rw [hclosed]
      refine .root ?_ hbelow
      rw [Builder.getElem?_closeNode, if_pos rfl, hroot]
      rfl

/-- A tree stands inside another. -/
def Within : Tree → Tree → Prop := Relation.ReflTransGen fun s t => s ∈ t.children

end Tree

/-- A node stores the number of another as that of a child. -/
def Lists (nodes : Array Node) (i c : Nat) : Prop :=
  ∃ node, nodes[i]? = some node ∧ c ∈ node.kind.children

theorem HoldsAll.length_eq {nodes : Array Node} {p i stop : Nat} {ts : List Tree} {ids : List Nat} :
    HoldsAll nodes p i ts ids stop → ids.length = ts.length
  | .nil => rfl
  | .cons _ hrest => congrArg (· + 1) (HoldsAll.length_eq hrest)

/-- The children come one behind the other, each with its own number. -/
theorem HoldsAll.mem {nodes : Array Node} {p i stop : Nat} {ts : List Tree} {ids : List Nat} :
    HoldsAll nodes p i ts ids stop → ids.Pairwise (· < ·) ∧ ∀ c ∈ ids, i ≤ c ∧ c < stop ∧
      ∃ t ∈ ts, ∃ last ≤ stop, HoldsAt nodes (some p) c t last
  | .nil => ⟨.nil, fun _ hc => absurd hc List.not_mem_nil⟩
  | .cons hfirst hrest => by
    obtain ⟨hpairwise, hmem⟩ := HoldsAll.mem hrest
    have hlt := hfirst.lt
    have hle := hrest.le
    refine ⟨List.pairwise_cons.mpr ⟨fun c hc => ?_, hpairwise⟩, fun c hc => ?_⟩
    · have hc := (hmem c hc).1
      omega
    · rcases List.mem_cons.mp hc with rfl | hc
      · exact ⟨Nat.le_refl _, by omega, _, List.mem_cons_self, _, hle, hfirst⟩
      · obtain ⟨hic, hcs, t, ht, last, hlast, hholds⟩ := hmem c hc
        exact ⟨by omega, hcs, t, List.mem_cons_of_mem _ ht, last, hlast, hholds⟩

theorem HoldsAt.child {nodes : Array Node} {parent : Option Nat} {i c stop : Nat} {t : Tree}
    (h : HoldsAt nodes parent i t stop) (hc : Lists nodes i c) :
    i < c ∧ c < stop ∧ ∃ t' ∈ t.children, ∃ last ≤ stop, HoldsAt nodes (some i) c t' last := by
  cases h with
  | root hnode hbelow =>
    obtain ⟨node, hnode', hc⟩ := hc
    cases hnode.symm.trans hnode'
    rw [Tree.children_kindWith hbelow.length_eq] at hc
    obtain ⟨hic, hcs, hchild⟩ := hbelow.mem.2 c hc
    exact ⟨by omega, hcs, hchild⟩

theorem HoldsAt.nodup {nodes : Array Node} {parent : Option Nat} {i stop : Nat} {t : Tree}
    (h : HoldsAt nodes parent i t stop) :
    ∃ node, nodes[i]? = some node ∧ node.parent = parent ∧ node.kind.children.Nodup := by
  cases h with
  | root hnode hbelow =>
    refine ⟨_, hnode, rfl, ?_⟩
    rw [Tree.children_kindWith hbelow.length_eq]
    exact hbelow.mem.1.imp Nat.ne_of_lt

mutual

/-- Every number in between is that of a tree inside, which the node before it lists that it has for its
parent. -/
theorem HoldsAt.at {nodes : Array Node} {parent : Option Nat} {i j stop : Nat} {t : Tree} :
    HoldsAt nodes parent i t stop → i ≤ j → j < stop →
      ∃ parent' t' last, HoldsAt nodes parent' j t' last ∧ last ≤ stop ∧ t'.Within t ∧
        (j = i ∧ parent' = parent ∨ ∃ q, i ≤ q ∧ q < j ∧ parent' = some q ∧ Lists nodes q j)
  | .root hnode hbelow, hij, hj => by
    rcases Nat.eq_or_lt_of_le hij with rfl | hlt
    · exact ⟨_, _, _, .root hnode hbelow, Nat.le_refl _, .refl, Or.inl ⟨rfl, rfl⟩⟩
    · obtain ⟨parent', t', last, hholds, hlast, ⟨s, hs, hwithin⟩, hparent⟩ :=
        HoldsAll.at hbelow hlt hj
      refine ⟨parent', t', last, hholds, hlast, hwithin.tail hs, Or.inr ?_⟩
      rcases hparent with ⟨rfl, hmem⟩ | ⟨q, hq, hqj, hparent, hlists⟩
      · refine ⟨i, Nat.le_refl i, hlt, rfl, _, hnode, ?_⟩
        rwa [Tree.children_kindWith hbelow.length_eq]
      · exact ⟨q, by omega, hqj, hparent, hlists⟩

theorem HoldsAll.at {nodes : Array Node} {p i j stop : Nat} {ts : List Tree} {ids : List Nat} :
    HoldsAll nodes p i ts ids stop → i ≤ j → j < stop →
      ∃ parent' t' last, HoldsAt nodes parent' j t' last ∧ last ≤ stop ∧
        (∃ t ∈ ts, t'.Within t) ∧
        (parent' = some p ∧ j ∈ ids ∨ ∃ q, i ≤ q ∧ q < j ∧ parent' = some q ∧ Lists nodes q j)
  | .nil, hij, hj => by omega
  | @HoldsAll.cons _ _ _ mid _ _ _ _ hfirst hrest, hij, hj => by
    have hle := hrest.le
    by_cases hmid : j < mid
    · obtain ⟨parent', t', last, hholds, hlast, hwithin, hparent⟩ := HoldsAt.at hfirst hij hmid
      refine ⟨parent', t', last, hholds, by omega, ⟨_, List.mem_cons_self, hwithin⟩, ?_⟩
      rcases hparent with ⟨rfl, rfl⟩ | hparent
      · exact Or.inl ⟨rfl, List.mem_cons_self⟩
      · exact Or.inr hparent
    · obtain ⟨parent', t', last, hholds, hlast, ⟨t, ht, hwithin⟩, hparent⟩ :=
        HoldsAll.at hrest (Nat.le_of_not_lt hmid) hj
      refine ⟨parent', t', last, hholds, hlast, ⟨t, List.mem_cons_of_mem _ ht, hwithin⟩, ?_⟩
      rcases hparent with ⟨rfl, hmem⟩ | ⟨q, hq, hqj, hparent, hlists⟩
      · exact Or.inl ⟨rfl, List.mem_cons_of_mem _ hmem⟩
      · have hlt := hfirst.lt
        exact Or.inr ⟨q, by omega, hqj, hparent, hlists⟩

end

/-- What is below a node stands directly behind it. -/
theorem HoldsAt.below_iff {nodes : Array Node} {parent : Option Nat} {i stop : Nat} {t : Tree}
    (h : HoldsAt nodes parent i t stop) (j : Nat) :
    Relation.TransGen (Lists nodes) i j ↔ i < j ∧ j < stop := by
  constructor
  · intro hbelow
    induction hbelow with
    | single hlists =>
      obtain ⟨hlt, hstop, -⟩ := h.child hlists
      exact ⟨hlt, hstop⟩
    | tail _ hlists ih =>
      obtain ⟨parent', t', last, hholds, hlast, -⟩ := h.at ih.1.le ih.2
      obtain ⟨hlt, hstop, -⟩ := hholds.child hlists
      omega
  · rintro ⟨hij, hj⟩
    -- the node that lists `j` has a smaller number, so that the way up from `j` ends at `i`
    induction j using Nat.strong_induction_on with
    | h j ih =>
      obtain ⟨parent', t', last, -, -, -, hparent⟩ := h.at hij.le hj
      rcases hparent with ⟨rfl, -⟩ | ⟨q, hiq, hqj, -, hlists⟩
      · omega
      · rcases Nat.eq_or_lt_of_le hiq with rfl | hiq
        · exact .single hlists
        · exact .tail (ih q hqj hiq (by omega)) hlists

namespace Arena

/-- The arena is made of one tree, whose root is the first of its nodes. -/
structure IsOf (a : Arena) (t : Tree) : Prop where
  root : a.root = 0
  holds : HoldsAt a.nodes none 0 t a.size

/-- Nodes are numbered from the root down and from left to right. -/
structure Preorder (a : Arena) : Prop where
  root : a.root = 0 ∧ 0 < a.size
  /-- Only the root has no parent. -/
  parentless : ∀ {i : Nat}, i < a.size → (a.parent? i = none ↔ i = 0)
  child : ∀ {i c : Nat}, Lists a.nodes i c → i < c ∧ c < a.size ∧ a.parent? c = some i
  /-- Every other node is listed once, by one node. -/
  listed : ∀ {c : Nat}, 0 < c → c < a.size → ∃ i k, a.kind? i = some k ∧ k.children.count c = 1 ∧
    ∀ j, Lists a.nodes j c → j = i
  /-- All that is below a node stands right behind it. -/
  below : ∀ {i : Nat}, i < a.size → ∃ stop ≤ a.size, i < stop ∧
    ∀ j, Relation.TransGen (Lists a.nodes) i j ↔ i < j ∧ j < stop

section Node

variable {a : Arena} {i : Nat} {node : Node} (h : a.nodes[i]? = some node)
include h

theorem kind?_of_getElem? : a.kind? i = some node.kind := by
  rw [kind?, node?, h]
  rfl

theorem span_of_getElem? : a.span i = node.span := by
  rw [span, node?, h]
  rfl

theorem parent?_of_getElem? : a.parent? i = node.parent := by
  rw [parent?, node?, h]
  rfl

end Node

theorem parent?_of_holdsAt {a : Arena} {parent : Option Nat} {i stop : Nat} {t : Tree}
    (h : HoldsAt a.nodes parent i t stop) : a.parent? i = parent := by
  obtain ⟨node, hnode, hparent, -⟩ := h.nodup
  rw [parent?_of_getElem? hnode, hparent]

theorem lt_size_of_lists {a : Arena} {i c : Nat} (h : Lists a.nodes i c) : i < a.size := by
  obtain ⟨node, hnode, -⟩ := h
  exact (Array.getElem?_eq_some_iff.mp hnode).1

theorem IsOf.child {a : Arena} {t : Tree} (h : a.IsOf t) {i c : Nat} (hc : Lists a.nodes i c) :
    i < c ∧ c < a.size ∧ a.parent? c = some i := by
  obtain ⟨parent, t', stop, hi, hstop, -⟩ := h.holds.at i.zero_le (lt_size_of_lists hc)
  obtain ⟨hlt, hlast, s, -, last, -, hholds⟩ := hi.child hc
  exact ⟨hlt, by omega, parent?_of_holdsAt hholds⟩

theorem IsOf.listed {a : Arena} {t : Tree} (h : a.IsOf t) {c : Nat} (hpos : 0 < c) (hc : c < a.size) :
    ∃ i k, a.kind? i = some k ∧ k.children.count c = 1 ∧ ∀ j, Lists a.nodes j c → j = i := by
  obtain ⟨parent, -, -, -, -, -, hroot | ⟨i, -, -, -, hlists⟩⟩ := h.holds.at c.zero_le hc
  · omega
  · obtain ⟨_, _, _, hi, -⟩ := h.holds.at i.zero_le (lt_size_of_lists hlists)
    obtain ⟨node, hnode, -, hnodup⟩ := hi.nodup
    have hcount : node.kind.children.count c = 1 := by
      obtain ⟨node', hnode', hmem⟩ := hlists
      cases hnode.symm.trans hnode'
      exact List.count_eq_one_of_mem hnodup hmem
    refine ⟨i, node.kind, kind?_of_getElem? hnode, hcount, fun j hj => ?_⟩
    have hparent := (h.child hlists).2.2
    exact Option.some.inj ((h.child hj).2.2.symm.trans hparent)

theorem IsOf.preorder {a : Arena} {t : Tree} (h : a.IsOf t) : a.Preorder where
  root := ⟨h.root, h.holds.lt⟩
  parentless {i} hi := by
    obtain ⟨parent, _, _, hholds, -, -, hparent⟩ := h.holds.at i.zero_le hi
    rw [parent?_of_holdsAt hholds]
    rcases hparent with ⟨rfl, rfl⟩ | ⟨q, -, hqi, rfl, -⟩
    · simp
    · simp only [reduceCtorEq, false_iff]
      omega
  child := h.child
  listed := h.listed
  below {i} hi := by
    obtain ⟨_, _, stop, hholds, hstop, -⟩ := h.holds.at i.zero_le hi
    exact ⟨stop, hstop, hholds.lt, hholds.below_iff⟩

end Arena

namespace Tree

theorem foldl_pushToken (tokens : List Token) (b : Builder) :
    tokens.foldl Builder.pushToken b = ⟨b.nodes, b.tokens ++ tokens.toArray⟩ := by
  induction tokens generalizing b with
  | nil => simp
  | cons t tokens ih => simp [ih, Builder.pushToken]

theorem toArena_isOf (t : Tree) (tokens : List Token) : (t.toArena tokens).IsOf t := by
  obtain ⟨-, hholds⟩ := t.laidOut none .empty
  simp only [toArena, foldl_pushToken]
  exact ⟨by rw [layOut_eq]; rfl, hholds⟩

theorem tokens_toArena (t : Tree) (tokens : List Token) :
    (t.toArena tokens).tokens.toList =
      tokens.mergeSort fun s t => s.span.start ≤ t.span.start := by
  have hempty : (layOut none .empty t).2.tokens = #[] := (t.laidOut none .empty).1.tokens
  simp only [toArena, foldl_pushToken, Builder.finish, hempty]
  simp

end Tree

end CallChain.Syntax
