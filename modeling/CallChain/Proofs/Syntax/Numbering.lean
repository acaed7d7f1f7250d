import CallChain.Proofs.Syntax.Layout

/-!
# The numbers of the trees

The numbers of an arena go one by one with the trees inside the tree that it is made of, in preorder. So do
those of its member accesses and calls with the trees that are accesses and calls.
-/
namespace CallChain.Syntax

namespace Tree

/-- The trees inside a tree, each before those inside it and these before those to its right. -/
def preorder (t : Tree) : List Tree := t :: t.children.attach.flatMap fun c => preorder c.1
  termination_by sizeOf t
  decreasing_by exact sizeOf_lt_of_mem_children c.2

theorem preorder_eq (t : Tree) : t.preorder = t :: t.children.flatMap preorder := by
  rw [preorder, List.flatMap_subtype, List.unattach_attach]
  exact fun _ _ => rfl

def isMember : Tree → Bool
  | member .. => true
  | _ => false

def isCall : Tree → Bool
  | call .. => true
  | _ => false

theorem tests_kindWith {t : Tree} {ids : List NodeId} (h : ids.length = t.children.length) :
    (t.kindWith ids).isMember = t.isMember ∧ (t.kindWith ids).isCall = t.isCall := by
  cases t with
  | program | identifier | other => exact ⟨rfl, rfl⟩
  | expressionStatement =>
    obtain ⟨e, rfl⟩ := List.length_eq_one_iff.mp h
    exact ⟨rfl, rfl⟩
  | conditional =>
    obtain ⟨test, consequent, alternate, rfl⟩ := List.length_eq_three.mp h
    exact ⟨rfl, rfl⟩
  | member =>
    obtain ⟨object, property, rfl⟩ := List.length_eq_two.mp h
    exact ⟨rfl, rfl⟩
  | call =>
    obtain ⟨callee, arguments, rfl⟩ := List.exists_cons_of_length_eq_add_one h
    exact ⟨rfl, rfl⟩
  | ifStatement =>
    obtain ⟨test, ids, rfl⟩ := List.exists_cons_of_length_eq_add_one h
    obtain ⟨consequent, rest, rfl⟩ := List.exists_cons_of_length_eq_add_one (Nat.succ.inj h)
    exact ⟨rfl, rfl⟩

end Tree

namespace Arena

/-- The tree stands under a number. -/
def Shows (a : Arena) (i : NodeId) (t : Tree) : Prop :=
  ∃ parent stop, HoldsAt a.nodes parent i t stop

/-- All calls, in ascending order. -/
def calls (a : Arena) : List NodeId :=
  (List.range a.size).filter fun id => ((a.kind? id).map (·.isCall)).getD false

end Arena

theorem HoldsAll.shows {a : Arena} {p i stop : Nat} {ts : List Tree} {ids : List Nat} :
    HoldsAll a.nodes p i ts ids stop → List.Forall₂ a.Shows ids ts
  | .nil => .nil
  | .cons hfirst hrest => .cons ⟨_, _, hfirst⟩ hrest.shows

mutual

theorem HoldsAt.preorder {a : Arena} {parent : Option Nat} {i stop : Nat} {t : Tree} :
    HoldsAt a.nodes parent i t stop → List.Forall₂ a.Shows (List.range' i (stop - i)) t.preorder
  | .root hnode hbelow => by
    have hle := hbelow.le
    have hsucc : stop - i = (stop - (i + 1)) + 1 := by omega
    rw [hsucc, List.range'_succ, Tree.preorder_eq]
    exact .cons ⟨_, _, .root hnode hbelow⟩ (HoldsAll.preorder hbelow)

theorem HoldsAll.preorder {a : Arena} {p i stop : Nat} {ts : List Tree} {ids : List Nat} :
    HoldsAll a.nodes p i ts ids stop →
      List.Forall₂ a.Shows (List.range' i (stop - i)) (ts.flatMap Tree.preorder)
  | .nil => by simp
  | @HoldsAll.cons _ _ _ mid _ _ _ _ hfirst hrest => by
    have hlt := hfirst.lt
    have hle := hrest.le
    have hsplit : List.range' i (stop - i) =
        List.range' i (mid - i) ++ List.range' mid (stop - mid) := by
      have hmid : i + (mid - i) = mid := by omega
      have hsum : stop - i = (mid - i) + (stop - mid) := by omega
      rw [hsum, ← List.range'_append_1, hmid]
    rw [hsplit, List.flatMap_cons]
    exact List.rel_append (HoldsAt.preorder hfirst) (HoldsAll.preorder hrest)

end

namespace Arena

variable {a : Arena} {i : Nat} {t : Tree}

theorem IsOf.forall₂_preorder (h : a.IsOf t) :
    List.Forall₂ a.Shows (List.range a.size) t.preorder := by
  rw [List.range_eq_range']
  exact h.holds.preorder

/-- The node under the number of a tree: its kind, with the numbers of the children's trees. -/
theorem Shows.kind? (h : a.Shows i t) : a.span i = t.span ∧
    ∃ ids, a.kind? i = some (t.kindWith ids) ∧ List.Forall₂ a.Shows ids t.children := by
  obtain ⟨parent, stop, h⟩ := h
  cases h with
  | root hnode hbelow =>
    exact ⟨span_of_getElem? hnode, _, kind?_of_getElem? hnode, hbelow.shows⟩

/-- The numbers of some kind go one by one with the trees of this kind. -/
theorem IsOf.forall₂_filter (h : a.IsOf t) {p : NodeKind → Bool} {q : Tree → Bool}
    (hpq : ∀ (s : Tree) ids, ids.length = s.children.length → p (s.kindWith ids) = q s) :
    List.Forall₂ a.Shows ((List.range a.size).filter fun i => ((a.kind? i).map p).getD false)
      (t.preorder.filter q) := by
  refine List.rel_filter (fun i s hs => ?_) h.forall₂_preorder
  obtain ⟨-, ids, hkind, hids⟩ := hs.kind?
  simp only [hkind, Option.map_some, Option.getD_some, hpq s ids hids.length_eq]

theorem IsOf.forall₂_members (h : a.IsOf t) :
    List.Forall₂ a.Shows a.members (t.preorder.filter Tree.isMember) :=
  h.forall₂_filter fun _ _ hlength => (Tree.tests_kindWith hlength).1

theorem IsOf.forall₂_calls (h : a.IsOf t) :
    List.Forall₂ a.Shows a.calls (t.preorder.filter Tree.isCall) :=
  h.forall₂_filter fun _ _ hlength => (Tree.tests_kindWith hlength).2

end Arena

end CallChain.Syntax
