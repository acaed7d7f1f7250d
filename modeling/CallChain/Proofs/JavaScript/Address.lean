import Mathlib
import CallChain.JavaScript.Concrete

/-!
# Addresses in a concrete tree

The address of a node is the way down to it from the root, as the numbers of the children to go to. In the
lexicographic order of addresses a node comes before all that is inside it, and that before all that is to
its right. `exposed` lists the nodes that are not inside a comment in this order.
-/
namespace CallChain.JavaScript.Concrete

abbrev Address := List Nat

/-- The node at an address. -/
def at? : Address → Concrete → Option Concrete
  | [], c => some c
  | i :: p, c => (c.children[i]?).bind (at? p)

/-- The node stands at the address, and no node above it is a comment. -/
inductive Exposes : Concrete → Address → Concrete → Prop
  | here (c : Concrete) : Exposes c [] c
  | inside {l : Label} {cs : List Concrete} {i : Nat} {d s : Concrete} {p : Address}
      (hopen : l.extra = false) (hd : cs[i]? = some d) (h : Exposes d p s) :
      Exposes (node l cs) (i :: p) s

theorem Exposes.at?_eq {c s : Concrete} {p : Address} (h : c.Exposes p s) : c.at? p = some s := by
  induction h with
  | here c => rfl
  | inside _ hd _ ih => rw [at?, children, hd, Option.bind_some, ih]

mutual

/-- The nodes that are not inside a comment, with their addresses. -/
def exposed : Concrete → List (Address × Concrete)
  | node l cs => ([], node l cs) :: if l.extra then [] else exposedAll 0 cs

/-- The same for children, of which the first has the number `i`. -/
def exposedAll (i : Nat) : List Concrete → List (Address × Concrete)
  | [] => []
  | c :: cs => (exposed c).map (Prod.map (i :: ·) id) ++ exposedAll (i + 1) cs

end

mutual

theorem mem_exposed : ∀ {c s : Concrete} {p : Address}, (p, s) ∈ exposed c ↔ c.Exposes p s
  | node l cs, s, p => by
    rw [exposed, List.mem_cons, Prod.mk.injEq]
    constructor
    · rintro (⟨rfl, rfl⟩ | h)
      · exact .here _
      · split at h
        · cases h
        · next hopen =>
          obtain ⟨k, d, q, hd, rfl, hs⟩ := mem_exposedAll.mp h
          rw [Nat.zero_add]
          exact .inside (Bool.eq_false_iff.mpr hopen) hd hs
    · intro h
      cases h with
      | here => exact Or.inl ⟨rfl, rfl⟩
      | @inside _ _ i d _ q hopen hd hs =>
        rw [if_neg (Bool.eq_false_iff.mp hopen)]
        exact Or.inr (mem_exposedAll.mpr ⟨i, d, q, hd, by rw [Nat.zero_add], hs⟩)

theorem mem_exposedAll : ∀ {cs : List Concrete} {i : Nat} {s : Concrete} {p : Address},
    (p, s) ∈ exposedAll i cs ↔ ∃ k d q, cs[k]? = some d ∧ p = (i + k) :: q ∧ d.Exposes q s
  | [], i, s, p => by simp [exposedAll]
  | c :: cs, i, s, p => by
    rw [exposedAll, List.mem_append]
    constructor
    · rintro (h | h)
      · obtain ⟨⟨q, s'⟩, hq, heq⟩ := List.mem_map.mp h
        obtain ⟨rfl, rfl⟩ := Prod.mk.inj heq
        exact ⟨0, c, q, rfl, rfl, mem_exposed.mp hq⟩
      · obtain ⟨k, d, q, hd, rfl, hs⟩ := mem_exposedAll.mp h
        exact ⟨k + 1, d, q, hd, by rw [Nat.add_assoc, Nat.add_comm 1], hs⟩
    · rintro ⟨k, d, q, hd, rfl, hs⟩
      cases k with
      | zero =>
        obtain rfl := Option.some.inj hd
        exact Or.inl (List.mem_map.mpr ⟨(q, s), mem_exposed.mpr hs, rfl⟩)
      | succ k =>
        exact Or.inr (mem_exposedAll.mpr ⟨k, d, q, hd, by rw [Nat.add_assoc, Nat.add_comm 1], hs⟩)

end

mutual

/-- Nodes are listed in the order of their addresses. -/
theorem pairwise_exposed : ∀ c : Concrete, (exposed c).Pairwise fun e f => e.1 < f.1
  | node l cs => by
    rw [exposed]
    refine List.pairwise_cons.mpr ⟨fun ⟨p, s⟩ h => ?_, ?_⟩
    · split at h
      · cases h
      · obtain ⟨k, d, q, -, rfl, -⟩ := mem_exposedAll.mp h
        exact List.nil_lt_cons _ _
    · split
      · exact .nil
      · exact pairwise_exposedAll 0 cs

theorem pairwise_exposedAll : ∀ (i : Nat) (cs : List Concrete),
    (exposedAll i cs).Pairwise fun e f => e.1 < f.1
  | i, [] => .nil
  | i, c :: cs => by
    rw [exposedAll]
    refine List.pairwise_append.mpr ⟨?_, pairwise_exposedAll (i + 1) cs, ?_⟩
    · rw [List.pairwise_map]
      exact (pairwise_exposed c).imp fun h => List.cons_lt_cons_self.mpr h
    · rintro ⟨p, s⟩ hp ⟨q, t⟩ hq
      obtain ⟨⟨p', s'⟩, -, heq⟩ := List.mem_map.mp hp
      obtain ⟨rfl, rfl⟩ := Prod.mk.inj heq
      obtain ⟨k, d, q', -, rfl, -⟩ := mem_exposedAll.mp hq
      exact List.cons_lt_cons_iff.mpr (Or.inl (by omega))

end

/-- The nodes that are not inside a comment, a node before those inside it. -/
def exposedNodes (c : Concrete) : List Concrete := (exposed c).map Prod.snd

theorem map_snd_exposedAll (i : Nat) (cs : List Concrete) :
    (exposedAll i cs).map Prod.snd = cs.flatMap exposedNodes := by
  induction cs generalizing i with
  | nil => rfl
  | cons c cs ih =>
    rw [exposedAll, List.map_append, ih, List.map_map, List.flatMap_cons]
    rfl

theorem exposedNodes_node (l : Label) (cs : List Concrete) :
    exposedNodes (node l cs) =
      node l cs :: if l.extra then [] else cs.flatMap exposedNodes := by
  rw [exposedNodes, exposed, List.map_cons]
  split
  · rfl
  · rw [map_snd_exposedAll]

/-- The addresses, in ascending order, of the nodes that have a property and are not inside a comment. -/
structure Enumerates (c : Concrete) (P : Concrete → Prop) (ps : List Address) : Prop where
  ascending : ps.Pairwise (· < ·)
  mem_iff : ∀ p, p ∈ ps ↔ ∃ s, c.Exposes p s ∧ P s

theorem forall₂_imp_of_mem {α β : Type} {R S : α → β → Prop} {xs : List α} {ys : List β}
    (h : List.Forall₂ R xs ys) (hmem : ∀ x, ∀ y ∈ ys, R x y → S x y) : List.Forall₂ S xs ys := by
  induction h with
  | nil => exact .nil
  | cons hfirst _ ih =>
    obtain ⟨hhere, hrest⟩ := forall_and.mp fun x => List.forall_mem_cons.mp (hmem x)
    exact .cons (hhere _ hfirst) (ih hrest)

/-- What goes one by one with the nodes that are kept goes one by one with their addresses. -/
theorem exists_enumerates {α : Type} {R : α → Concrete → Prop} {xs : List α} {c : Concrete}
    {keep : Concrete → Bool} (h : List.Forall₂ R xs (c.exposedNodes.filter keep)) :
    ∃ ps, c.Enumerates (fun s => keep s = true) ps ∧
      List.Forall₂ (fun x p => ∃ s, c.Exposes p s ∧ R x s) xs ps := by
  let kept := (exposed c).filter fun e => keep e.2
  have hnodes : c.exposedNodes.filter keep = kept.map Prod.snd := List.filter_map
  refine ⟨kept.map Prod.fst, ⟨?_, fun p => ?_⟩, ?_⟩
  · exact List.pairwise_map.mpr ((pairwise_exposed c).filter _)
  · constructor
    · intro hp
      obtain ⟨⟨p, s⟩, he, rfl⟩ := List.mem_map.mp hp
      obtain ⟨hexposed, hkeep⟩ := List.mem_filter.mp he
      exact ⟨s, mem_exposed.mp hexposed, hkeep⟩
    · rintro ⟨s, hs, hkeep⟩
      exact List.mem_map.mpr ⟨(p, s), List.mem_filter.mpr ⟨mem_exposed.mpr hs, hkeep⟩, rfl⟩
  · have hexposes : ∀ e ∈ kept, c.Exposes e.1 e.2 := fun e he =>
      mem_exposed.mp (List.mem_of_mem_filter he)
    rw [hnodes, List.forall₂_map_right_iff] at h
    rw [List.forall₂_map_right_iff]
    exact forall₂_imp_of_mem h fun x e he hx => ⟨e.2, hexposes e he, hx⟩

end CallChain.JavaScript.Concrete
