import CallChain.Proofs.JavaScript.Abstraction
import CallChain.Proofs.JavaScript.Address
import CallChain.Proofs.Syntax.Nesting

/-!
# Trees whose spans are in order

In an orderly tree children lie inside their parents and one behind the other. So does then all that is
inside them: nodes start in the order of their addresses.
-/
namespace CallChain.JavaScript.Concrete

variable {c d s : Concrete} {cs : List Concrete} {l : Label} {P : Concrete → Prop}

/-- All nodes of the tree have a property. -/
def Throughout (P : Concrete → Prop) (c : Concrete) : Prop := ∀ s : Concrete, s.Within c → P s

theorem Throughout.here (h : c.Throughout P) : P c := h c (.here c)

theorem Throughout.child (h : c.Throughout P) (hd : d ∈ c.children) : d.Throughout P := by
  obtain ⟨l, cs⟩ := c
  exact fun s hs => h s (.inside hd hs)

theorem throughout_node : (node l cs).Throughout P ↔ P (node l cs) ∧ ∀ d ∈ cs, d.Throughout P :=
  forall_within_node

mutual

def decideThroughout [DecidablePred P] : ∀ c : Concrete, Decidable (c.Throughout P)
  | node _ cs =>
    have := decideThroughoutAll cs
    decidable_of_iff _ throughout_node.symm

def decideThroughoutAll [DecidablePred P] :
    ∀ cs : List Concrete, Decidable (∀ d ∈ cs, d.Throughout P)
  | [] => isTrue fun _ hd => by cases hd
  | c :: cs =>
    have := decideThroughout c
    have := decideThroughoutAll cs
    decidable_of_iff _ List.forall_mem_cons.symm

end

instance [DecidablePred P] : DecidablePred (Throughout P) := decideThroughout

/-- The span of the node is not inverted; its children lie inside it, one behind the other. -/
@[mk_iff] structure InPlace (s : Concrete) : Prop where
  forward : s.span.start ≤ s.span.stop
  inside : ∀ d ∈ s.children, d.span.Inside s.span
  apart : s.children.Pairwise (·.span.Before ·.span)

instance : DecidablePred InPlace := fun s => decidable_of_iff _ (inPlace_iff s).symm

/-- The same holds of all nodes. -/
def Orderly (c : Concrete) : Prop := c.Throughout InPlace

instance : DecidablePred Orderly := fun c => inferInstanceAs (Decidable (c.Throughout InPlace))

theorem Orderly.child (h : c.Orderly) (hd : d ∈ c.children) : d.Orderly := Throughout.child h hd

theorem Orderly.inside (h : c.Orderly) (hs : s.Within c) : s.span.Inside c.span := by
  induction hs with
  | here => exact .refl _
  | inside hd _ ih => exact (ih (h.child hd)).trans (h.here.inside _ hd)

theorem Exposes.within {p : Address} (h : c.Exposes p s) : s.Within c := by
  induction h with
  | here => exact .here _
  | inside _ hd _ ih => exact .inside (List.mem_of_getElem? hd) ih

theorem within_of_mem_exposedNodes (h : s ∈ c.exposedNodes) : s.Within c := by
  obtain ⟨⟨p, s⟩, hmem, rfl⟩ := List.mem_map.mp h
  exact (mem_exposed.mp hmem).within

/-- Nodes start in the order of their addresses. -/
theorem Orderly.pairwise_start : ∀ {c : Concrete}, c.Orderly →
    c.exposedNodes.Pairwise fun s t => s.span.start ≤ t.span.start
  | node l cs, h => by
    have hroot := h.here
    have hstart : ∀ d ∈ cs, ∀ s ∈ d.exposedNodes, l.span.start ≤ s.span.start := fun d hd s hs =>
      (h.inside (.inside hd (within_of_mem_exposedNodes hs))).1
    rw [exposedNodes_node]
    split
    · exact List.pairwise_singleton _ _
    · refine List.pairwise_cons.mpr ⟨fun s hs => ?_, List.pairwise_flatMap.mpr ⟨fun d hd => ?_, ?_⟩⟩
      · obtain ⟨d, hd, hs⟩ := List.mem_flatMap.mp hs
        exact hstart d hd s hs
      · have hlt := List.sizeOf_lt_of_mem hd
        exact (h.child hd).pairwise_start
      · refine hroot.apart.imp_of_mem fun {d e} hd he hbefore s hs t ht => ?_
        have hs := within_of_mem_exposedNodes hs
        have ht := within_of_mem_exposedNodes ht
        have hapart : s.span.Before t.span :=
          hbefore.of_inside ((h.child hd).inside hs) ((h.child he).inside ht)
        exact (h s (.inside hd hs)).forward.trans hapart
  termination_by c => sizeOf c

end CallChain.JavaScript.Concrete
