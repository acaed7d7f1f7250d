import CallChain.Proofs.Syntax.Layout

/-!
# Nested spans

In an orderly tree children lie inside their parents and one behind the other. In the arena of such a tree
numbers go with places in the text: a node lies inside its parent, a node with a greater number does not
start earlier, and unless it is below the other it starts behind its end.
-/
namespace CallChain

namespace Span

/-- The span lies inside another. -/
def Inside (s t : Span) : Prop := t.start ≤ s.start ∧ s.stop ≤ t.stop

/-- The span ends no later than another starts. -/
def Before (s t : Span) : Prop := s.stop ≤ t.start

instance (s t : Span) : Decidable (s.Inside t) :=
  inferInstanceAs (Decidable (t.start ≤ s.start ∧ s.stop ≤ t.stop))

instance (s t : Span) : Decidable (s.Before t) := inferInstanceAs (Decidable (s.stop ≤ t.start))

theorem Inside.refl (s : Span) : s.Inside s := ⟨Nat.le_refl _, Nat.le_refl _⟩

theorem Inside.trans {s t u : Span} (h : s.Inside t) (h' : t.Inside u) : s.Inside u :=
  ⟨h'.1.trans h.1, h.2.trans h'.2⟩

/-- What is inside spans that are apart is apart as well. -/
theorem Before.of_inside {s s' t t' : Span} (h : s.Before t) (hs : s'.Inside s) (ht : t'.Inside t) :
    s'.Before t' :=
  hs.2.trans (h.trans ht.1)

end Span

namespace Syntax

namespace Tree

variable {s t : Tree}

/-- The span of the root is not inverted; its children lie inside it, one behind the other. -/
structure InPlace (t : Tree) : Prop where
  forward : t.span.start ≤ t.span.stop
  inside : ∀ c ∈ t.children, c.span.Inside t.span
  apart : t.children.Pairwise (·.span.Before ·.span)

/-- The same holds of all trees inside. -/
def Orderly (t : Tree) : Prop := ∀ s : Tree, s.Within t → s.InPlace

theorem Orderly.here (h : t.Orderly) : t.InPlace := h t .refl

theorem Orderly.within (h : t.Orderly) (hs : s.Within t) : s.Orderly := fun r hr => h r (hr.trans hs)

theorem Orderly.child (h : t.Orderly) (hs : s ∈ t.children) : s.Orderly := h.within (.single hs)

theorem Orderly.inside (h : t.Orderly) (hs : s.Within t) : s.span.Inside t.span := by
  induction hs using Relation.ReflTransGen.head_induction_on with
  | refl => exact .refl _
  | head hchild hwithin ih => exact ((h _ hwithin).inside _ hchild).trans ih

end Tree

section Nested

variable {a : Arena} {parent : Option Nat} {p i j stop : Nat} {t : Tree} {ts : List Tree}
  {ids : List Nat}

theorem Arena.span_of_holdsAt (h : HoldsAt a.nodes parent i t stop) : a.span i = t.span := by
  cases h with
  | root hnode _ => exact Arena.span_of_getElem? hnode

theorem HoldsAt.inside (h : HoldsAt a.nodes parent i t stop) (ht : t.Orderly) (hij : i ≤ j)
    (hj : j < stop) : (a.span j).Inside t.span := by
  obtain ⟨_, s, _, hs, -, hwithin, -⟩ := h.at hij hj
  rw [Arena.span_of_holdsAt hs]
  exact ht.inside hwithin

theorem HoldsAll.inside (h : HoldsAll a.nodes p i ts ids stop) (hts : ∀ t ∈ ts, t.Orderly)
    (hij : i ≤ j) (hj : j < stop) : ∃ t ∈ ts, (a.span j).Inside t.span := by
  obtain ⟨_, s, _, hs, -, ⟨t, ht, hwithin⟩, -⟩ := h.at hij hj
  rw [Arena.span_of_holdsAt hs]
  exact ⟨t, ht, (hts t ht).inside hwithin⟩

end Nested

mutual

/-- Of two nodes of a tree, the second is below the first or lies behind it. -/
theorem HoldsAt.apart {a : Arena} {parent : Option Nat} {first i j stop : Nat} {t : Tree} :
    HoldsAt a.nodes parent first t stop → t.Orderly → first ≤ i → i < j → j < stop →
      Relation.TransGen (Lists a.nodes) i j ∨ (a.span i).Before (a.span j)
  | .root hnode hbelow, ht, hi, hij, hj => by
    rcases Nat.eq_or_lt_of_le hi with rfl | hi
    · exact Or.inl (((HoldsAt.root hnode hbelow).below_iff j).mpr ⟨hij, hj⟩)
    · exact HoldsAll.apart hbelow (fun s hs => ht.child hs) ht.here.apart hi hij hj

theorem HoldsAll.apart {a : Arena} {p first i j stop : Nat} {ts : List Tree} {ids : List Nat} :
    HoldsAll a.nodes p first ts ids stop → (∀ t ∈ ts, t.Orderly) →
      ts.Pairwise (·.span.Before ·.span) → first ≤ i → i < j → j < stop →
      Relation.TransGen (Lists a.nodes) i j ∨ (a.span i).Before (a.span j)
  | .nil, _, _, hi, hij, hj => by omega
  | @HoldsAll.cons _ _ _ mid _ t ts _ hfirst hrest, hts, hapart, hi, hij, hj => by
    obtain ⟨ht, hts⟩ := List.forall_mem_cons.mp hts
    obtain ⟨hbefore, hapart⟩ := List.pairwise_cons.mp hapart
    rcases Nat.lt_or_ge j mid with hmid | hmid
    · exact HoldsAt.apart hfirst ht hi hij hmid
    rcases Nat.lt_or_ge i mid with himid | himid
    · -- the one is in the first of the trees, the other in one of those behind it
      obtain ⟨s, hs, hinside⟩ := hrest.inside hts hmid hj
      exact Or.inr ((hbefore s hs).of_inside (hfirst.inside ht hi himid) hinside)
    · exact HoldsAll.apart hrest hts hapart himid hij hj

end

namespace Arena

variable {a : Arena} {t : Tree} {i j p : Nat}

/-- The node is an ancestor of another. -/
def IsAbove (a : Arena) : NodeId → NodeId → Prop :=
  Relation.TransGen fun i j => a.parent? j = some i

theorem IsOf.isAbove_of_lists (h : a.IsOf t) (hbelow : Relation.TransGen (Lists a.nodes) i j) :
    a.IsAbove i j :=
  hbelow.lift id fun _ _ hlists => (h.child hlists).2.2

theorem IsOf.inside_parent (h : a.IsOf t) (ht : t.Orderly) (hparent : a.parent? i = some p) :
    (a.span i).Inside (a.span p) := by
  have hi : i < a.size := by
    obtain ⟨node, hnode, -⟩ := Option.bind_eq_some_iff.mp hparent
    exact (Array.getElem?_eq_some_iff.mp hnode).1
  obtain ⟨_, _, _, hholds, -, -, hroot | ⟨q, -, -, hq, hlists⟩⟩ := h.holds.at i.zero_le hi
  · rw [parent?_of_holdsAt hholds, hroot.2] at hparent
    cases hparent
  · rw [parent?_of_holdsAt hholds, hq] at hparent
    obtain rfl := Option.some.inj hparent
    obtain ⟨_, s, _, hs, -, hwithin, -⟩ := h.holds.at q.zero_le (lt_size_of_lists hlists)
    obtain ⟨hlt, hstop, -⟩ := hs.child hlists
    rw [span_of_holdsAt hs]
    exact hs.inside (ht.within hwithin) hlt.le hstop

theorem IsOf.before (h : a.IsOf t) (ht : t.Orderly) (hij : i < j) (hj : j < a.size)
    (hnot : ¬ a.IsAbove i j) : (a.span i).Before (a.span j) := by
  rcases h.holds.apart ht i.zero_le hij hj with hbelow | hbefore
  · exact absurd (h.isAbove_of_lists hbelow) hnot
  · exact hbefore

theorem IsOf.start_le (h : a.IsOf t) (ht : t.Orderly) (hij : i < j) (hj : j < a.size) :
    (a.span i).start ≤ (a.span j).start := by
  obtain ⟨_, s, _, hs, -, hwithin, -⟩ := h.holds.at i.zero_le (hij.trans hj)
  rcases h.holds.apart ht i.zero_le hij hj with hbelow | hbefore
  · have hj := ((hs.below_iff j).mp hbelow).2
    rw [span_of_holdsAt hs]
    exact (hs.inside (ht.within hwithin) hij.le hj).1
  · rw [span_of_holdsAt hs] at hbefore ⊢
    exact (ht s hwithin).forward.trans hbefore

end Arena

end Syntax

end CallChain
