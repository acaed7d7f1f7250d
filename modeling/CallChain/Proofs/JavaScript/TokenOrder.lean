import CallChain.Proofs.JavaScript.Reading.Placement.Program
import CallChain.Proofs.JavaScript.TrailingAllow
import CallChain.Proofs.JavaScript.Walk

/-!
# The order of the tokens

The walk comes to the nodes one by one in the order of their addresses, and it collects the leaves among
them. In an orderly tree they start in this order, so that sorting them changes nothing.
-/
namespace CallChain.JavaScript.Concrete

open CallChain.Syntax

variable {c : Concrete}

theorem isTokenLeaf_iff {s : Concrete} :
    s.isTokenLeaf = true ↔ s.children = [] ∧ s.label.extra = false := by
  simp [isTokenLeaf]

theorem tokens_eq_map (c : Concrete) :
    c.tokens = (c.exposedNodes.filter isTokenLeaf).map fun s => leafToken s.label := by
  rw [tokens_eq_filterMap, ← List.filterMap_eq_map, List.filterMap_filter]
  rfl

/-- The addresses of the nodes that the walk comes to, from move to move. -/
theorem exists_enumerates_walk (c : Concrete) : ∃ ps, c.Enumerates (fun _ => True) ps ∧
    ∀ n, (Cursor.after n ⟨c, [], []⟩).map (·.focus) = ps[n]?.bind (at? · c) := by
  have hall : List.Forall₂ Eq c.exposedNodes (c.exposedNodes.filter fun _ => true) := by
    rw [List.filter_true]
    exact List.forall₂_refl _
  obtain ⟨ps, hps, hnodes⟩ := exists_enumerates hall
  refine ⟨ps, ⟨hps.ascending, by simpa using hps.mem_iff⟩, fun n => ?_⟩
  have hahead : Cursor.ahead ⟨c, [], []⟩ = c.exposedNodes := by simp [Cursor.ahead]
  have hat : c.exposedNodes.map some = ps.map (at? · c) := by
    rw [← List.forall₂_eq_eq_eq, List.forall₂_map_left_iff, List.forall₂_map_right_iff]
    refine hnodes.imp fun s p hp => ?_
    obtain ⟨s, hexposes, rfl⟩ := hp
    exact hexposes.at?_eq.symm
  have hn : c.exposedNodes[n]?.map some = ps[n]?.map (at? · c) := by
    simpa using congrArg (·[n]?) hat
  rw [Cursor.focus_after, hahead]
  cases hp : ps[n]? with
  | none => simpa [hp] using hn
  | some p =>
    obtain ⟨s, hs, hat⟩ := Option.map_eq_some_iff.mp (hn.trans (by rw [hp]; rfl))
    exact hs.trans hat

/-- The addresses of the leaves that are collected as tokens. -/
theorem exists_enumerates_tokens (c : Concrete) :
    ∃ ps, c.Enumerates (fun s => s.children = [] ∧ s.label.extra = false) ps ∧
      List.Forall₂ (fun t p => ∃ s, c.at? p = some s ∧ t = leafToken s.label) c.tokens ps := by
  have hleaves : List.Forall₂ (fun t s => t = leafToken s.label) c.tokens
      (c.exposedNodes.filter isTokenLeaf) := by
    rw [tokens_eq_map, List.forall₂_map_left_iff]
    exact List.forall₂_same.mpr fun _ _ => rfl
  obtain ⟨ps, hps, htokens⟩ := exists_enumerates hleaves
  refine ⟨ps, ⟨hps.ascending, fun p => ?_⟩, htokens.imp fun t p hp => ?_⟩
  · simpa only [isTokenLeaf_iff] using hps.mem_iff p
  · obtain ⟨s, hexposes, ht⟩ := hp
    exact ⟨s, hexposes.at?_eq, ht⟩

theorem Orderly.pairwise_tokens (h : c.Orderly) :
    c.tokens.Pairwise fun t u => t.span.start ≤ u.span.start := by
  rw [tokens_eq_map, List.pairwise_map]
  exact h.pairwise_start.filter _

/-- The walk over a tree comes to each node that is not inside a comment once, in the order of their
addresses, and then it ends. The tokens that it collects are the leaves among these nodes that are no
comments, in the same order. If the tree is orderly, as each tree is that is read as a program, they are
sorted already and stay as they are in the arena. `Orderly` asks for more than siblings that stand one
behind the other: children have to lie inside their parent, since a leaf that is outside of it may stand
behind those of the next sibling. -/
theorem walk_in_order (c : Concrete) :
    (∃ ps, c.Enumerates (fun _ => True) ps ∧
      ∀ n, (Cursor.after n ⟨c, [], []⟩).map (·.focus) = ps[n]?.bind (at? · c)) ∧
    (∃ ps, c.Enumerates (fun s => s.children = [] ∧ s.label.extra = false) ps ∧
      List.Forall₂ (fun t p => ∃ s, c.at? p = some s ∧ t = leafToken s.label) c.tokens ps) ∧
    (c.Orderly → c.tokens.Pairwise (fun t u => t.span.start ≤ u.span.start) ∧
      ∀ text, ((c.abstract text).toArena c.tokens).tokens.toList = c.tokens) ∧
    (∀ text, Grammar.program text = .ok c → c.Orderly) := by
  refine ⟨exists_enumerates_walk c, exists_enumerates_tokens c, fun h => ?_, fun text hprogram => ?_⟩
  · refine ⟨h.pairwise_tokens, fun text => ?_⟩
    rw [Tree.tokens_toArena]
    exact List.mergeSort_of_pairwise (h.pairwise_tokens.imp fun hle => decide_eq_true hle)
  · exact fun s hs => (sound_of_program hprogram s hs).inPlace

/-- A comment, behind it an access with `?.`. -/
def markedAccess : Concrete := treeOf "// first\na?.b(c);"

theorem walk_in_order_markedAccess :
    markedAccess.Orderly ∧ markedAccess.tokens.length = 7 ∧
      (∀ text, ((markedAccess.abstract text).toArena markedAccess.tokens).tokens.toList =
        markedAccess.tokens) := by
  have horderly : markedAccess.Orderly := by decide +kernel
  exact ⟨horderly, by decide +kernel, ((walk_in_order markedAccess).2.2.1 horderly).2⟩

end CallChain.JavaScript.Concrete
