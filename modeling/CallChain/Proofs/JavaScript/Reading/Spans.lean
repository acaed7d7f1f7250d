import Mathlib
import CallChain.JavaScript.FrontEnd
import CallChain.Proofs.Chain.Moved
import CallChain.Proofs.JavaScript.Abstraction
import CallChain.Proofs.JavaScript.Place
import CallChain.Proofs.JavaScript.Reading.Statement
import CallChain.Proofs.JavaScript.Walk

/-!
# The tokens of a program lie on its text

The reader counts bytes, lines and columns while it goes along. Every place that it comes to lies behind a
leading part of the text, so that the spans of all nodes lie on the text, and with them the tokens of the
tree that is checked: `parse_liesOn`. The tree's nodes and parents agree and its tokens are sorted.
-/
namespace CallChain

open CallChain.Syntax

/-- In an arena in preorder nodes and parents agree. -/
theorem Syntax.Arena.Preorder.linked {a : Arena} (h : a.Preorder) : a.Linked := by
  have hlists : ∀ {i c : Nat} {k : NodeKind}, a.kind? i = some k → c ∈ k.children →
      Lists a.nodes i c := by
    intro i c k hk hc
    obtain ⟨node, hnode, rfl⟩ := Option.map_eq_some_iff.mp hk
    exact ⟨node, hnode, hc⟩
  refine ⟨fun hk hc => (h.child (hlists hk hc)).1, fun hk hc => (h.child (hlists hk hc)).2.2, ?_⟩
  intro i c hparent
  have hsize : c < a.size := by
    obtain ⟨node, hnode, -⟩ := Option.bind_eq_some_iff.mp hparent
    exact (Array.getElem?_eq_some_iff.mp hnode).1
  have hpos : 0 < c := by
    refine Nat.pos_of_ne_zero fun hc => ?_
    rw [(h.parentless hsize).mpr hc] at hparent
    cases hparent
  obtain ⟨j, k, hk, hcount, -⟩ := h.listed hpos hsize
  have hmem : c ∈ k.children := List.count_pos_iff.mp (by omega)
  obtain rfl := Option.some.inj (hparent.symm.trans (h.child (hlists hk hmem)).2.2)
  exact ⟨k, hk, hmem⟩

namespace JavaScript

variable {text : List Char} {p q : Place}

theorem column_endOf (before : List Char) :
    (endOf before).column = Text.byteLength (before.reverse.takeWhile (· ≠ '\n')) := by
  induction before using List.reverseRecOn with
  | nil => rfl
  | append_singleton before c ih =>
    rw [endOf_concat, passed, List.reverse_append, List.reverse_singleton, List.singleton_append,
      List.takeWhile_cons]
    split
    · next hc => simp [hc]
    · next hc => simp [hc, ih, Nat.add_comm]

/-- The position that the reader counts is the one that the text gives. -/
theorem positionAt_append (before rest : List Char) :
    Text.positionAt (Text.byteLength before) (before ++ rest) = endOf before := by
  have hline := line_endOf before
  have hcolumn := column_endOf before
  rw [Text.positionAt, Text.lineAt_append, Text.takeBytes?_append, Option.getD_some, ← hline,
    ← hcolumn]

namespace Place

/-- The place is that behind some leading part of the text. -/
def LiesOn (p : Place) (text : List Char) : Prop :=
  ∃ before rest, text = before ++ rest ∧ p = .after before rest

namespace LiesOn

theorem step (h : p.LiesOn text) : p.step.LiesOn text := by
  obtain ⟨before, rest, rfl, rfl⟩ := h
  cases rest with
  | nil => exact ⟨before, [], rfl, rfl⟩
  | cons c rest => exact ⟨before ++ [c], rest, by simp, step_after before c rest⟩

theorem isBoundary (h : p.LiesOn text) : Text.isBoundary p.offset text = true := by
  obtain ⟨before, rest, rfl, rfl⟩ := h
  exact Text.isBoundary_iff.mpr ⟨before, rest, rfl, rfl⟩

theorem position (h : p.LiesOn text) : p.position = Text.positionAt p.offset text := by
  obtain ⟨before, rest, rfl, rfl⟩ := h
  exact (positionAt_append before rest).symm

theorem spanTo (h : p.LiesOn text) (h' : q.LiesOn text) : (p.spanTo q).LiesOn text :=
  ⟨h.isBoundary, h'.isBoundary, h.position, h'.position⟩

end LiesOn

end Place

namespace Concrete

variable {c : Concrete} {cs : List Concrete}

/-- The spans of the node and of all nodes inside it lie on the text. -/
def LiesOn (c : Concrete) (text : List Char) : Prop :=
  ∀ s : Concrete, s.Within c → s.span.LiesOn text

theorem liesOn_node {l : Label} :
    (node l cs).LiesOn text ↔ l.span.LiesOn text ∧ ∀ c ∈ cs, c.LiesOn text :=
  forall_within_node

theorem liesOn_leaf {l : Label} (h : l.span.LiesOn text) : (node l []).LiesOn text :=
  liesOn_node.mpr ⟨h, fun _ hc => by cases hc⟩

/-- Nothing but the spans matters. -/
theorem liesOn_relabelled (l : Label) (h : l.span = c.span) :
    (node l c.children).LiesOn text ↔ c.LiesOn text := by
  obtain ⟨m, cs⟩ := c
  rw [liesOn_node, liesOn_node, h]
  rfl

theorem LiesOn.span (h : c.LiesOn text) : c.span.LiesOn text := h c (.here c)

theorem liesOn_construct (kind : String) (hne : cs ≠ []) (hcs : ∀ c ∈ cs, c.LiesOn text) :
    (Grammar.construct kind cs).LiesOn text := by
  have hstart := (hcs _ (List.head_mem hne)).span
  have hstop := (hcs _ (List.getLast_mem hne)).span
  refine liesOn_node.mpr ⟨?_, hcs⟩
  rw [List.head?_eq_some_head hne, List.getLast?_eq_some_getLast hne]
  exact ⟨hstart.start, hstop.stop, hstart.startPos, hstop.stopPos⟩

theorem liesOn_constructTo (kind : String) (hne : cs ≠ []) (hcs : ∀ c ∈ cs, c.LiesOn text)
    (hq : q.LiesOn text) : (Grammar.constructTo kind cs q).LiesOn text := by
  have hstart := (hcs _ (List.head_mem hne)).span
  refine liesOn_node.mpr ⟨?_, hcs⟩
  rw [List.head?_eq_some_head hne]
  exact ⟨hstart.start, hq.isBoundary, hstart.startPos, hq.position⟩

mutual

/-- Each token is a leaf of the tree. -/
theorem LiesOn.token : ∀ {c : Concrete}, c.LiesOn text → ∀ t ∈ c.leafTokens, t.span.LiesOn text
  | node l [], h, t, ht => by
    rw [leafTokens] at ht
    split at ht
    · cases ht
    · obtain rfl := List.mem_singleton.mp ht
      exact h.span
  | node l (c :: cs), h, t, ht => by
    rw [leafTokens] at ht
    split at ht
    · cases ht
    · rw [liesOn_node, List.forall_mem_cons] at h
      rcases List.mem_append.mp ht with ht | ht
      · exact h.2.1.token t ht
      · exact token_of_all h.2.2 t ht

theorem token_of_all : ∀ {cs : List Concrete}, (∀ c ∈ cs, c.LiesOn text) →
    ∀ t ∈ leafTokensAll cs, t.span.LiesOn text
  | [], _, t, ht => by cases ht
  | c :: cs, h, t, ht => by
    rw [List.forall_mem_cons] at h
    rcases List.mem_append.mp ht with ht | ht
    · exact h.1.token t ht
    · exact token_of_all h.2 t ht

end

end Concrete

/-- The reader keeps to the text. -/
def keepsToText (text : List Char) : ReadInvariant where
  place p := p.LiesOn text
  part c := c.LiesOn text
  tree c := c.LiesOn text
  step h := h.step
  part_of_tree h := h
  mark h h' := Concrete.liesOn_leaf (h.spanTo h')
  leaf _ h h' := Concrete.liesOn_leaf (h.spanTo h')
  as _ := Concrete.liesOn_relabelled _ rfl
  renamed {c} kind _ h := (Concrete.liesOn_relabelled { c.label with kind } rfl).mpr h
  bare h := Concrete.liesOn_leaf h.span
  construct _ hne h := Concrete.liesOn_construct _ hne h
  constructTo _ hne h hq := Concrete.liesOn_constructTo _ hne h hq
  parentheses hne h := Concrete.liesOn_construct _ hne h
  call hne h _ := Concrete.liesOn_construct _ hne h
  ifStatement hne h _ := Concrete.liesOn_construct _ hne h

theorem liesOn_of_program {tree : Concrete} (h : Grammar.program text = .ok tree) :
    tree.LiesOn text := by
  have hstart : (Place.start text).LiesOn text := ⟨[], text, rfl, rfl⟩
  obtain ⟨p, q, children, hp, hq, hchildren, rfl⟩ :=
    Grammar.exists_of_program (I := keepsToText text) hstart h
  exact Concrete.liesOn_node.mpr ⟨Place.LiesOn.spanTo hp hq, hchildren⟩

/-- What is parsed is laid out from the concrete tree that was read. -/
theorem exists_of_parse {content : String} {a : Arena} (h : parse content = .ok a) :
    ∃ tree : Concrete, Grammar.program content.toList = .ok tree ∧
      a = (tree.abstract content.toList).toArena tree.leafTokens := by
  unfold parse read at h
  dsimp only at h
  cases hprogram : Grammar.program content.toList with
  | error fault =>
    rw [hprogram] at h
    cases h
  | ok tree =>
    rw [hprogram] at h
    refine ⟨tree, rfl, ?_⟩
    rw [← tree.tokens_eq]
    exact (Except.ok.inj h).symm

/-- The tokens of a program lie on its text. -/
theorem parse_liesOn {content : String} {a : Arena} (h : parse content = .ok a) :
    ∀ t ∈ a.tokens, t.span.LiesOn content.toList := by
  obtain ⟨tree, hprogram, rfl⟩ := exists_of_parse h
  intro t ht
  rw [← Array.mem_toList_iff, Tree.tokens_toArena, List.mem_mergeSort] at ht
  exact (liesOn_of_program hprogram).token t ht

theorem parse_linked {content : String} {a : Arena} (h : parse content = .ok a) : a.Linked := by
  obtain ⟨tree, -, rfl⟩ := exists_of_parse h
  exact (Tree.toArena_isOf (tree.abstract content.toList) tree.leafTokens).preorder.linked

theorem parse_sorted {content : String} {a : Arena} (h : parse content = .ok a) : a.Sorted := by
  obtain ⟨tree, -, rfl⟩ := exists_of_parse h
  exact Builder.sorted_finish _ _

end JavaScript

end CallChain
