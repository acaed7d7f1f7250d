import CallChain.FrontEnd
import CallChain.Proofs.Chain.Operator
import CallChain.Proofs.Chain.Spine
import CallChain.Proofs.Text.Breaks

/-!
# Trees of broken texts

What a front end is trusted with when its texts are mended. A tree is consistent with its text if its spans
lie on the text and each link has an operator of its own; a front end is stable under line feeds if a text
that is broken before operators gives the tree it gave before, with the spans moved. A tree is faithful if,
besides, no link ends before its operator.
-/
namespace CallChain

open CallChain.Syntax

/-- The span lies on the text: its ends are boundaries, and their positions count line feeds. -/
structure Span.LiesOn (s : Span) (text : List Char) : Prop where
  start : Text.isBoundary s.start text = true
  stop : Text.isBoundary s.stop text = true
  startPos : s.startPos = Text.positionAt s.start text
  stopPos : s.stopPos = Text.positionAt s.stop text

theorem Span.LiesOn.start_line {s : Span} {text : List Char} (h : s.LiesOn text) :
    s.startPos.line = Text.lineAt s.start text := congrArg Position.line h.startPos

theorem Span.LiesOn.stop_line {s : Span} {text : List Char} (h : s.LiesOn text) :
    s.stopPos.line = Text.lineAt s.stop text := congrArg Position.line h.stopPos

/-- The span after a text was broken before `places`: what starts at a place starts behind its line feed,
what ends there ends before it. An empty span has nothing to move and stays before it. -/
def Span.moved (places : List Nat) (broken : List Char) (s : Span) : Span :=
  let start :=
    if s.start < s.stop then s.start + places.countP (· ≤ s.start)
    else s.start + places.countP (· < s.start)
  let stop := s.stop + places.countP (· < s.stop)
  ⟨start, stop, Text.positionAt start broken, Text.positionAt stop broken⟩

namespace Syntax.Arena

/-- The tree with all spans moved. -/
def moved (places : List Nat) (broken : List Char) (a : Arena) : Arena where
  nodes := a.nodes.map fun node => { node with span := node.span.moved places broken }
  tokens := a.tokens.map fun t => { t with span := t.span.moved places broken }
  root := a.root

/-- The same nodes with the same parents, wherever they stand in a text. -/
structure SameShape (a b : Arena) : Prop where
  size : a.size = b.size
  kind? : ∀ i, a.kind? i = b.kind? i
  parent? : ∀ i, a.parent? i = b.parent? i

theorem node?_moved (places : List Nat) (broken : List Char) (a : Arena) (i : NodeId) :
    (a.moved places broken).node? i =
      (a.node? i).map fun node => { node with span := node.span.moved places broken } := by
  rw [node?, moved, Array.getElem?_map, node?]

theorem moved_sameShape (places : List Nat) (broken : List Char) (a : Arena) :
    SameShape (a.moved places broken) a := by
  refine ⟨Array.size_map, fun i => ?_, fun i => ?_⟩
  · rw [Arena.kind?, node?_moved, Option.map_map]
    rfl
  · rw [Arena.parent?, node?_moved, Option.bind_map]
    rfl

theorem span_moved {places : List Nat} {broken : List Char} {a : Arena} {i : NodeId} {k : NodeKind}
    (h : a.kind? i = some k) : (a.moved places broken).span i = (a.span i).moved places broken := by
  obtain ⟨node, hn, -⟩ := Option.map_eq_some_iff.mp h
  simp [span, node?_moved, hn]

theorem SameShape.linked {a b : Arena} (h : SameShape a b) (hl : b.Linked) : a.Linked := by
  constructor
  · intro i c k hk
    exact hl.forward (h.kind? i ▸ hk)
  · intro i c k hk hc
    rw [h.parent?]
    exact hl.parent (h.kind? i ▸ hk) hc
  · intro i c hp
    rw [h.kind?]
    exact hl.listed (h.parent? c ▸ hp)

end Syntax.Arena

namespace Chain

section SameShape

variable {a b : Arena} (h : a.SameShape b)
include h

theorem memberObject?_of_sameShape (m : NodeId) : memberObject? a m = memberObject? b m := by
  simp only [memberObject?, h.kind?]

theorem callee?_of_sameShape (m : NodeId) : callee? a m = callee? b m := by
  simp only [callee?, h.kind?]

theorem methodCall?_of_sameShape (m : NodeId) : methodCall? a m = methodCall? b m := by
  have hname : a.isIdentifier = b.isIdentifier := by
    funext i
    rw [Arena.isIdentifier, Arena.isIdentifier, h.kind?]
  rw [methodCall?, methodCall?, h.kind?, h.parent?, hname, funext (callee?_of_sameShape h)]

theorem calledBy_of_sameShape {m call : NodeId} : CalledBy a m call ↔ CalledBy b m call := by
  rw [← methodCall?_eq_some_iff, methodCall?_of_sameShape h, methodCall?_eq_some_iff]

theorem callsAbove_of_sameShape (fuel : Nat) (m : NodeId) :
    callsAbove a fuel m = callsAbove b fuel m := by
  induction fuel generalizing m with
  | zero => rfl
  | succ fuel ih =>
    simp only [callsAbove, methodCall?_of_sameShape h, memberObject?_of_sameShape h, h.parent?, ih]

theorem linksBelow_of_sameShape (fuel : Nat) (m : NodeId) :
    linksBelow a fuel m = linksBelow b fuel m := by
  induction fuel generalizing m with
  | zero => rfl
  | succ fuel ih =>
    simp only [linksBelow, methodCall?_of_sameShape h, memberObject?_of_sameShape h,
      funext (callee?_of_sameShape h), ih]

theorem depth_of_sameShape (m : NodeId) : depth a m = depth b m := by
  rw [depth, depth, methodsAfter, methodsAfter, methodsBefore, methodsBefore, h.size,
    callsAbove_of_sameShape h, linksBelow_of_sameShape h]

theorem isExempt_of_sameShape (top : NodeId) : isExempt a top = isExempt b top := by
  simp only [isExempt, h.parent?, funext h.kind?]

end SameShape

/-- `t` is an operator of the link `m`: a `.` or `?.` at or behind the end of its object and before its
property. -/
structure OperatorOf (a : Arena) (m : NodeId) (t : Token) : Prop where
  link : ∃ call, CalledBy a m call
  mem : t ∈ a.tokens
  between : ∃ object property optional, a.kind? m = some (.member object property false optional) ∧
    isBetween a object property t = true

theorem OperatorOf.isBetween {a : Arena} {m object property : NodeId} {optional : Bool} {t : Token}
    (ht : OperatorOf a m t) (hk : a.kind? m = some (.member object property false optional)) :
    isBetween a object property t = true := by
  obtain ⟨object', property', optional', hk', hbetween⟩ := ht.between
  obtain ⟨rfl, rfl, rfl⟩ : object = object' ∧ property = property' ∧ optional = optional' := by
    simpa using hk.symm.trans hk'
  exact hbetween

/-- The tree is one of the text: nodes and parents agree, nodes and tokens lie on the text, and each link
has an operator, which it shares with no other link. -/
structure Consistent (text : List Char) (a : Arena) : Prop where
  linked : a.Linked
  sorted : a.Sorted
  node : ∀ i node, a.node? i = some node → node.span.LiesOn text
  token : ∀ t ∈ a.tokens, t.span.LiesOn text
  operator : ∀ m call, CalledBy a m call → ∃ t, OperatorOf a m t
  own : ∀ m m' t t', OperatorOf a m t → OperatorOf a m' t' → t.span.start = t'.span.start → m = m'

/-- Each operator starts before the end of its link. -/
def OperatorsInside (a : Arena) : Prop := ∀ m t, OperatorOf a m t → t.span.start < (a.span m).stop

/-- A consistent tree with all operators inside their links. -/
structure Faithful (text : List Char) (a : Arena) : Prop extends Consistent text a where
  inside : OperatorsInside a

/-- The trees of a parser are consistent, and line feeds before operators move the spans of a tree and
change nothing else. -/
structure FeedStable (parse : String → Except ParseFault Arena) : Prop where
  consistent : ∀ content tree, parse content = .ok tree → Consistent content.toList tree
  moved : ∀ content tree places, parse content = .ok tree → places.Nodup →
    (∀ p ∈ places, ∃ m t, OperatorOf tree m t ∧ t.span.start = p) →
    parse (String.ofList (Text.breakBefore places content.toList)) =
      .ok (tree.moved places (Text.breakBefore places content.toList))

section

variable {text : List Char} {a : Arena} {m object property : NodeId} {optional : Bool}

namespace Consistent

theorem span_liesOn (h : Consistent text a) {i : NodeId} {k : NodeKind} (hk : a.kind? i = some k) :
    (a.span i).LiesOn text := by
  obtain ⟨node, hn, -⟩ := Option.map_eq_some_iff.mp hk
  rw [Arena.span, hn]
  exact h.node i node hn

/-- The object of a member access is a node of the tree. -/
theorem object_kind? (h : Consistent text a) {computed : Bool}
    (hk : a.kind? m = some (.member object property computed optional)) :
    ∃ k, a.kind? object = some k := by
  have hp := h.linked.parent hk (show object ∈ _ from List.mem_cons_self)
  obtain ⟨node, hn, -⟩ := Option.bind_eq_some_iff.mp hp
  exact ⟨node.kind, by rw [Arena.kind?, hn]; rfl⟩

/-- The operator that is looked up for a link is one of its own. -/
theorem exists_operatorOf (h : Consistent text a) {call : NodeId} (hc : CalledBy a m call)
    (hk : a.kind? m = some (.member object property false optional)) :
    ∃ o, operator? a object property = some o ∧ OperatorOf a m o := by
  obtain ⟨t, ht⟩ := h.operator m call hc
  obtain ⟨o, ho, hmem, hbetween, -⟩ := operator?_isBetween h.sorted ht.mem (ht.isBetween hk)
  exact ⟨o, ho, ⟨call, hc⟩, hmem, object, property, optional, hk, hbetween⟩

end Consistent

namespace Faithful

/-- The operator of a link stands between the end of its object and its own. -/
theorem place (h : Faithful text a) {t : Token} (ht : OperatorOf a m t)
    (hk : a.kind? m = some (.member object property false optional)) :
    (a.span object).stop ≤ t.span.start ∧ t.span.start < (a.span m).stop := by
  have hbetween := ht.isBetween hk
  simp only [isBetween, Bool.and_eq_true, decide_eq_true_eq] at hbetween
  exact ⟨hbetween.2.1, h.inside m t ht⟩

/-- The operator of a link that ends on its object's line stands on that line. -/
theorem operator_line (h : Faithful text a) {t : Token} (ht : OperatorOf a m t)
    (hk : a.kind? m = some (.member object property false optional))
    (hline : (a.span m).stopPos.line = (a.span object).stopPos.line) :
    t.span.startPos.line = (a.span object).stopPos.line := by
  obtain ⟨k, hobject⟩ := h.object_kind? hk
  have hm := h.span_liesOn hk
  have ho := h.span_liesOn hobject
  have hspan := h.token t ht.mem
  obtain ⟨hlo, hhi⟩ := h.place ht hk
  have hfrom := Text.lineAt_mono ho.stop hspan.start hlo
  have hto := Text.lineAt_mono hspan.start hm.stop hhi.le
  rw [hm.stop_line, ho.stop_line] at hline
  rw [hspan.start_line, ho.stop_line]
  omega

end Faithful

end

end Chain

end CallChain
