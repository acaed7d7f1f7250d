import CallChain.Chain.Rule
import CallChain.Linter
import CallChain.Proofs.Chain.Moved
import CallChain.Proofs.Text.Spread

/-!
# Copies of a text with line feeds before its operators

From one text and its tree comes a language: its texts are the copies of that text with any number of line
feeds before each operator of a link, and the tree of a copy is the one tree with its spans moved. The
parser of such a language is stable under line feeds, for all of its texts.
-/
namespace CallChain

open CallChain.Syntax

theorem Span.moved_of_lt {feeds : List Nat} {broken : List Char} {s : Span} (h : s.start < s.stop) :
    s.moved feeds broken =
      ⟨Text.behind feeds s.start, Text.before feeds s.stop,
        Text.positionAt (Text.behind feeds s.start) broken,
        Text.positionAt (Text.before feeds s.stop) broken⟩ := by
  simp only [moved, if_pos h]
  rfl

/-- Spans that are not empty stay on a text that is spread. -/
theorem Span.LiesOn.spread {s : Span} {text : List Char} (h : s.LiesOn text) (hs : s.start < s.stop)
    (hascii : ∀ c ∈ text, c.utf8Size = 1) (feeds : List Nat) :
    (s.moved feeds (Text.spread feeds text)).LiesOn (Text.spread feeds text) := by
  have hascii' := @Text.utf8Size_of_mem_spreadFrom feeds 0 text hascii
  have hstop := Text.le_byteLength_of_isBoundary h.stop
  rw [Text.byteLength_of_ascii hascii] at hstop
  rw [moved_of_lt hs]
  refine ⟨Text.isBoundary_of_ascii hascii' ?_, Text.isBoundary_of_ascii hascii' ?_, rfl, rfl⟩
  · exact (Text.length_spread feeds text).symm ▸
      ((Text.behind_lt_before_iff feeds).mpr (Nat.lt_of_lt_of_le hs hstop)).le
  · exact (Text.length_spread feeds text).symm ▸
      Nat.add_le_add hstop (Text.countP_lt_mono feeds hstop)

namespace Syntax.Arena

variable {a : Arena} {feeds : List Nat} {broken : List Char}

/-- No node and no token is empty. -/
def Solid (a : Arena) : Prop :=
  (∀ node ∈ a.nodes, node.span.start < node.span.stop) ∧ ∀ t ∈ a.tokens, t.span.start < t.span.stop

instance (a : Arena) : Decidable a.Solid :=
  inferInstanceAs (Decidable ((∀ node ∈ a.nodes, node.span.start < node.span.stop) ∧
    ∀ t ∈ a.tokens, t.span.start < t.span.stop))

theorem Solid.span (h : a.Solid) {i : NodeId} {k : NodeKind} (hk : a.kind? i = some k) :
    (a.span i).start < (a.span i).stop := by
  obtain ⟨node, hn, -⟩ := Option.map_eq_some_iff.mp hk
  rw [Arena.span, hn]
  exact h.1 node (Array.mem_of_getElem? hn)

theorem moved_perm {others : List Nat} (h : feeds.Perm others) :
    a.moved feeds broken = a.moved others broken := by
  have hspan : ∀ s : Span, s.moved feeds broken = s.moved others broken := by
    intro s
    simp only [Span.moved, h.countP_eq]
  simp only [moved, hspan]

/-- Moving twice is moving once by all line feeds. -/
theorem moved_moved (h : a.Solid) (origins : List Nat) (further : List Char) :
    (a.moved feeds broken).moved (origins.map (Text.behind feeds)) further =
      a.moved (feeds ++ origins) further := by
  have hspan : ∀ s : Span, s.start < s.stop →
      (s.moved feeds broken).moved (origins.map (Text.behind feeds)) further =
        s.moved (feeds ++ origins) further := by
    intro s hs
    rw [Span.moved_of_lt hs, Span.moved_of_lt hs,
      Span.moved_of_lt ((Text.behind_lt_before_iff feeds).mpr hs), Text.behind_behind,
      Text.before_before]
  simp only [moved, Array.map_map, mk.injEq, and_true]
  constructor
  · apply Array.map_congr_left
    intro node hnode
    simp only [Function.comp_apply, hspan node.span (h.1 node hnode)]
  · apply Array.map_congr_left
    intro t ht
    simp only [Function.comp_apply, hspan t.span (h.2 t ht)]

end Syntax.Arena

namespace Chain

variable {a : Arena} {text : List Char} {m : NodeId} {t : Token}

/-- Without line feeds nothing moves. -/
theorem Consistent.moved_nil (h : Consistent text a) : a.moved [] text = a := by
  have hspan : ∀ s : Span, s.LiesOn text → s.moved [] text = s := by
    intro s hs
    simp only [Span.moved, List.countP_nil, Nat.add_zero, ite_self, ← hs.startPos, ← hs.stopPos]
  have hnodes : a.nodes.map (fun node => { node with span := node.span.moved [] text }) =
      a.nodes.map id := by
    apply Array.map_congr_left
    intro node hnode
    obtain ⟨i, hi⟩ := Array.getElem?_of_mem hnode
    rw [hspan _ (h.node i node hi), id_eq]
  have htokens : a.tokens.map (fun t => { t with span := t.span.moved [] text }) =
      a.tokens.map id := by
    apply Array.map_congr_left
    intro t ht
    rw [hspan _ (h.token t ht), id_eq]
  rw [Arena.moved, hnodes, htokens, Array.map_id, Array.map_id]

section Moved

variable {feeds : List Nat} {broken : List Char}

theorem isBetween_moved (hl : a.Linked) (hs : a.Solid) {object property : NodeId} {optional : Bool}
    (hk : a.kind? m = some (.member object property false optional)) (ht : t ∈ a.tokens) :
    isBetween (a.moved feeds broken) object property { t with span := t.span.moved feeds broken } =
      isBetween a object property t := by
  have hchild : ∀ c ∈ [object, property], ∃ k, a.kind? c = some k := by
    intro c hc
    obtain ⟨node, hn, -⟩ := Option.bind_eq_some_iff.mp (hl.parent hk hc)
    exact ⟨node.kind, by rw [Arena.kind?, hn]; rfl⟩
  obtain ⟨k, hobject⟩ := hchild object (by simp)
  obtain ⟨k', hproperty⟩ := hchild property (by simp)
  simp only [isBetween, isAccess, Arena.span_moved hobject, Arena.span_moved hproperty,
    Span.moved_of_lt (hs.span hobject), Span.moved_of_lt (hs.span hproperty),
    Span.moved_of_lt (hs.2 t ht), Text.before_le_behind_iff, Text.behind_lt_behind_iff]

/-- The operators of a moved tree are the moved operators. -/
theorem operatorOf_moved_iff (hl : a.Linked) (hs : a.Solid) {t' : Token} :
    OperatorOf (a.moved feeds broken) m t' ↔
      ∃ t, OperatorOf a m t ∧ { t with span := t.span.moved feeds broken } = t' := by
  have hshape := Arena.moved_sameShape feeds broken a
  constructor
  · rintro ⟨⟨call, hcalled⟩, hmem, object, property, optional, hk, hbetween⟩
    obtain ⟨t, ht, rfl⟩ := Array.mem_map.mp hmem
    rw [hshape.kind?] at hk
    rw [isBetween_moved hl hs hk ht] at hbetween
    exact ⟨t, ⟨⟨call, (calledBy_of_sameShape hshape).mp hcalled⟩, ht, object, property, optional, hk,
      hbetween⟩, rfl⟩
  · rintro ⟨t, ⟨⟨call, hcalled⟩, ht, object, property, optional, hk, hbetween⟩, rfl⟩
    refine ⟨⟨call, (calledBy_of_sameShape hshape).mpr hcalled⟩, Array.mem_map.mpr ⟨t, ht, rfl⟩, object,
      property, optional, ?_, ?_⟩
    · rw [hshape.kind?, hk]
    · rw [isBetween_moved hl hs hk ht, hbetween]

theorem OperatorsInside.moved (h : OperatorsInside a) (hl : a.Linked) (hs : a.Solid) :
    OperatorsInside (a.moved feeds broken) := by
  intro m t' ht'
  obtain ⟨t, ht, rfl⟩ := (operatorOf_moved_iff hl hs).mp ht'
  obtain ⟨object, property, optional, hk, -⟩ := ht.between
  rw [Arena.span_moved hk, Span.moved_of_lt (hs.span hk), Span.moved_of_lt (hs.2 t ht.mem)]
  exact (Text.behind_lt_before_iff feeds).mpr (h m t ht)

end Moved

theorem Consistent.spread (h : Consistent text a) (hs : a.Solid)
    (hascii : ∀ c ∈ text, c.utf8Size = 1) (feeds : List Nat) :
    Consistent (Text.spread feeds text) (a.moved feeds (Text.spread feeds text)) where
  linked := (Arena.moved_sameShape _ _ a).linked h.linked
  sorted := by
    rw [Arena.Sorted, Arena.moved, Array.toList_map, List.pairwise_map]
    refine List.Pairwise.imp_of_mem ?_ h.sorted
    intro t u ht hu hle
    rw [Array.mem_toList_iff] at ht hu
    rw [Span.moved_of_lt (hs.2 t ht), Span.moved_of_lt (hs.2 u hu)]
    exact (Text.behind_le_behind_iff feeds).mpr hle
  node := by
    intro i node hn
    rw [Arena.node?_moved] at hn
    obtain ⟨old, hold, rfl⟩ := Option.map_eq_some_iff.mp hn
    exact (h.node i old hold).spread (hs.1 old (Array.mem_of_getElem? hold)) hascii feeds
  token := by
    intro t' ht'
    obtain ⟨t, ht, rfl⟩ := Array.mem_map.mp ht'
    exact (h.token t ht).spread (hs.2 t ht) hascii feeds
  operator := by
    intro m call hcalled
    obtain ⟨t, ht⟩ := h.operator m call ((calledBy_of_sameShape (Arena.moved_sameShape _ _ a)).mp hcalled)
    exact ⟨_, (operatorOf_moved_iff h.linked hs).mpr ⟨t, ht, rfl⟩⟩
  own := by
    intro m m' u u' hu hu' hstart
    obtain ⟨t, ht, rfl⟩ := (operatorOf_moved_iff h.linked hs).mp hu
    obtain ⟨t', ht', rfl⟩ := (operatorOf_moved_iff h.linked hs).mp hu'
    rw [Span.moved_of_lt (hs.2 t ht.mem), Span.moved_of_lt (hs.2 t' ht'.mem)] at hstart
    exact h.own m m' t t' ht ht' (Text.behind_injective feeds hstart)

/-- The links of a tree, each with the starts of its operators. -/
def operatorList (a : Arena) : List (NodeId × Nat) :=
  (List.range a.size).flatMap fun m =>
    match methodCall? a m, a.kind? m with
    | some _, some (.member object property false _) =>
      (a.tokens.toList.filter (isBetween a object property)).map fun t => (m, t.span.start)
    | _, _ => []

theorem mem_operatorList_iff {p : Nat} :
    (m, p) ∈ operatorList a ↔ ∃ t, OperatorOf a m t ∧ t.span.start = p := by
  rw [operatorList, List.mem_flatMap]
  constructor
  · rintro ⟨m', -, hmem⟩
    split at hmem
    · next call object property optional hcall hk =>
      obtain ⟨t, ht, hpair⟩ := List.mem_map.mp hmem
      obtain ⟨rfl, rfl⟩ := Prod.mk.inj hpair
      obtain ⟨ht, hbetween⟩ := List.mem_filter.mp ht
      exact ⟨t, ⟨⟨call, methodCall?_eq_some_iff.mp hcall⟩, Array.mem_toList_iff.mp ht, object, property,
        optional, hk, hbetween⟩, rfl⟩
    · cases hmem
  · rintro ⟨t, ⟨⟨call, hcalled⟩, ht, object, property, optional, hk, hbetween⟩, rfl⟩
    refine ⟨m, List.mem_range.mpr hcalled.lt_size, ?_⟩
    rw [methodCall?_eq_some_iff.mpr hcalled, hk]
    exact List.mem_map.mpr
      ⟨t, List.mem_filter.mpr ⟨Array.mem_toList_iff.mpr ht, hbetween⟩, rfl⟩

theorem operatorsInside_iff :
    OperatorsInside a ↔ ∀ x ∈ operatorList a, x.2 < (a.span x.1).stop := by
  constructor
  · rintro h ⟨m, p⟩ hmem
    obtain ⟨t, ht, rfl⟩ := mem_operatorList_iff.mp hmem
    exact h m t ht
  · intro h m t ht
    exact h _ (mem_operatorList_iff.mpr ⟨t, ht, rfl⟩)

instance (a : Arena) : Decidable (OperatorsInside a) := decidable_of_iff _ operatorsInside_iff.symm

instance (s : Span) (text : List Char) : Decidable (s.LiesOn text) :=
  decidable_of_iff (Text.isBoundary s.start text = true ∧ Text.isBoundary s.stop text = true ∧
      s.startPos = Text.positionAt s.start text ∧ s.stopPos = Text.positionAt s.stop text)
    ⟨fun ⟨hstart, hstop, hfrom, hto⟩ => ⟨hstart, hstop, hfrom, hto⟩,
      fun h => ⟨h.start, h.stop, h.startPos, h.stopPos⟩⟩

/-- A text of one-byte characters and its tree, which are consistent, with the offsets of all operators.
No node or token is empty, and no operator is a line feed. -/
structure IsSample (text : List Char) (tree : Arena) (ops : List Nat) : Prop where
  oneByte : text.all (·.utf8Size = 1) = true
  linked : tree.Linked
  sorted : tree.Sorted
  nodes : ∀ node ∈ tree.nodes, node.span.LiesOn text
  tokens : ∀ t ∈ tree.tokens, t.span.LiesOn text
  solid : tree.Solid
  starts : (operatorList tree).map (·.2) = ops
  operator : ∀ m < tree.size, (methodCall? tree m).isSome = true →
    m ∈ (operatorList tree).map (·.1)
  own : ∀ x ∈ operatorList tree, ∀ y ∈ operatorList tree, x.2 = y.2 → x.1 = y.1
  plain : ∀ p ∈ ops, text[p]?.any (· ≠ '\n') = true

instance (text : List Char) (tree : Arena) (ops : List Nat) : Decidable (IsSample text tree ops) :=
  decidable_of_iff (text.all (·.utf8Size = 1) = true ∧ tree.Linked ∧ tree.Sorted ∧
      (∀ node ∈ tree.nodes, node.span.LiesOn text) ∧ (∀ t ∈ tree.tokens, t.span.LiesOn text) ∧
      tree.Solid ∧ (operatorList tree).map (·.2) = ops ∧
      (∀ m < tree.size, (methodCall? tree m).isSome = true → m ∈ (operatorList tree).map (·.1)) ∧
      (∀ x ∈ operatorList tree, ∀ y ∈ operatorList tree, x.2 = y.2 → x.1 = y.1) ∧
      ∀ p ∈ ops, text[p]?.any (· ≠ '\n') = true)
    ⟨fun ⟨h₁, h₂, h₃, h₄, h₅, h₆, h₇, h₈, h₉, h₁₀⟩ => ⟨h₁, h₂, h₃, h₄, h₅, h₆, h₇, h₈, h₉, h₁₀⟩,
      fun ⟨h₁, h₂, h₃, h₄, h₅, h₆, h₇, h₈, h₉, h₁₀⟩ => ⟨h₁, h₂, h₃, h₄, h₅, h₆, h₇, h₈, h₉, h₁₀⟩⟩

namespace IsSample

variable {text : List Char} {tree : Arena} {ops : List Nat} (h : IsSample text tree ops)
include h

theorem ascii : ∀ c ∈ text, c.utf8Size = 1 := by
  simpa using h.oneByte

theorem consistent : Consistent text tree where
  linked := h.linked
  sorted := h.sorted
  node := fun _ node hn => h.nodes node (Array.mem_of_getElem? hn)
  token := h.tokens
  operator := by
    intro m call hcalled
    have hlink := methodCall?_eq_some_iff.mpr hcalled
    have hmem := h.operator m hcalled.lt_size (by rw [hlink]; rfl)
    obtain ⟨⟨_, p⟩, hpair, rfl⟩ := List.mem_map.mp hmem
    obtain ⟨t, ht, -⟩ := mem_operatorList_iff.mp hpair
    exact ⟨t, ht⟩
  own := by
    intro m m' t t' ht ht' hstart
    exact h.own _ (mem_operatorList_iff.mpr ⟨t, ht, rfl⟩) _ (mem_operatorList_iff.mpr ⟨t', ht', rfl⟩)
      hstart

theorem start_mem {m : NodeId} {t : Token} (ht : OperatorOf tree m t) : t.span.start ∈ ops := by
  rw [← h.starts]
  exact List.mem_map.mpr ⟨(m, t.span.start), mem_operatorList_iff.mpr ⟨t, ht, rfl⟩, rfl⟩

theorem exists_char {p : Nat} (hp : p ∈ ops) : ∃ c, text[p]? = some c ∧ c ≠ '\n' := by
  simpa [Option.any_eq_true] using h.plain p hp

theorem lt_length {p : Nat} (hp : p ∈ ops) : p < text.length := by
  obtain ⟨c, hc, -⟩ := h.exists_char hp
  exact (List.getElem?_eq_some_iff.mp hc).1

end IsSample

structure Sample where
  text : List Char
  tree : Arena
  ops : List Nat
  isSample : IsSample text tree ops

namespace Sample

variable (s : Sample)

/-- Reads the copies of the text. -/
def parse (content : String) : Except ParseFault Arena :=
  match Text.feedsFrom s.ops 0 s.text content.toList with
  | some feeds => .ok (s.tree.moved feeds content.toList)
  | none => .error .noTree

theorem parse_eq_ok_iff {content : String} {tree : Arena} :
    s.parse content = .ok tree ↔ ∃ feeds, (∀ p ∈ feeds, p ∈ s.ops) ∧
      content.toList = Text.spread feeds s.text ∧ tree = s.tree.moved feeds content.toList := by
  unfold parse
  constructor
  · intro h
    split at h
    · next feeds hfeeds =>
      obtain ⟨hcopy, hmem⟩ := Text.eq_spreadFrom_of_feedsFrom hfeeds
      exact ⟨feeds, fun p hp => (hmem p hp).1, hcopy, (Except.ok.inj h).symm⟩
    · cases h
  · rintro ⟨feeds, hops, hcopy, rfl⟩
    obtain ⟨found, hfound, hcount⟩ := @Text.exists_feedsFrom_spreadFrom s.ops 0 s.text feeds hops
      fun i c hc hmem => by
        obtain ⟨d, hd, hne⟩ := s.isSample.exists_char (show i ∈ s.ops by simpa using hmem)
        rwa [Option.some.inj (hc.symm.trans hd)]
    have hperm : found.Perm feeds := by
      apply List.perm_iff_count.mpr
      intro q
      by_cases hq : q < s.text.length
      · exact hcount q (Nat.zero_le q) (by simpa using hq)
      · have hout : ∀ qs : List Nat, (∀ p ∈ qs, p ∈ s.ops) → qs.count q = 0 := fun qs hqs =>
          List.count_eq_zero.mpr fun hmem =>
            hq (s.isSample.lt_length (hqs q hmem))
        rw [hout feeds hops, hout found fun p hp =>
          ((Text.eq_spreadFrom_of_feedsFrom hfound).2 p hp).1]
    rw [hcopy, Text.spread, hfound]
    exact congrArg Except.ok (Arena.moved_perm hperm)

theorem parse_of_toList {content : String} (h : content.toList = s.text) :
    s.parse content = .ok s.tree := by
  have hspread : ∀ offset cs, Text.spreadFrom [] offset cs = cs := by
    intro offset cs
    induction cs generalizing offset with
    | nil => rfl
    | cons c cs ih =>
      rw [Text.spreadFrom, ih]
      rfl
  refine s.parse_eq_ok_iff.mpr ⟨[], by simp, ?_, ?_⟩
  · rw [h, Text.spread, hspread]
  · rw [h, s.isSample.consistent.moved_nil]

/-- Line feeds before operators of a copy give another copy, with the tree moved. -/
theorem feedStable_parse : FeedStable s.parse where
  consistent := by
    intro content tree h
    obtain ⟨feeds, -, hcopy, rfl⟩ := s.parse_eq_ok_iff.mp h
    rw [hcopy]
    exact s.isSample.consistent.spread s.isSample.solid s.isSample.ascii feeds
  moved := by
    intro content tree places h hnodup hplaces
    obtain ⟨feeds, hops, hcopy, rfl⟩ := s.parse_eq_ok_iff.mp h
    -- Each place is where an operator of the text has got to.
    have horigin : ∀ p ∈ places, ∃ q, q ∈ s.ops ∧ Text.behind feeds q = p := by
      intro p hp
      obtain ⟨m, t', ht', rfl⟩ := hplaces p hp
      obtain ⟨t, ht, rfl⟩ := (operatorOf_moved_iff s.isSample.consistent.linked s.isSample.solid).mp ht'
      refine ⟨t.span.start, s.isSample.start_mem ht, ?_⟩
      rw [Span.moved_of_lt (s.isSample.solid.2 t ht.mem)]
    choose! origin hmem hbehind using horigin
    obtain ⟨origins, rfl, horigins⟩ : ∃ origins : List Nat,
        places = origins.map (Text.behind feeds) ∧ ∀ q ∈ origins, q ∈ s.ops := by
      refine ⟨places.map origin, ?_, List.forall_mem_map.mpr hmem⟩
      rw [List.map_map]
      exact ((List.map_congr_left hbehind).trans (List.map_id places)).symm
    have hbroken := Text.breakBefore_spread feeds (List.Nodup.of_map _ hnodup) s.isSample.ascii
      fun q hq => s.isSample.lt_length (horigins q hq)
    rw [hcopy, hbroken]
    refine s.parse_eq_ok_iff.mpr ⟨feeds ++ origins, ?_, ?_, ?_⟩
    · exact fun p hp => (List.mem_append.mp hp).elim (hops p) (horigins p)
    · rw [String.toList_ofList]
    · rw [String.toList_ofList, Arena.moved_moved s.isSample.solid]

theorem operatorsInside_of_parse (h : OperatorsInside s.tree) (content : String) (tree : Arena)
    (hp : s.parse content = .ok tree) : OperatorsInside tree := by
  obtain ⟨feeds, -, -, rfl⟩ := s.parse_eq_ok_iff.mp hp
  exact h.moved s.isSample.consistent.linked s.isSample.solid

/-- A linter for the copies of the text. -/
def linter (settings : Settings) : Linter where
  root := ⟨"."⟩
  base := ⟨"."⟩
  rules := [rule settings]
  frontEnds := [⟨[".js"], s.parse⟩]
  exclude := []
  config := {}
  failOnParseError := false

end Sample

end Chain

namespace Chain.SingleLink

def text : List Char := "a.b()".toList

def spanIn (start stop : Nat) : Span :=
  ⟨start, stop, Text.positionAt start text, Text.positionAt stop text⟩

/-- The tree of `a.b()`, in which the link ends at `stop`. -/
def tree (stop : Nat) : Arena where
  nodes := #[⟨.program [1], spanIn 0 5, none⟩, ⟨.expressionStatement 2, spanIn 0 5, some 0⟩,
    ⟨.call 3 [] false, spanIn 0 5, some 1⟩, ⟨.member 4 5 false false, spanIn 0 stop, some 2⟩,
    ⟨.identifier "a", spanIn 0 1, some 3⟩, ⟨.identifier "b", spanIn 2 3, some 3⟩]
  tokens := #[⟨"identifier", spanIn 0 1⟩, ⟨".", spanIn 1 2⟩, ⟨"property_identifier", spanIn 2 3⟩,
    ⟨"(", spanIn 3 4⟩, ⟨")", spanIn 4 5⟩]
  root := 0

def sample : Sample := ⟨text, tree 3, [1], by decide +kernel⟩

/-- The link ends with its object, before its operator. -/
def cutShort : Sample := ⟨text, tree 1, [1], by decide +kernel⟩

/-- A linter for the copies of `a.b()` that accepts no chain on one line. -/
def linter : Linter := sample.linter { threshold := 0 }

end Chain.SingleLink

end CallChain
