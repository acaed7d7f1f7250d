import CallChain.Proofs.JavaScript.Abstraction
import CallChain.Proofs.JavaScript.ChainTree
import CallChain.Proofs.JavaScript.Walk

/-!
# The abstract tree and the tokens of a chain

Each link of a chain becomes a call of a member access, whose object is the chain of the links before it.
All of these start where the chain starts. The tokens of a link come behind those of the links before it,
and in the order of the text.
-/
namespace CallChain.JavaScript

open CallChain.Syntax Grammar

namespace Concrete

theorem tree_part_as (text : List Char) (c : Concrete) (role : Role) :
    ((c.as role).part text).tree = c.abstract text := by
  obtain ⟨l, cs⟩ := c
  rfl

end Concrete

namespace Part

theorem callTree_eq {l : Label} {ps : List Part} {callee arguments : Part}
    (hcallee : withRole? .function ps = some callee)
    (harguments : withRole? .arguments ps = some arguments)
    (hkind : arguments.label.kind = "arguments") :
    callTree l ps = .call l.span callee.tree (trees arguments.children) (isOptional ps) := by
  rw [callTree, hcallee, harguments]
  simp [Option.filter, hkind]

theorem memberTree_eq {l : Label} {ps : List Part} {object last : Part} {name : Role}
    (hobject : withRole? .object ps = some object) (hlast : withRole? name ps = some last)
    (computed : Bool) :
    memberTree l ps computed name = .member l.span object.tree last.tree computed (isOptional ps) := by
  rw [memberTree, hobject, hlast]

theorem shape_of_statement (text : List Char) {l : Label} {ps : List Part} {e : Part}
    (hkind : l.kind = "expression_statement") (hfirst : (proper ps).head? = some e) :
    shape text l ps = .expressionStatement l.span e.tree := by
  unfold shape
  simp only [hkind, hfirst]

end Part

/-- The abstract tree of a name where it stands as an operand. -/
def operandTree (name : List Char) : Tree :=
  if operandKind name = "identifier" then .identifier (spanOf [] name) (String.ofList name)
  else .other (spanOf [] name) (operandKind name) []

/-- The abstract tree of a chain. -/
def chainTree (glue base : List Char) : List (List Char) → Tree
  | [] => operandTree base
  | name :: earlier =>
    let before := chain glue base earlier
    .call (spanOf [] (chain glue base (name :: earlier)))
      (.member (spanOf [] (before ++ glue ++ ['.'] ++ name)) (chainTree glue base earlier)
        (.identifier (spanOf (before ++ glue ++ ['.']) name) (String.ofList name)) false false)
      [] false

def programTree (glue base : List Char) (names : List (List Char)) : Tree :=
  .program (spanOf [] (chain glue base names))
    [.expressionStatement (spanOf [] (chain glue base names)) (chainTree glue base names)]

section Abstract

variable (text : List Char) {glue base before name rest : List Char}

theorem abstract_callNode {callee : Concrete} (hkind : callee.kind = "member_expression") :
    (callNode before callee).abstract text =
      .call (callNode before callee).span (callee.abstract text) [] false := by
  obtain ⟨l, cs⟩ := callee
  have hkind : l.kind = "member_expression" := hkind
  let parts := [((Concrete.node l cs).as .function).part text,
    ((argumentsNode before).as .arguments).part text]
  have hcallee : Part.withRole? .function parts = some (((Concrete.node l cs).as .function).part text) :=
    rfl
  have harguments : Part.withRole? .arguments parts =
      some (((argumentsNode before).as .arguments).part text) := rfl
  have hoptional : Part.isOptional parts = false := by
    simp [parts, Part.isOptional, Concrete.label_part, Concrete.as, Concrete.label, argumentsNode,
      construct, hkind]
  change Part.callTree (callNode before (.node l cs)).label parts = _
  rw [Part.callTree_eq hcallee harguments rfl, Concrete.tree_part_as, hoptional]
  rfl

theorem abstract_memberNode {left : Concrete}
    (hkind : left.kind ≠ "optional_chain" ∧ left.kind ≠ "?.") :
    (memberNode glue before name left).abstract text =
      .member (memberNode glue before name left).span (left.abstract text)
        ((leafAt "property_identifier" true (before ++ glue ++ ['.']) name).abstract text) false
        false := by
  obtain ⟨l, cs⟩ := left
  have hkind : l.kind ≠ "optional_chain" ∧ l.kind ≠ "?." := hkind
  let key := leafAt "property_identifier" true (before ++ glue ++ ['.']) name
  let parts := [((Concrete.node l cs).as .object).part text,
    (leafAt "." false (before ++ glue) ['.']).part text, (key.as .property).part text]
  have hobject : Part.withRole? .object parts = some (((Concrete.node l cs).as .object).part text) := rfl
  have hlast : Part.withRole? .property parts = some ((key.as .property).part text) := rfl
  have hoptional : Part.isOptional parts = false := by
    simp [parts, key, Part.isOptional, Concrete.label_part, Concrete.as, Concrete.label, leafAt, hkind]
  change Part.memberTree (memberNode glue before name (.node l cs)).label parts false .property = _
  rw [Part.memberTree_eq hobject hlast, Concrete.tree_part_as, Concrete.tree_part_as, hoptional]
  rfl

theorem slice?_spanOf (before word rest : List Char) :
    Text.slice? (spanOf before word).start (spanOf before word).stop (before ++ (word ++ rest)) =
      some word :=
  Text.slice?_eq_some_iff.mpr ⟨before, rest, rfl, rfl, (Text.byteLength_append before word).symm⟩

theorem abstract_property (before name rest : List Char) :
    (leafAt "property_identifier" true before name).abstract (before ++ (name ++ rest)) =
      .identifier (spanOf before name) (String.ofList name) := by
  change Tree.identifier (spanOf before name) (String.ofList ((Text.slice? _ _ _).getD [])) = _
  rw [slice?_spanOf]
  rfl

theorem operandKind_cases (base : List Char) :
    operandKind base = "identifier" ∨ operandKind base ∈ constantWords := by
  rw [operandKind]
  split
  · next h => exact Or.inr (List.contains_iff_mem.mp h)
  · exact Or.inl rfl

/-- The base of a chain is no `?.`. -/
theorem operandKind_ne (base : List Char) :
    operandKind base ≠ "optional_chain" ∧ operandKind base ≠ "?." := by
  rcases operandKind_cases base with hkind | hkind
  · rw [hkind]
    decide
  · generalize operandKind base = kind at hkind
    simp only [constantWords, List.mem_cons, List.not_mem_nil, or_false] at hkind
    rcases hkind with rfl | rfl | rfl | rfl | rfl | rfl <;> decide

theorem abstract_operand (base rest : List Char) :
    (leafAt (operandKind base) true [] base).abstract (base ++ rest) = operandTree base := by
  rw [operandTree]
  rcases operandKind_cases base with hkind | hkind
  · rw [hkind, if_pos rfl]
    change Tree.identifier (spanOf [] base) (String.ofList ((Text.slice? _ _ _).getD [])) = _
    have hslice := slice?_spanOf [] base rest
    rw [List.nil_append] at hslice
    rw [hslice]
    rfl
  · generalize operandKind base = kind at hkind
    simp only [constantWords, List.mem_cons, List.not_mem_nil, or_false] at hkind
    rcases hkind with rfl | rfl | rfl | rfl | rfl | rfl <;> rfl

theorem span_memberNode {left : Concrete} (h : left.span = spanOf [] before) :
    (memberNode glue before name left).span = spanOf [] (before ++ glue ++ ['.'] ++ name) := by
  obtain ⟨l, cs⟩ := left
  have h : l.span = spanOf [] before := h
  simp only [memberNode, construct, Concrete.span, Concrete.label, Concrete.as, leafAt, h,
    List.head?_cons, List.getLast?_cons, Option.map_some, Option.getD_some]
  rfl

theorem span_callNode {callee : Concrete} (h : callee.span = spanOf [] before) :
    (callNode before callee).span = spanOf [] (before ++ ['('] ++ [')']) := by
  obtain ⟨l, cs⟩ := callee
  have h : l.span = spanOf [] before := h
  simp only [callNode, argumentsNode, construct, Concrete.span, Concrete.label, Concrete.as, leafAt, h,
    List.head?_cons, List.getLast?_cons, Option.map_some, Option.getD_some]
  rfl

theorem chain_cons (glue base name : List Char) (earlier : List (List Char)) :
    chain glue base (name :: earlier) =
      chain glue base earlier ++ glue ++ ['.'] ++ name ++ ['('] ++ [')'] := by
  simp [chain, link]

theorem span_chainNode (glue base : List Char) (names : List (List Char)) :
    (chainNode glue base names).span = spanOf [] (chain glue base names) := by
  cases names with
  | nil => rfl
  | cons name earlier =>
    rw [chainNode, span_callNode (span_memberNode (span_chainNode glue base earlier)), chain_cons]

theorem abstract_chainNode (glue base : List Char) (names : List (List Char)) (rest : List Char) :
    (chainNode glue base names).abstract (chain glue base names ++ rest) =
      chainTree glue base names := by
  induction names generalizing rest with
  | nil => exact abstract_operand base rest
  | cons name earlier ih =>
    have hkind : (chainNode glue base earlier).kind ≠ "optional_chain" ∧
        (chainNode glue base earlier).kind ≠ "?." := by
      cases earlier with
      | nil => exact operandKind_ne base
      | cons first earlier =>
        have hcall : (chainNode glue base (first :: earlier)).kind = "call_expression" := rfl
        rw [hcall]
        decide
    have hspan : (memberNode glue (chain glue base earlier) name (chainNode glue base earlier)).span =
        spanOf [] (chain glue base earlier ++ glue ++ ['.'] ++ name) :=
      span_memberNode (span_chainNode glue base earlier)
    have hobject := ih (link glue name ++ rest)
    have hproperty := abstract_property (chain glue base earlier ++ glue ++ ['.']) name (['(', ')'] ++ rest)
    have htext : chain glue base (name :: earlier) ++ rest =
        chain glue base earlier ++ (link glue name ++ rest) := by simp [chain]
    have htext' : chain glue base earlier ++ (link glue name ++ rest) =
        chain glue base earlier ++ glue ++ ['.'] ++ (name ++ (['(', ')'] ++ rest)) := by simp [link]
    rw [chainNode, abstract_callNode _ rfl, abstract_memberNode _ hkind, span_callNode hspan, hspan,
      htext, hobject, htext', hproperty, chainTree, chain_cons]

theorem abstract_programNode (glue base : List Char) (names : List (List Char)) :
    (programNode glue base names).abstract (chain glue base names) = programTree glue base names := by
  have hchain := abstract_chainNode glue base names []
  rw [List.append_nil] at hchain
  have hspan : (statementNode glue base names).span = spanOf [] (chain glue base names) := by
    change (⟨(chainNode glue base names).span.start, _, (chainNode glue base names).span.startPos, _⟩ :
      Span) = _
    rw [span_chainNode]
    rfl
  have hnamed : ((chainNode glue base names).part (chain glue base names)).isProper = true := by
    rw [Part.isProper, Concrete.label_part]
    cases names <;> rfl
  have hstatement : (statementNode glue base names).abstract (chain glue base names) =
      .expressionStatement (spanOf [] (chain glue base names)) (chainTree glue base names) := by
    have hfirst : (Part.proper [(chainNode glue base names).part (chain glue base names)]).head? =
        some ((chainNode glue base names).part (chain glue base names)) := by
      rw [Part.proper, List.filter_cons_of_pos hnamed]
      rfl
    show Part.shape (chain glue base names) (statementNode glue base names).label _ = _
    refine (Part.shape_of_statement _ rfl hfirst).trans ?_
    rw [← hspan, ← hchain]
    rfl
  change Tree.program _ (Part.trees [(statementNode glue base names).part (chain glue base names)]) = _
  rw [programTree, ← hstatement]
  rfl

end Abstract

/-- The tokens of a link. -/
def linkTokens (glue before name : List Char) : List Token :=
  [⟨".", spanOf (before ++ glue) ['.']⟩,
   ⟨"property_identifier", spanOf (before ++ glue ++ ['.']) name⟩,
   ⟨"(", spanOf (before ++ glue ++ ['.'] ++ name) ['(']⟩,
   ⟨")", spanOf (before ++ glue ++ ['.'] ++ name ++ ['(']) [')']⟩]

/-- The tokens of a chain. -/
def chainTokens (glue base : List Char) : List (List Char) → List Token
  | [] => [⟨operandKind base, spanOf [] base⟩]
  | name :: earlier =>
    chainTokens glue base earlier ++ linkTokens glue (chain glue base earlier) name

theorem leafTokens_chainNode (glue base : List Char) (names : List (List Char)) :
    (chainNode glue base names).leafTokens = chainTokens glue base names := by
  induction names with
  | nil =>
    have hkind := (operandKind_ne base).1
    simp [chainNode, leafAt, Concrete.leafTokens, Concrete.leafToken, hkind, chainTokens]
  | cons name earlier ih =>
    simp [chainNode, callNode, memberNode, argumentsNode, construct, leafAt, Concrete.leafTokens,
      Concrete.leafTokensAll, Concrete.leafTokens_as, Concrete.leafToken, ih, chainTokens, linkTokens]

theorem tokens_programNode (glue base : List Char) (names : List (List Char)) :
    (programNode glue base names).tokens = chainTokens glue base names := by
  rw [Concrete.tokens_eq, ← leafTokens_chainNode]
  simp [programNode, statementNode, constructTo, Concrete.leafTokens, Concrete.leafTokensAll]

/-- A token of a chain starts before the chain ends. -/
theorem start_lt_of_mem_chainTokens {glue base : List Char} (hbase : base ≠ [])
    {names : List (List Char)} (hnames : ∀ m ∈ names, m ≠ []) :
    ∀ t ∈ chainTokens glue base names, t.span.start < Text.byteLength (chain glue base names) := by
  induction names with
  | nil =>
    intro t ht
    obtain rfl := List.mem_singleton.mp ht
    exact Text.byteLength_pos hbase
  | cons name earlier ih =>
    intro t ht
    have hname := Text.byteLength_pos (hnames name List.mem_cons_self)
    rw [chainTokens, List.mem_append] at ht
    rw [chain_cons]
    rcases ht with ht | ht
    · have hlt := ih (fun m hm => hnames m (List.mem_cons_of_mem name hm)) t ht
      simp only [Text.byteLength_append]
      omega
    · simp only [linkTokens, List.mem_cons, List.not_mem_nil, or_false] at ht
      have hdot : Text.byteLength ['.'] = 1 := rfl
      have hopen : Text.byteLength ['('] = 1 := rfl
      have hclose : Text.byteLength [')'] = 1 := rfl
      rcases ht with rfl | rfl | rfl | rfl <;>
        simp only [spanOf, Text.byteLength_append, hdot, hopen, hclose] <;> omega

theorem pairwise_chainTokens {glue base : List Char} (hbase : base ≠ [])
    {names : List (List Char)} (hnames : ∀ m ∈ names, m ≠ []) :
    (chainTokens glue base names).Pairwise fun s t => s.span.start ≤ t.span.start := by
  induction names with
  | nil => exact List.pairwise_singleton _ _
  | cons name earlier ih =>
    have hearlier : ∀ m ∈ earlier, m ≠ [] := fun m hm => hnames m (List.mem_cons_of_mem name hm)
    rw [chainTokens, List.pairwise_append]
    refine ⟨ih hearlier, ?_, fun s hs t ht => ?_⟩
    · simp [linkTokens, spanOf]
    · have hlt := start_lt_of_mem_chainTokens hbase hearlier s hs
      simp only [linkTokens, List.mem_cons, List.not_mem_nil, or_false] at ht
      rcases ht with rfl | rfl | rfl | rfl <;> simp only [spanOf, Text.byteLength_append] <;> omega

end CallChain.JavaScript
