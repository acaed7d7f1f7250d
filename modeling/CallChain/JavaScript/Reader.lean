import CallChain.JavaScript.Abstraction
import CallChain.JavaScript.Grammar.Statement
import CallChain.JavaScript.Walk

/-!
Reading a JavaScript text. The grammar describes each phrase in terms of the phrases inside it; unrolled
often enough it reads a text of any depth of nesting.
-/
namespace CallChain.JavaScript

namespace Grammar

/-- The grammar: each phrase, given the phrases inside it. -/
def phrase (s : Scope) : Phrase → Parser Concrete
  | .statement => statement s
  | .expression => expressionAt s Operator.conditionalLevel
  | .expressions => expressions s
  | .operand level => expressionAt s level
  | .unary => unary s
  | .pattern => pattern s
  | .block inExpression => block s inExpression
  | .element => markupElement s

/-- The grammar, unrolled `depth` times. -/
def unrolled : Nat → Phrase → Parser Concrete
  | 0, _ => fail
  | depth + 1, p => phrase { phrase := unrolled depth, limit := depth } p

/-- The comments in the gap at a place. -/
def commentsAhead : Nat → Place → List Concrete
  | 0, _ => []
  | n + 1, p =>
    let start := p.skip (spaceLength p.rest)
    match commentLength? start.rest with
    | none => []
    | some k =>
      let stop := start.skip k
      .node { kind := "comment", named := true, extra := true, role := none, span := start.spanTo stop } []
        :: commentsAhead n stop

/-- Statements and the comments between them, up to the end of the text. -/
def programBody (depth : Nat) : Nat → Parser (List Concrete)
  | 0 => fail
  | n + 1 => do
    let p ← get
    let comments := commentsAhead depth p
    if p.atEnd then return comments
    else
      let first ← unrolled depth .statement
      return comments ++ first :: (← programBody depth n)

/-- The line `#!…` that may come first. -/
def hashBang : Parser (List Concrete) := do
  match ← upcoming with
  | '#' :: '!' :: rest =>
    return [← leafAhead "hash_bang_line" true (2 + (rest.takeWhile (· ≠ '\n')).length)]
  | _ => return []

/-- How deep the grammar has to be unrolled for a text: between two characters only a few phrases start
at one place. -/
def depthFor (text : List Char) : Nat := 8 * (text.length + 2)

/-- The whole program. It starts at the first character that is not blank and reaches to the end. -/
def program (text : List Char) : Except Fault Concrete := do
  let depth := depthFor text
  let start := (Place.start text).skip (spaceLength text)
  let (children, _) ← (do
    let first ← hashBang
    return first ++ (← programBody depth depth)).run start
  let stop := (Place.start text).skip text.length
  return .node
    { kind := "program", named := true, extra := false, role := none, span := start.spanTo stop }
    children

end Grammar

/-- Where a fault is reported. An unfinished text is at fault as a whole. -/
def Fault.position (text : List Char) : Fault → Position
  | .unfinished => ((Place.start text).skip (spaceLength text)).position
  | .stray position | .missing position => position

/-- The abstract tree and the tokens of a text, in an arena. -/
def read (source : String) : Except Position Syntax.Arena :=
  let text := source.toList
  match Grammar.program text with
  | .ok tree => .ok ((tree.abstract text).toArena tree.tokens)
  | .error fault => .error (fault.position text)

end CallChain.JavaScript
