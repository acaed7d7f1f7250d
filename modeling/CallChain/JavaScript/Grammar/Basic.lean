import CallChain.JavaScript.Concrete
import CallChain.JavaScript.Lexeme
import CallChain.JavaScript.Semicolon

/-!
The common ground of the grammar: faults, the reading of tokens, and the phrases through which its parts
refer to each other. A token is read together with the gap before it, so that between two tokens the
place is always the end of the first.
-/
namespace CallChain.JavaScript

/-- Why a text is not a program. -/
inductive Fault where
  /-- The text ends inside a construct. -/
  | unfinished
  /-- A token that cannot start a statement stands where one should. -/
  | stray (position : Position)
  /-- What has to follow the last token does not. -/
  | missing (position : Position)
  deriving DecidableEq, Repr

abbrev Parser (α : Type) := StateT Place (Except Fault) α

/-- The phrases that parts of the grammar ask of each other. -/
inductive Phrase where
  | statement
  /-- A single expression. -/
  | expression
  /-- One or more expressions with commas between them. -/
  | expressions
  /-- An expression whose operators bind at least as tightly as the level says. -/
  | operand (level : Nat)
  /-- A prefix operator with its operand, or an operand that has none. -/
  | unary
  /-- A target of an assignment or a parameter. -/
  | pattern
  /-- Statements in braces; `inExpression` tells that an operator may follow. -/
  | block (inExpression : Bool)
  /-- An element of markup. -/
  | element

/-- How the parts of the grammar reach its phrases, and how often a loop may turn. -/
structure Scope where
  phrase : Phrase → Parser Concrete
  limit : Nat

namespace Grammar

/-- The text behind the gap, which is not passed. -/
def upcoming : Parser (List Char) := do return (← get).afterGap.rest

/-- The next token starts with these characters. -/
def nextIs (text : String) : Parser Bool := do return text.toList.isPrefixOf (← upcoming)

/-- The next token is this word. -/
def nextIsWord (word : String) : Parser Bool := do return startsWithName word (← upcoming)

/-- A line break stands before the next token. -/
def breakAhead : Parser Bool := do
  let p ← get
  return p.line < p.afterGap.line

/-- What has to follow does not. -/
def fail {α : Type} : Parser α := do
  let p ← get
  throw (if p.atEnd then .unfinished else .missing p.position)

/-- The first of two readings that succeeds; if none does, the fault of the first, unless the text ends
inside the second. -/
def orElse {α : Type} (first second : Parser α) : Parser α := fun p =>
  match first p with
  | .ok r => .ok r
  | .error e =>
    match second p with
    | .ok r => .ok r
    | .error .unfinished => .error .unfinished
    | .error _ => .error e

/-- A leaf of `n` characters at the very place. -/
def leaf (kind : String) (named : Bool) (n : Nat) : Parser Concrete := fun p =>
  let q := p.skip n
  .ok (.node { kind, named, extra := false, role := none, span := p.spanTo q } [], q)

/-- A leaf of `n` characters behind the gap. -/
def leafAhead (kind : String) (named : Bool) (n : Nat) : Parser Concrete := do
  modify Place.afterGap
  leaf kind named n

/-- A punctuator. -/
def token (text : String) : Parser Concrete := do
  if ← nextIs text then leafAhead text false text.length else fail

def token? (text : String) : Parser (List Concrete) := do
  if ← nextIs text then return [← leafAhead text false text.length] else return []

/-- A keyword. -/
def keyword (word : String) : Parser Concrete := do
  if ← nextIsWord word then leafAhead word false word.length else fail

def keyword? (word : String) : Parser (List Concrete) := do
  if ← nextIsWord word then return [← leafAhead word false word.length] else return []

/-- Any word, as a leaf of the given kind. -/
def name (kind : String) : Parser Concrete := do
  let n := nameLength (← upcoming)
  if n = 0 then fail else leafAhead kind true n

/-- A construct from its first to its last child. -/
def construct (kind : String) (children : List Concrete) : Concrete :=
  let first := (children.head?.map Concrete.span).getD default
  let last := (children.getLast?.map Concrete.span).getD default
  .node
    { kind, named := true, extra := false, role := none
      span := ⟨first.start, last.stop, first.startPos, last.stopPos⟩ }
    children

/-- A construct from its first child up to a place. -/
def constructTo (kind : String) (children : List Concrete) (stop : Place) : Concrete :=
  let first := (children.head?.map Concrete.span).getD default
  .node
    { kind, named := true, extra := false, role := none
      span := ⟨first.start, stop.offset, first.startPos, stop.position⟩ }
    children

/-- Reads items until there is none. -/
def many (item : Parser (Option (List Concrete))) : Nat → Parser (List Concrete)
  | 0 => fail
  | n + 1 => do
    match ← item with
    | none => return []
    | some nodes => return nodes ++ (← many item n)

/-- Items up to the closing token, with commas between them. A comma may also stand without an item
before it. -/
def commaSeparated (limit : Nat) (close : String) (item : Parser Concrete) :
    Parser (List Concrete) :=
  many (do
    if ← nextIs close then return none
    else if ← nextIs "," then return some [← token ","]
    else
      let node ← item
      if ← nextIs close then return some [node]
      else return some [node, ← token ","]) limit

/-- The text ends here, but for a gap. -/
def atEnd : Parser Bool := do return (← get).atEnd

/-- The brace that closes a body. If the text ends instead, it is missing behind the last token. -/
def closingBrace : Parser Concrete := do
  let p ← get
  if p.atEnd then throw (.missing p.position) else token closeBrace

/-- The semicolon of a statement, written or left out. Either way the place afterwards is the end of the
statement. -/
def semicolon (inExpression : Bool) : Parser (List Concrete) := do
  if ← nextIs ";" then return [← token ";"]
  else
    let p ← get
    match omittedSemicolon? inExpression (p.rest.length + 1) p with
    | some q => set q; return []
    | none => fail

/-- A semicolon that is left out behind a closing brace, where none is needed. -/
def looseSemicolon (inExpression : Bool) : Parser Unit := do
  let p ← get
  match omittedSemicolon? inExpression (p.rest.length + 1) p with
  | some q => set q
  | none => return ()

end Grammar

end CallChain.JavaScript
