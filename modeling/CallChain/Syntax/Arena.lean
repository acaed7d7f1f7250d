import CallChain.Span

/-!
The syntax tree that rules read: an arena of nodes that refer to each other by number, and the tokens
of the text in the order of their starts. Nothing ties the links, spans and tokens of an arena together;
what a front end promises about them is stated where it is needed.
-/
namespace CallChain.Syntax

/-- Number of a node in its arena. -/
abbrev NodeId := Nat

/-- What a node is, with its children. Constructs that no rule looks at are `other`, under the name that
the front end gives them. -/
inductive NodeKind where
  | program (body : List NodeId)
  | expressionStatement (expression : NodeId)
  | ifStatement (test consequent : NodeId) (alternate : Option NodeId)
  | conditional (test consequent alternate : NodeId)
  | member (object property : NodeId) (computed optional : Bool)
  | call (callee : NodeId) (arguments : List NodeId) (optional : Bool)
  | identifier (name : String)
  | other (kind : String) (children : List NodeId)
  deriving DecidableEq, Repr, Inhabited

namespace NodeKind

def name : NodeKind → String
  | program _ => "Program"
  | expressionStatement _ => "ExpressionStatement"
  | ifStatement .. => "IfStatement"
  | conditional .. => "ConditionalExpression"
  | member .. => "MemberExpression"
  | call .. => "CallExpression"
  | identifier _ => "Identifier"
  | other kind _ => kind

def isMember : NodeKind → Bool
  | member .. => true
  | _ => false

def isCall : NodeKind → Bool
  | call .. => true
  | _ => false

def isIdentifier : NodeKind → Bool
  | identifier _ => true
  | _ => false

/-- The children in the order in which they are stored. -/
def children : NodeKind → List NodeId
  | program body => body
  | expressionStatement e => [e]
  | ifStatement t c a => t :: c :: a.toList
  | conditional t c a => [t, c, a]
  | member o p _ _ => [o, p]
  | call f args _ => f :: args
  | identifier _ => []
  | other _ cs => cs

end NodeKind

structure Node where
  kind : NodeKind
  span : Span
  parent : Option NodeId
  deriving DecidableEq, Repr, Inhabited

/-- A leaf of the text, under its own name: a punctuator or keyword has its text for a name. -/
structure Token where
  kind : String
  span : Span
  deriving DecidableEq, Repr, Inhabited

structure Arena where
  nodes : Array Node
  tokens : Array Token
  root : NodeId
  deriving Repr

/-- Index of the first element from `lo` on that does not satisfy `p`, found by halving; right if the
elements that satisfy `p` come first. -/
def partitionFrom {α : Type} (xs : Array α) (p : α → Bool) (lo hi : Nat) : Nat :=
  if lo < hi then
    let mid := lo + (hi - lo) / 2
    match xs[mid]? with
    | some x => if p x then partitionFrom xs p (mid + 1) hi else partitionFrom xs p lo mid
    | none => lo
  else lo
  termination_by hi - lo

def partitionPoint {α : Type} (xs : Array α) (p : α → Bool) : Nat := partitionFrom xs p 0 xs.size

namespace Arena

def size (a : Arena) : Nat := a.nodes.size

def node? (a : Arena) (id : NodeId) : Option Node := a.nodes[id]?

def kind? (a : Arena) (id : NodeId) : Option NodeKind := (a.node? id).map (·.kind)

/-- The span of a node; a number that is not of this arena has the empty span at the start. -/
def span (a : Arena) (id : NodeId) : Span := ((a.node? id).map (·.span)).getD default

def parent? (a : Arena) (id : NodeId) : Option NodeId := (a.node? id).bind (·.parent)

/-- The node is a plain name. -/
def isIdentifier (a : Arena) (id : NodeId) : Bool := ((a.kind? id).map (·.isIdentifier)).getD false

/-- All member accesses, in ascending order. -/
def members (a : Arena) : List NodeId :=
  (List.range a.size).filter fun id => ((a.kind? id).map (·.isMember)).getD false

/-- Index of the first token that starts at byte `offset` or later. -/
def tokenIndex (a : Arena) (offset : Nat) : Nat :=
  partitionPoint a.tokens fun t => t.span.start < offset

/-- First token that starts at or after the end of a node. -/
def tokenAfter? (a : Arena) (id : NodeId) : Option Token := a.tokens[a.tokenIndex (a.span id).stop]?

end Arena

/-- An arena that is being filled. A node is opened before its children, so that numbers are handed out
in the order in which nodes start, and closed when its children are known. -/
structure Builder where
  nodes : Array Node
  tokens : Array Token
  deriving Repr

namespace Builder

def empty : Builder := ⟨#[], #[]⟩

/-- Kind of a node that is opened and not yet closed. -/
def placeholder : NodeKind := .other "" []

/-- Adds a node; its number is the size before. -/
def openNode (b : Builder) (span : Span) (parent : Option NodeId) : Builder :=
  { b with nodes := b.nodes.push { kind := placeholder, span, parent } }

/-- Sets the kind of a node that was opened. -/
def closeNode (b : Builder) (id : NodeId) (kind : NodeKind) : Builder :=
  { b with nodes := b.nodes.modify id fun node => { node with kind } }

def pushToken (b : Builder) (token : Token) : Builder := { b with tokens := b.tokens.push token }

/-- The finished arena. Tokens are put in the order of their starts, those that start together in the
order in which they came. -/
def finish (b : Builder) (root : NodeId) : Arena where
  nodes := b.nodes
  tokens := (b.tokens.toList.mergeSort fun s t => s.span.start ≤ t.span.start).toArray
  root := root

end Builder

end CallChain.Syntax
