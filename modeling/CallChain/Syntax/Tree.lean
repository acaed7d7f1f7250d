import CallChain.Syntax.Arena

/-!
Syntax trees with their children inside, and their layout in an arena: a node is numbered before its
children, and these from left to right.
-/
namespace CallChain.Syntax

inductive Tree where
  | program (span : Span) (body : List Tree)
  | expressionStatement (span : Span) (expression : Tree)
  | ifStatement (span : Span) (test consequent : Tree) (alternate : Option Tree)
  | conditional (span : Span) (test consequent alternate : Tree)
  | member (span : Span) (object property : Tree) (computed optional : Bool)
  | call (span : Span) (callee : Tree) (arguments : List Tree) (optional : Bool)
  | identifier (span : Span) (name : String)
  | other (span : Span) (kind : String) (children : List Tree)
  deriving Inhabited

namespace Tree

def span : Tree → Span
  | program s _ | expressionStatement s _ | ifStatement s .. | conditional s .. | member s ..
  | call s .. | identifier s _ | other s .. => s

mutual

/-- Lays a tree out behind the nodes that are there, and gives the number of its root. -/
def layOut (parent : Option NodeId) (b : Builder) : Tree → NodeId × Builder
  | program s body =>
    let id := b.nodes.size
    let (body, b) := layOutAll id (b.openNode s parent) body
    (id, b.closeNode id (.program body))
  | expressionStatement s e =>
    let id := b.nodes.size
    let (e, b) := layOut (some id) (b.openNode s parent) e
    (id, b.closeNode id (.expressionStatement e))
  | ifStatement s test consequent alternate =>
    let id := b.nodes.size
    let (test, b) := layOut (some id) (b.openNode s parent) test
    let (consequent, b) := layOut (some id) b consequent
    let (alternate, b) := layOutOption id b alternate
    (id, b.closeNode id (.ifStatement test consequent alternate))
  | conditional s test consequent alternate =>
    let id := b.nodes.size
    let (test, b) := layOut (some id) (b.openNode s parent) test
    let (consequent, b) := layOut (some id) b consequent
    let (alternate, b) := layOut (some id) b alternate
    (id, b.closeNode id (.conditional test consequent alternate))
  | member s object property computed optional =>
    let id := b.nodes.size
    let (object, b) := layOut (some id) (b.openNode s parent) object
    let (property, b) := layOut (some id) b property
    (id, b.closeNode id (.member object property computed optional))
  | call s callee arguments optional =>
    let id := b.nodes.size
    let (callee, b) := layOut (some id) (b.openNode s parent) callee
    let (arguments, b) := layOutAll id b arguments
    (id, b.closeNode id (.call callee arguments optional))
  | identifier s name =>
    let id := b.nodes.size
    (id, (b.openNode s parent).closeNode id (.identifier name))
  | other s kind children =>
    let id := b.nodes.size
    let (children, b) := layOutAll id (b.openNode s parent) children
    (id, b.closeNode id (.other kind children))

/-- Lays out the children of a node from left to right. -/
def layOutAll (parent : NodeId) (b : Builder) : List Tree → List NodeId × Builder
  | [] => ([], b)
  | t :: ts =>
    let (id, b) := layOut (some parent) b t
    let (ids, b) := layOutAll parent b ts
    (id :: ids, b)

def layOutOption (parent : NodeId) (b : Builder) : Option Tree → Option NodeId × Builder
  | none => (none, b)
  | some t =>
    let (id, b) := layOut (some parent) b t
    (some id, b)

end

/-- The arena of a tree with its tokens. -/
def toArena (t : Tree) (tokens : List Token) : Arena :=
  let (root, b) := layOut none .empty t
  (tokens.foldl Builder.pushToken b).finish root

end Tree

end CallChain.Syntax
