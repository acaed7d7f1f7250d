import CallChain.Syntax.Tree

/-!
Concrete syntax trees of JavaScript: every token of the text is a leaf. Nodes carry the grammar's name
for them; the roles tell apart the children that a construct is made of.
-/
namespace CallChain.JavaScript

open CallChain.Syntax (Token Tree)

/-- What a child is to its parent, where the abstract tree asks for it. -/
inductive Role where
  | condition
  | consequence
  | alternative
  | object
  | property
  | index
  | function
  | arguments
  deriving DecidableEq, Repr

/-- What is known of a node besides its children. Punctuators and keywords are not named. Comments are
extra: they may stand anywhere and belong to no construct. -/
structure Label where
  kind : String
  named : Bool
  extra : Bool
  role : Option Role
  span : Span
  deriving DecidableEq, Repr, Inhabited

inductive Concrete where
  | node (label : Label) (children : List Concrete)
  deriving Inhabited

namespace Concrete

def label : Concrete → Label
  | node l _ => l

def children : Concrete → List Concrete
  | node _ cs => cs

def span (c : Concrete) : Span := c.label.span

def kind (c : Concrete) : String := c.label.kind

/-- The same node in another role. -/
def as (c : Concrete) (role : Role) : Concrete :=
  node { c.label with role := some role } c.children

/-- A construct or a named token, as opposed to punctuation and comments. -/
def isProper (c : Concrete) : Bool := c.label.named && !c.label.extra

mutual

/-- Number of nodes. -/
def size : Concrete → Nat
  | node _ cs => 1 + sizeAll cs

def sizeAll : List Concrete → Nat
  | [] => 0
  | c :: cs => size c + sizeAll cs

end

end Concrete

end CallChain.JavaScript
