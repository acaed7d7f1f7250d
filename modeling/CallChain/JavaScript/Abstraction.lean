import CallChain.JavaScript.Concrete
import CallChain.Text.Bytes

/-!
From the concrete to the abstract tree. Parentheses, argument lists and `else` clauses vanish, member
accesses, calls, conditionals and names get nodes of their own, and all else keeps its grammar name and
its proper children.
-/
namespace CallChain.JavaScript

open CallChain.Syntax (Tree)

/-- A concrete node with its abstract tree, and the same for its children. -/
inductive Part where
  | mk (label : Label) (tree : Tree) (children : List Part)

namespace Part

def label : Part → Label
  | mk l _ _ => l

def tree : Part → Tree
  | mk _ t _ => t

def children : Part → List Part
  | mk _ _ cs => cs

def isProper (p : Part) : Bool := p.label.named && !p.label.extra

/-- The proper children. -/
def proper (cs : List Part) : List Part := cs.filter isProper

/-- The first child in a role. -/
def withRole? (role : Role) (cs : List Part) : Option Part := cs.find? (·.label.role == some role)

/-- `?.` stands directly below the node. -/
def isOptional (cs : List Part) : Bool :=
  cs.any fun c => c.label.kind == "optional_chain" || c.label.kind == "?."

def trees (cs : List Part) : List Tree := (proper cs).map tree

/-- The construct under its grammar name. -/
def asOther (l : Label) (cs : List Part) : Tree := .other l.span l.kind (trees cs)

def memberTree (l : Label) (cs : List Part) (computed : Bool) (name : Role) : Tree :=
  match withRole? .object cs, withRole? name cs with
  | some object, some last =>
    .member l.span object.tree last.tree computed (isOptional cs)
  | _, _ => asOther l cs

/-- A call with an argument list; what is called with a template is no call. -/
def callTree (l : Label) (cs : List Part) : Tree :=
  match withRole? .function cs, (withRole? .arguments cs).filter (·.label.kind == "arguments") with
  | some callee, some arguments =>
    .call l.span callee.tree (trees arguments.children) (isOptional cs)
  | _, _ => asOther l cs

def ifTree (l : Label) (cs : List Part) : Tree :=
  match withRole? .condition cs, withRole? .consequence cs with
  | some test, some consequent =>
    let alternate := (withRole? .alternative cs).bind fun clause => (proper clause.children).head?
    .ifStatement l.span test.tree consequent.tree (alternate.map tree)
  | _, _ => asOther l cs

def conditionalTree (l : Label) (cs : List Part) : Tree :=
  match withRole? .condition cs, withRole? .consequence cs, withRole? .alternative cs with
  | some test, some consequent, some alternate =>
    .conditional l.span test.tree consequent.tree alternate.tree
  | _, _, _ => asOther l cs

/-- The abstract tree of a node, from those of its children. -/
def shape (text : List Char) (l : Label) (cs : List Part) : Tree :=
  match l.kind with
  | "program" => .program l.span (trees cs)
  | "parenthesized_expression" =>
    match (proper cs).head? with
    | some inner => inner.tree
    | none => asOther l cs
  | "expression_statement" =>
    match (proper cs).head? with
    | some e => .expressionStatement l.span e.tree
    | none => asOther l cs
  | "if_statement" => ifTree l cs
  | "ternary_expression" => conditionalTree l cs
  | "member_expression" => memberTree l cs false .property
  | "subscript_expression" => memberTree l cs true .index
  | "call_expression" => callTree l cs
  | "identifier" | "property_identifier" =>
    .identifier l.span (String.ofList ((Text.slice? l.span.start l.span.stop text).getD []))
  | _ => asOther l cs

end Part

namespace Concrete

mutual

def part (text : List Char) : Concrete → Part
  | node l cs =>
    let parts := partAll text cs
    .mk l (Part.shape text l parts) parts

def partAll (text : List Char) : List Concrete → List Part
  | [] => []
  | c :: cs => part text c :: partAll text cs

end

/-- The abstract tree; names are read from the text. -/
def abstract (c : Concrete) (text : List Char) : Tree := (c.part text).tree

end Concrete

end CallChain.JavaScript
