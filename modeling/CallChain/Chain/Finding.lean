import CallChain.Chain.Link
import CallChain.Source

/-!
Links that should start on their own line: those of a chain that is longer than the threshold and stands
neither in a conditional expression nor as the test of an `if`, unless a line break precedes them.
-/
namespace CallChain.Chain

open CallChain.Syntax

/-- The chain stands where chains of any length are accepted. -/
def isExempt (a : Arena) (top : NodeId) : Bool :=
  match (a.parent? top).bind a.kind? with
  | some (.conditional ..) => true
  | some (.ifStatement test _ _) => test = top
  | _ => false

/-- The link ends on another line than its object. -/
def hasLineBreak (a : Arena) (link : NodeId) : Bool :=
  match memberObject? a link with
  | some object => (a.span link).stopPos.line ≠ (a.span object).stopPos.line
  | none => false

def isAccess (t : Token) : Bool := t.kind = "." || t.kind = "?."

/-- The first `.` or `?.` between the object and the property, else the first token after the object. -/
def operator? (a : Arena) (object property : NodeId) : Option Token :=
  let first := a.tokenIndex (a.span object).stop
  let between := (a.tokens.toList.drop first).takeWhile (·.span.start < (a.span property).start)
  (between.find? isAccess).or (a.tokenAfter? object)

/-- A link as it is written: its name, and its arguments if it is called. -/
def callText (s : Source) (link property : NodeId) : String :=
  let name := s.textOf property
  match (s.tree.parent? link).bind s.tree.kind? with
  | some (.call callee arguments _) =>
    if callee = link then name ++ "(" ++ ",".intercalate (arguments.map s.textOf) ++ ")" else name
  | _ => name

/-- A link that should start on its own line. -/
structure Finding where
  link : NodeId
  callText : String
  /-- How many calls the chain has. -/
  chainings : Nat
  /-- Text of the whole chain. -/
  nodeCode : String
  chain : Span
  /-- The `.` or `?.` that belongs on a new line. -/
  operator : Span
  /-- From the operator to the end of the name. -/
  span : Span
  deriving DecidableEq, Repr

namespace Finding

def message (f : Finding) : String :=
  "'." ++ f.callText ++ "' is part of a " ++ toString f.chainings ++
    " methods chain and should therefore be prepended by a newline ('" ++ f.nodeCode ++ "')."

/-- What is wrong with a node, if it is a link that should start on its own line. -/
def of? (threshold : Nat) (s : Source) (link : NodeId) : Option Finding :=
  match s.tree.kind? link with
  | some (.member object property _ _) =>
    let (chainings, top) := depth s.tree link
    if chainings ≤ threshold || isExempt s.tree top || hasLineBreak s.tree link then none
    else
      (operator? s.tree object property).map fun operator =>
        let last := s.tree.span property
        { link, chainings
          callText := Chain.callText s link property
          nodeCode := s.textOf top
          chain := s.tree.span top
          operator := operator.span
          span := ⟨operator.span.start, last.stop, operator.span.startPos, last.stopPos⟩ }
  | _ => none

/-- All findings, in the order of the nodes. -/
def all (threshold : Nat) (s : Source) : List Finding :=
  s.tree.members.filterMap (of? threshold s)

end Finding

end CallChain.Chain
