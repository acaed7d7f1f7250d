import CallChain.Syntax.Arena

/-!
Chains of method calls. A link is a member access with a plain name that is called at once; a chain is a
run of links in which each one's object is the call of the link before. Chains are walked from any of
their links, up to the outermost call and down to the base.
-/
namespace CallChain.Chain

open CallChain.Syntax

/-- The object of a member access. -/
def memberObject? (a : Arena) (id : NodeId) : Option NodeId :=
  match a.kind? id with
  | some (.member object _ _ _) => some object
  | _ => none

/-- The callee of a call. -/
def callee? (a : Arena) (id : NodeId) : Option NodeId :=
  match a.kind? id with
  | some (.call callee _ _) => some callee
  | _ => none

/-- The call of a link; what is not a link has none. -/
def methodCall? (a : Arena) (id : NodeId) : Option NodeId :=
  match a.kind? id with
  | some (.member _ property computed _) =>
    if computed || !a.isIdentifier property then none
    else (a.parent? id).filter fun call => callee? a call = some id
  | _ => none

/-- The calls of the links from `id` up. Every turn goes to a node with a smaller number, if children
have larger numbers than their parents, so that the size of the arena is enough of turns. -/
def callsAbove (a : Arena) : Nat → NodeId → List NodeId
  | 0, _ => []
  | n + 1, id =>
    match methodCall? a id with
    | none => []
    | some call =>
      call ::
        match (a.parent? call).filter fun next => memberObject? a next = some call with
        | some next => callsAbove a n next
        | none => []

/-- The links from `id` down whose object is a call. -/
def linksBelow (a : Arena) : Nat → NodeId → List NodeId
  | 0, _ => []
  | n + 1, id =>
    if (methodCall? a id).isNone then []
    else
      match (memberObject? a id).bind (callee? a) with
      | some callee => id :: linksBelow a n callee
      | none => []

/-- Number of links from `id` up, and the outermost call; `id` itself where it is no link. -/
def methodsAfter (a : Arena) (id : NodeId) : Nat × NodeId :=
  let calls := callsAbove a a.size id
  (calls.length, calls.getLast?.getD id)

/-- Number of links from `id` down whose object is a call. -/
def methodsBefore (a : Arena) (id : NodeId) : Nat := (linksBelow a a.size id).length

/-- How many calls the chain of a link has, the one at its base included, and its outermost call. -/
def depth (a : Arena) (id : NodeId) : Nat × NodeId :=
  let (after, top) := methodsAfter a id
  (methodsBefore a id + after, top)

end CallChain.Chain
