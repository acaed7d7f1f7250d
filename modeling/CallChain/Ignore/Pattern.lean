/-!
Patterns in ignore files. `?` and `*` stay within a component of the path, `**` as a whole component stands
for any number of them, `[…]` is a set of characters, `{a,b}` a choice, and a backslash takes away the
meaning of the character behind it. Paths are matched byte by byte.
-/
namespace CallChain.Ignore

inductive Token where
  | char (c : Char)
  | anyChar
  | anyRun
  /-- `**/` at the start. -/
  | anyStart
  /-- `/**` at the end. -/
  | anyEnd
  /-- `/**/` in between. -/
  | anyMiddle
  | set (negated : Bool) (ranges : List (Char × Char))
  | choice (branches : List (List Token))
  deriving Inhabited

/-! ### Reading -/

/-- A set in the course of reading: its ranges, the last first, and whether a dash waits for its end. -/
structure SetState where
  ranges : List (Char × Char) := []
  first : Bool := true
  dashed : Bool := false

inductive SetResult where
  | complete (ranges : List (Char × Char)) (rest : List Char)
  | unclosed
  | invalid

/-- Ends the range that a dash began; none if it runs backwards. -/
def SetState.endRange? (s : SetState) (c : Char) : Option SetState :=
  match s.ranges with
  | (a, _) :: ranges =>
    if a ≤ c then some { ranges := (a, c) :: ranges, first := false, dashed := false } else none
  | [] => none

def SetState.add (s : SetState) (c : Char) : SetState :=
  { ranges := (c, c) :: s.ranges, first := false, dashed := false }

/-- Reads a set behind its bracket. A closing bracket in front and a dash at either end stand for
themselves. -/
def readSet (s : SetState) : List Char → SetResult
  | [] => .unclosed
  | c :: cs =>
    if c = ']' && !s.first then
      let s := if s.dashed then s.add '-' else s
      .complete s.ranges.reverse cs
    else if c = '-' && !s.first && !s.dashed then readSet { s with dashed := true } cs
    else if s.dashed then
      match s.endRange? c with
      | some s => readSet s cs
      | none => .invalid
    else readSet (s.add c) cs

/-- A choice in the course of reading: the finished branches, the last first, and what stands before. -/
structure Group where
  branches : List (List Token)
  outer : List Token

/-- What is read so far: the tokens of the innermost branch, the last first, and the open choices. -/
structure Reading where
  tokens : List Token := []
  groups : List Group := []

namespace Reading

def push (r : Reading) (t : Token) : Reading := { r with tokens := t :: r.tokens }

/-- What stands for a run of stars next to other characters of a component. -/
def pushRuns (r : Reading) : Reading := (r.push .anyRun).push .anyRun

/-- Puts a token for `**` in the place of the slash before it. Next to another such token it vanishes. -/
def pushComponents (r : Reading) (t : Token) : Reading :=
  match r.tokens with
  | .anyStart :: _ => r
  | .anyEnd :: _ => r
  | _ :: tokens => { r with tokens := t :: tokens }
  | [] => r.push t

/-- Ends a branch. -/
def nextBranch (r : Reading) : Reading :=
  match r.groups with
  | [] => r.push (.char ',')
  | g :: groups =>
    { tokens := [], groups := { g with branches := r.tokens.reverse :: g.branches } :: groups }

def openChoice (r : Reading) : Reading := { tokens := [], groups := ⟨[], r.tokens⟩ :: r.groups }

def closeChoice? (r : Reading) : Option Reading :=
  match r.groups with
  | [] => none
  | g :: groups =>
    some { tokens := .choice (r.tokens.reverse :: g.branches).reverse :: g.outer, groups }

/-- Two stars: what they stand for, and the text behind them. -/
def stars (r : Reading) (previous : Option Char) (rest : List Char) : Reading × List Char :=
  if r.tokens.isEmpty then
    match rest with
    | [] => (r.push .anyStart, [])
    | '/' :: rest => (r.push .anyStart, rest)
    | _ => (r.pushRuns, rest)
  else if previous ≠ some '/' && !(!r.groups.isEmpty && (previous = some ',' || previous = some '{')) then
    (r.pushRuns, rest)
  else
    match rest with
    | [] => (r.pushComponents .anyEnd, [])
    | '/' :: rest => (r.pushComponents .anyMiddle, rest)
    | c :: _ =>
      if !r.groups.isEmpty && (c = ',' || c = '}') then (r.pushComponents .anyEnd, rest)
      else (r.pushRuns, rest)

end Reading

/-- Reads a pattern; `previous` is the character before. Each turn takes a character. -/
def readFrom (previous : Option Char) (r : Reading) : Nat → List Char → Option (List Token)
  | _, [] => if r.groups.isEmpty then some r.tokens.reverse else none
  | 0, _ :: _ => none
  | n + 1, c :: cs =>
    match c, cs with
    | '?', cs => readFrom c (r.push .anyChar) n cs
    | '*', '*' :: rest =>
      let (r, left) := r.stars previous rest
      readFrom (if left.length < rest.length then '/' else '*') r n left
    | '*', cs => readFrom c (r.push .anyRun) n cs
    | '[', cs =>
      let (negated, body) := match cs with
        | '!' :: body | '^' :: body => (true, body)
        | body => (false, body)
      match readSet {} body with
      | .complete ranges rest => readFrom ']' (r.push (.set negated ranges)) n rest
      | .unclosed => readFrom c (r.push (.char '[')) n cs
      | .invalid => none
    | '{', cs => readFrom c r.openChoice n cs
    | '}', cs => r.closeChoice?.bind fun r => readFrom c r n cs
    | ',', cs => readFrom c r.nextBranch n cs
    | '\\', d :: rest => readFrom d (r.push (.char d)) n rest
    | '\\', [] => none
    | c, cs => readFrom c (r.push (.char c)) n cs

/-! ### Choices -/

mutual

/-- All ways to choose a branch of each choice. Branches without any token are left out. -/
def expand : List Token → List (List Token)
  | [] => [[]]
  | .choice branches :: ts =>
    let ways := expandBranches branches
    let ways := if ways.isEmpty then [[]] else ways
    let tails := expand ts
    ways.flatMap fun way => tails.map (way ++ ·)
  | t :: ts => (expand ts).map (t :: ·)

def expandBranches : List (List Token) → List (List Token)
  | [] => []
  | b :: bs => (expand b).filter (!·.isEmpty) ++ expandBranches bs

end

/-! ### Matching -/

def bytesOf (c : Char) : List UInt8 := c.toString.toUTF8.toList

def slash : UInt8 := 47

/-- A set of characters as a set of bytes: a range runs from the last byte of its first character to the
first byte of its last one, and the other bytes stand for themselves. -/
def byteRanges (first last : Char) : List (UInt8 × UInt8) :=
  if first = last then (bytesOf first).map fun b => (b, b)
  else
    let front := bytesOf first
    let back := bytesOf last
    front.dropLast.map (fun b => (b, b)) ++
      [(front.getLast?.getD 0, back.head?.getD 0)] ++ (back.drop 1).map fun b => (b, b)

def inSet (ranges : List (Char × Char)) (b : UInt8) : Bool :=
  ranges.any fun (first, last) => (byteRanges first last).any fun (lo, hi) => lo ≤ b && b ≤ hi

/-- The ends of a text. -/
def tails : List UInt8 → List (List UInt8)
  | [] => [[]]
  | b :: bs => (b :: bs) :: tails bs

/-- The ends of a text that lie within its first component. -/
def componentRuns : List UInt8 → List (List UInt8)
  | [] => [[]]
  | b :: bs => if b = slash then [b :: bs] else (b :: bs) :: componentRuns bs

/-- The ends of a text that start behind a slash. -/
def behindSlash : List UInt8 → List (List UInt8)
  | [] => []
  | b :: bs => if b = slash then bs :: behindSlash bs else behindSlash bs

/-- The tokens match the whole text. -/
def matchTokens : List Token → List UInt8 → Bool
  | [], bs => bs.isEmpty
  | .char c :: ts, bs => ((bytesOf c).isPrefixOf? bs).any (matchTokens ts)
  | .anyChar :: ts, bs =>
    match bs with
    | b :: bs => b ≠ slash && matchTokens ts bs
    | [] => false
  | .anyRun :: ts, bs => (componentRuns bs).any (matchTokens ts)
  | .anyStart :: ts, bs => (bs :: behindSlash bs).any (matchTokens ts)
  | .anyEnd :: ts, bs =>
    match bs with
    | b :: bs => b = slash && (tails bs).any (matchTokens ts)
    | [] => false
  | .anyMiddle :: ts, bs =>
    match bs with
    | b :: bs => b = slash && (bs :: behindSlash bs).any (matchTokens ts)
    | [] => false
  | .set negated ranges :: ts, bs =>
    match bs with
    | b :: bs => (inSet ranges b != negated) && matchTokens ts bs
    | [] => false
  | .choice _ :: _, _ => false

structure Pattern where
  /-- Token lists without choices, one of which has to match. -/
  branches : List (List Token)

namespace Pattern

/-- A pattern that is `**` alone matches everything. -/
def ofTokens : List Token → Pattern
  | [.anyStart] => ⟨[[.anyStart, .anyRun]]⟩
  | ts => ⟨expand ts⟩

def read? (text : List Char) : Option Pattern := (readFrom none {} text.length text).map ofTokens

def accepts (p : Pattern) (path : List UInt8) : Bool := p.branches.any (matchTokens · path)

end Pattern

end CallChain.Ignore
