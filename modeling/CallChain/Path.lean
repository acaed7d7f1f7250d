/-!
Slash-separated paths. A path keeps the text it was given; what it means are its components: repeated
slashes and `.` components vanish (a leading `.` stays), `..` is kept. Paths are ordered by components.
-/
namespace CallChain

structure Path where
  text : String
  deriving DecidableEq, Repr, Inhabited

namespace Path

inductive Component where
  | root
  | current
  | up
  | name (text : String)
  deriving DecidableEq, Repr

namespace Component

def text : Component → String
  | root => "/"
  | current => "."
  | up => ".."
  | name s => s

def rank : Component → Nat
  | root => 0
  | current => 1
  | up => 2
  | name _ => 3

/-- The root comes first, then `.`, `..` and names in the order of their characters. -/
def compare (a b : Component) : Ordering :=
  match a, b with
  | name s, name t => Ord.compare s t
  | a, b => Ord.compare a.rank b.rank

end Component

/-- A component with the characters of the path that it takes up. -/
structure Piece where
  component : Component
  start : Nat
  stop : Nat
  deriving Repr

/-- The slash-free stretch that starts at a place, as a component; the first stretch of a relative path
may be `.`. -/
def pieceOf? (first : Bool) (start : Nat) (stretch : List Char) : Option Piece :=
  let stop := start + stretch.length
  match stretch with
  | [] => none
  | ['.'] => if first then some ⟨.current, start, stop⟩ else none
  | ['.', '.'] => some ⟨.up, start, stop⟩
  | _ => some ⟨.name (String.ofList stretch), start, stop⟩

/-- The stretches between slashes, each with the place where it starts. `stretch` holds the characters
already read of the current one, in reverse. -/
def stretchesFrom (start : Nat) (stretch : List Char) : List Char → List (Nat × List Char)
  | [] => [(start, stretch.reverse)]
  | c :: cs =>
    if c = '/' then (start, stretch.reverse) :: stretchesFrom (start + stretch.length + 1) [] cs
    else stretchesFrom start (c :: stretch) cs

def pieces (p : Path) : List Piece :=
  let body := (stretchesFrom 0 [] p.text.toList).filterMap fun (start, stretch) =>
    pieceOf? (start == 0) start stretch
  if p.text.toList.head? = some '/' then ⟨.root, 0, 1⟩ :: body else body

def components (p : Path) : List Component := p.pieces.map (·.component)

def isAbsolute (p : Path) : Bool := p.text.toList.head? = some '/'

def compareComponents : List Component → List Component → Ordering
  | [], [] => .eq
  | [], _ :: _ => .lt
  | _ :: _, [] => .gt
  | a :: as, b :: bs => (Component.compare a b).then (compareComponents as bs)

/-- Component by component, so that `a/b` comes before `a-b`. -/
def compare (p q : Path) : Ordering := compareComponents p.components q.components

/-- The characters from the first of some neighbouring pieces to the end of the last. -/
def textOf (p : Path) : List Piece → String
  | [] => ""
  | piece :: pieces =>
    let stop := ((piece :: pieces).getLast?.map (·.stop)).getD piece.stop
    String.ofList ((p.text.toList.take stop).drop piece.start)

/-- The pieces of a path behind the components of `base`. -/
def piecesBelow? : List Component → List Piece → Option (List Piece)
  | [], pieces => some pieces
  | _ :: _, [] => none
  | c :: cs, piece :: pieces => if piece.component = c then piecesBelow? cs pieces else none

/-- The path below `base`, if it lies there. Its text is what is written behind `base`. -/
def below? (p base : Path) : Option Path :=
  (piecesBelow? base.components p.pieces).map fun pieces => ⟨p.textOf pieces⟩

/-- The path below `base`, or the path itself where it lies elsewhere. -/
def relativeTo (p base : Path) : Path := (p.below? base).getD p

/-- The last component, if it is a name. -/
def fileName? (p : Path) : Option String :=
  match p.components.getLast? with
  | some (.name s) => some s
  | _ => none

/-- What stands behind the last dot of the file name. A name whose only dot is in front has none. -/
def extension? (p : Path) : Option String := do
  let name ← p.fileName?
  let reversed := name.toList.reverse
  let ext := reversed.takeWhile (· ≠ '.')
  match reversed.drop ext.length with
  | '.' :: _ :: _ => some (String.ofList ext.reverse)
  | _ => none

/-- The path without its last component; the root and the empty path have none. -/
def parent? (p : Path) : Option Path :=
  match p.pieces.getLast? with
  | none => none
  | some piece => if piece.component = .root then none else some ⟨p.textOf p.pieces.dropLast⟩

/-- Appends `q`; an absolute `q` replaces the path. -/
def join (p q : Path) : Path :=
  if q.isAbsolute then q
  else if p.text.isEmpty || p.text.toList.getLast? = some '/' then ⟨p.text ++ q.text⟩
  else ⟨p.text ++ "/" ++ q.text⟩

end Path

end CallChain
