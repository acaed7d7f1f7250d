import CallChain.Path

/-!
Files by their place. A place is the list of names that leads to it from the top; a directory is there
if it is listed or if something lies below it.
-/
namespace CallChain

inductive Content where
  | text (s : String)
  /-- Bytes that are no text. -/
  | bytes (bs : List UInt8)
  deriving DecidableEq

def Content.text? : Content → Option String
  | text s => some s
  | bytes _ => none

inductive FileEntry where
  | file (content : Content)
  | directory
  deriving DecidableEq

/-- Names from the top to a file or directory. -/
abbrev Place := List String

structure FileTree where
  entries : List (Place × FileEntry)

namespace FileTree

def find? (t : FileTree) (place : Place) : Option FileEntry := t.entries.lookup place

def content? (t : FileTree) (place : Place) : Option Content :=
  match t.find? place with
  | some (.file content) => some content
  | _ => none

def isFileAt (t : FileTree) (place : Place) : Bool := (t.content? place).isSome

/-- `place` lies below `above`. -/
def isBelow (above place : Place) : Bool := above.isPrefixOf place && above.length < place.length

def isDirectoryAt (t : FileTree) (place : Place) : Bool :=
  place.isEmpty || t.find? place = some .directory || t.entries.any fun (p, _) => isBelow place p

/-- Names of what lies directly in a directory. -/
def names (t : FileTree) (place : Place) : List String :=
  (t.entries.filterMap fun (p, _) =>
    if isBelow place p then p[place.length]? else none).eraseDups

/-- How many names the longest place has. -/
def depth (t : FileTree) : Nat := t.entries.foldl (fun d (p, _) => max d p.length) 0

/-- Follows the components of a path. All on the way but the last have to be directories. -/
def follow (t : FileTree) : Place → List Path.Component → Option Place
  | place, [] => some place
  | place, c :: cs =>
    if t.isDirectoryAt place then
      match c with
      | .root => t.follow [] cs
      | .current => t.follow place cs
      | .up => t.follow place.dropLast cs
      | .name s => t.follow (place ++ [s]) cs
    else none

/-- Where a path leads if all directories on its way are there. -/
def placeOf (p : Path) : Place :=
  p.components.foldl (fun place c =>
    match c with
    | .root => []
    | .current => place
    | .up => place.dropLast
    | .name s => place ++ [s]) []

/-- The path of a place. -/
def pathOf (place : Place) : Path := ⟨"/" ++ "/".intercalate place⟩

/-- The path is written as that of a directory. -/
def endsAsDirectory (p : Path) : Bool :=
  match p.text.toList.reverse with
  | '/' :: _ => true
  | '.' :: '/' :: _ => true
  | _ => false

/-- Where an absolute path leads. There may be nothing yet, but the directory has to be there. -/
def resolve (t : FileTree) (p : Path) : Option Place := do
  let place ← t.follow [] p.components
  guard (!endsAsDirectory p || t.isDirectoryAt place)
  return place

def isFile (t : FileTree) (p : Path) : Bool := (t.resolve p).any t.isFileAt

def isDirectory (t : FileTree) (p : Path) : Bool := (t.resolve p).any t.isDirectoryAt

/-- The text of a file; none if there is no such file or it holds no text. -/
def readText? (t : FileTree) (p : Path) : Option String :=
  ((t.resolve p).bind t.content?).bind Content.text?

/-- Puts a file at a place. -/
def putFile (place : Place) (text : String) : List (Place × FileEntry) → List (Place × FileEntry)
  | [] => [(place, .file (.text text))]
  | (p, e) :: entries =>
    if p = place then (p, .file (.text text)) :: entries else (p, e) :: putFile place text entries

/-- Writes a text to a file, which is made if its directory is there. What is `locked` cannot be
written. -/
def write? (t : FileTree) (p : Path) (text : String) (locked : List Place := []) :
    Option FileTree := do
  let place ← t.resolve p
  guard (!t.isDirectoryAt place && !locked.contains place)
  return { t with entries := putFile place text t.entries }

/-- The texts that stand in `t` and not in `old`. -/
def changes (old t : FileTree) : List (Place × String) :=
  t.entries.filterMap fun (place, e) =>
    match e with
    | .file (.text s) => if old.content? place = some (.text s) then none else some (place, s)
    | _ => none

end FileTree

end CallChain
