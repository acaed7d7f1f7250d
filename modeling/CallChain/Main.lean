import CallChain.Command.Run

/-!
The command on the files of the machine. What a run may look at is read first; then the run itself is
computed, and what it changed is written back.
-/
namespace CallChain.Command

/-- A place as the operating system knows it. -/
def directoryEntry (place : Place) : IO.FS.DirEntry :=
  { root := (FileTree.pathOf place.dropLast).text, fileName := place.getLast?.getD "" }

def loadContent (bytes : ByteArray) : Content :=
  match String.fromUTF8? bytes with
  | some s => .text s
  | none => .bytes bytes.toList

/-- What stands at a place and, for as many levels as `depth` says, below it. What cannot be read is
left out. -/
def load : Nat → Place → IO (List (Place × FileEntry))
  | depth, place => do
    let path := (directoryEntry place).path
    try
      match (← path.metadata).type with
      | .file => return [(place, .file (loadContent (← IO.FS.readBinFile path)))]
      | .dir =>
        match depth with
        | 0 => return [(place, .directory)]
        | depth + 1 =>
          let inner ← (← path.readDir).toList.mapM fun e => load depth (place ++ [e.fileName])
          return (place, .directory) :: inner.flatten
      | _ => return []
    catch _ => return []

/-- No directory lies deeper. -/
def maxDepth : Nat := 1000

/-- The ignore files in the directories above a place. -/
def ignoreFilesAbove (place : Place) : List Place :=
  (List.range place.length).flatMap fun n =>
    [[".ignore"], [".gitignore"], [".git", "info", "exclude"]].map (place.take n ++ ·)

/-- The places that a path passes through. -/
def passed (p : Path) : List Place :=
  (List.range p.components.length).map fun n =>
    FileTree.placeOf ⟨"/".intercalate ((p.components.take (n + 1)).map Path.Component.text)⟩

def loadWorld (s : Surroundings) (n : Needs) : IO World := do
  let below := n.below.map FileTree.placeOf
  let trees ← below.mapM (load maxDepth)
  let onTheWay := (s.current :: n.below ++ n.files).flatMap passed
  let files ← (onTheWay ++ below.flatMap ignoreFilesAbove).eraseDups.mapM (load 0)
  return { s with files := ⟨(trees ++ files).flatten⟩ }

def surroundings : IO Surroundings := do
  let home ← IO.getEnv "HOME"
  let configDirectory ← IO.getEnv "CHAIN_LINT_CONFIG_DIR"
  return {
    current := ⟨(← IO.currentDir).toString⟩
    home := home.map Path.mk
    configDirectory := configDirectory.map Path.mk }

def report (failure : Failure) : IO Unit := do
  IO.eprintln ("Error: " ++ failure.context)
  if let some cause := failure.cause then IO.eprintln ("\nCaused by:\n    " ++ cause)

end CallChain.Command

open CallChain CallChain.Command in
def main (args : List String) : IO UInt32 := do
  let s ← surroundings
  let n := match parse args with
    | .ok i => needs s i
    | .error _ => { below := [], files := [] }
  let w ← loadWorld s n
  let outcome := run w args
  for (place, text) in w.files.changes outcome.files do
    IO.FS.writeFile (directoryEntry place).path text
  IO.print outcome.stdout
  if let some failure := outcome.failure then report failure
  if outcome.status = 2 then IO.eprint helpText
  return outcome.status.toUInt32
