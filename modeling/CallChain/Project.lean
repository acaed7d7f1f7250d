import CallChain.Ignore.Level
import CallChain.Linter
import CallChain.Report

/-!
The linter on the files of a project. Files are found below the root, read one after the other in the
order of their paths, and, if asked for, written back with their mends.
-/
namespace CallChain.Linter

/-- The files below a directory that no ignore file leaves out, under paths that start with that of the
directory. -/
def filesBelow (t : FileTree) (respectGitignore : Bool) :
    Nat → List Ignore.Level → Place → Path → List Path
  | 0, _, _, _ => []
  | n + 1, above, place, path =>
    let levels := Ignore.Level.of t respectGitignore place :: above
    (t.names place).flatMap fun name =>
      let inner := place ++ [name]
      let isDirectory := t.isDirectoryAt inner
      if Ignore.skips levels inner isDirectory then []
      else if isDirectory then filesBelow t respectGitignore n levels inner (path.join ⟨name⟩)
      else [path.join ⟨name⟩]

/-- The files that the walk from the root meets. A root that is a file is taken as it is. -/
def walk (l : Linter) (t : FileTree) : Except Error (List Path) :=
  match t.resolve l.root with
  | none => .error (.noSuchRoot l.root)
  | some place =>
    if t.isFileAt place then .ok [l.root]
    else if t.isDirectoryAt place then
      let respect := l.config.scope.respectGitignore
      .ok (filesBelow t respect (t.depth + 1) (Ignore.levelsAbove t respect place) place l.root)
    else .error (.noSuchRoot l.root)

/-- A pattern matches the path as it is found, or the path below the root. -/
def isExcluded (l : Linter) (path : Path) : Bool :=
  l.exclude.any fun p => p.accepts path.text || p.accepts (path.relativeTo l.root).text

/-- The files to look at, in order. -/
def discover (l : Linter) (t : FileTree) : Except Error (List Path) := do
  let files := (← l.walk t).filter fun path => (l.frontEnd? path).isSome && !l.isExcluded path
  return files.mergeSort fun p q => (p.compare q).isLE

/-- Parse faults are passed over, unless the linter is told not to. -/
def passOver (l : Linter) : Error → Except Error Unit
  | .unparsable path fault => if l.failOnParseError then .error (.unparsable path fault) else .ok ()
  | e => .error e

/-- The text of a file. -/
def readFile (t : FileTree) (path : Path) : Except Error String :=
  match t.readText? path with
  | some content => .ok content
  | none => .error (.unreadable path)

/-- Adds the findings in the files to a report. -/
def analyzeFiles (l : Linter) (t : FileTree) : List Path → Report → Except Error Report
  | [], report => .ok report
  | path :: paths, report => do
    let content ← readFile t path
    match l.check path content with
    | .ok vs =>
      analyzeFiles l t paths
        { report with
          violations := report.violations ++ vs
          filesChecked := report.filesChecked + 1 }
    | .error e =>
      l.passOver e
      analyzeFiles l t paths report

/-- The findings in all files of the project. -/
def analyze (l : Linter) (t : FileTree) : Except Error Report := do
  return (← l.analyzeFiles t (← l.discover t) .empty).sort

/-- Mends the files one after the other. What is written stays written when a later file ends the run. -/
def fixFiles (l : Linter) (locked : List Place) :
    List Path → FileTree → Report → FileTree × Except Error Report
  | [], t, report => (t, .ok report)
  | path :: paths, t, report =>
    match readFile t path with
    | .error e => (t, .error e)
    | .ok content =>
      match l.fix path content with
      | .error e =>
        match l.passOver e with
        | .ok () => fixFiles l locked paths t report
        | .error e => (t, .error e)
      | .ok fixed =>
        let violations := report.violations ++ fixed.remaining
        let filesChecked := report.filesChecked + 1
        if fixed.changed then
          match t.write? path fixed.output locked with
          | none => (t, .error (.unreadable path))
          | some t =>
            fixFiles l locked paths t ⟨violations, filesChecked, report.filesFixed + 1⟩
        else fixFiles l locked paths t ⟨violations, filesChecked, report.filesFixed⟩

/-- Mends all files of the project and reports what remains. -/
def fixAll (l : Linter) (t : FileTree) (locked : List Place := []) :
    FileTree × Except Error Report :=
  match l.discover t with
  | .error e => (t, .error e)
  | .ok files =>
    let (t, result) := l.fixFiles locked files t .empty
    (t, result.map Report.sort)

end CallChain.Linter
