import CallChain.Command.Output
import CallChain.Config.Reading
import CallChain.JavaScript.FrontEnd
import CallChain.Linter.Setup
import CallChain.Project

/-!
Runs of the command. The files, the current directory and the places of the settings of the user are
given; a run prints, may change files, and ends with an exit status.
-/
namespace CallChain.Command

/-- Where a run takes place. -/
structure Surroundings where
  current : Path
  home : Option Path
  /-- Directory of the settings of the user, in place of the one at home. -/
  configDirectory : Option Path

structure World extends Surroundings where
  files : FileTree

/-- A path seen from the current directory. -/
def Surroundings.absolute (s : Surroundings) (p : Path) : Path :=
  if p.isAbsolute then p else s.current.join p

namespace World

def isFile (w : World) (p : Path) : Bool := w.files.isFile (w.absolute p)

def isDirectory (w : World) (p : Path) : Bool := w.files.isDirectory (w.absolute p)

end World

/-- What the user is told when a run fails, and what caused it. -/
structure Failure where
  context : String
  cause : Option String := none

structure Outcome where
  status : Nat
  stdout : String
  failure : Option Failure
  files : FileTree

def Outcome.failed (files : FileTree) (context : String) (cause : Option String) : Outcome :=
  { status := 1, stdout := "", failure := some ⟨context, cause⟩, files }

def projectConfigNames : List Path := [⟨"chain-lint.toml"⟩, ⟨".chain-lint.toml"⟩]

/-- The settings of the user. -/
def globalConfig? (s : Surroundings) : Option Path :=
  (s.configDirectory.or (s.home.map (·.join ⟨".chain-lint"⟩))).map (·.join ⟨"config.toml"⟩)

/-- The configuration file of a run: the one that is asked for, else one next to what is checked, else
that of the user. -/
def configPath? (w : World) (asked : Option Path) (target : Path) : Option Path :=
  let directory := if w.isFile target then target.parent?.getD target else target
  let found := (projectConfigNames.map directory.join).find? w.isFile
  asked.or (found.or ((globalConfig? w.toSurroundings).filter w.isFile))

def loadConfig (w : World) : Option Path → Except Failure Config
  | none => .ok {}
  | some path =>
    let result : Except Config.Error Config :=
      match w.files.readText? (w.absolute path) with
      | none => .error (.unreadable path)
      | some text => Config.read text
    result.mapError fun e => ⟨"Failed to load config: " ++ path.text, some e.message⟩

/-- Puts the threshold of the command line into the configuration. -/
def withThreshold (c : Config) : Option Nat → Config
  | none => c
  | some n => c.updateRule Chain.ruleName (·.setOption "ignore_chain_with_depth" (.integer n))

/-- The linter of a run, and the severity from which on the run fails. -/
def prepare (w : World) (config : Option Path) (r : CheckRequest) :
    Except Failure (Linter × Severity) := do
  let c ← loadConfig w (configPath? w config r.path)
  let c := withThreshold c r.threshold
  let rules ← (Catalog.ofConfig c).mapError fun e => ⟨"Invalid rule configuration", some e.message⟩
  let setup : Linter.Setup :=
    { root := some r.path, rules, frontEnds := [JavaScript.frontEnd], exclude := r.exclude
      config := some c }
  let l ← (setup.build w.current w.files.isFile).mapError fun e =>
    ⟨"Failed to build analyzer", some e.message⟩
  return (l, c.threshold)

def check (w : World) (config : Option Path) (r : CheckRequest) : Outcome :=
  match prepare w config r with
  | .error failure => { status := 1, stdout := "", failure := some failure, files := w.files }
  | .ok (l, threshold) =>
    let (files, result) := if r.fix then l.fixAll w.files else (w.files, l.analyze w.files)
    match result with
    | .error e =>
      .failed files (if r.fix then "Fixing failed" else "Analysis failed") (some e.message)
    | .ok report =>
      { status := if report.hasAtLeast threshold then 1 else 0
        stdout := reportText r.format report
        failure := none
        files }

/-- Writes the first configuration file. -/
def init (w : World) (force : Bool) : Outcome :=
  let path : Path := ⟨"chain-lint.toml"⟩
  if (w.isFile path || w.isDirectory path) && !force then
    .failed w.files "Configuration file already exists at chain-lint.toml. Use --force to overwrite."
      none
  else
    match w.files.write? (w.absolute path) initialConfig with
    | none => .failed w.files "Failed to write chain-lint.toml" none
    | some files => { status := 0, stdout := initMessage, failure := none, files }

/-- What has to be known of the files before a run: all that lies below some paths, and single files. -/
structure Needs where
  below : List Path
  files : List Path

def needs (s : Surroundings) (i : Invocation) : Needs :=
  match i.request with
  | .check r =>
    let beside := projectConfigNames.map ((r.path.parent?.getD r.path).join ·)
    { below := [s.absolute r.path]
      files := (i.config.toList ++ beside ++ (globalConfig? s).toList).map s.absolute }
  | .listRules => { below := [], files := [] }
  | .init _ => { below := [], files := [s.absolute ⟨"chain-lint.toml"⟩] }

def runInvocation (w : World) (i : Invocation) : Outcome :=
  match i.request with
  | .check r => check w i.config r
  | .listRules => { status := 0, stdout := ruleList, failure := none, files := w.files }
  | .init force => init w force

def refuse (files : FileTree) : Refusal → Outcome
  | .version => { status := 0, stdout := versionText, failure := none, files }
  | .help => { status := 0, stdout := helpText, failure := none, files }
  | .invalid => { status := 2, stdout := "", failure := none, files }

/-- One run of the command. -/
def run (w : World) (args : List String) : Outcome :=
  match parse args with
  | .ok i => runInvocation w i
  | .error refusal => refuse w.files refusal

end CallChain.Command
