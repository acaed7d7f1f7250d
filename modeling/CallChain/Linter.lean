import CallChain.Config
import CallChain.Exclude.Pattern
import CallChain.FrontEnd
import CallChain.Rule

/-!
The linter on one text: findings of all enabled rules, and the text with all mends put in. Mends may
uncover new findings, so that they are put in again and again, up to a bound.
-/
namespace CallChain

structure Linter where
  /-- Directory or file that is looked at. -/
  root : Path
  /-- Directory that reported paths start from. -/
  base : Path
  rules : List Rule
  frontEnds : List FrontEnd
  exclude : List Exclude.Pattern
  config : Config
  /-- A text that cannot be parsed ends the run. -/
  failOnParseError : Bool

namespace Linter

inductive Error where
  | unreadable (path : Path)
  | noSuchRoot (path : Path)
  | unparsable (path : Path) (fault : ParseFault)
  | unsupported (path : Path)
  | pattern (e : Exclude.PatternError)
  deriving DecidableEq, Repr

def Error.message : Error → String
  | unreadable path => "IO error: " ++ path.text
  | noSuchRoot path => "Failed to walk source tree: " ++ path.text
  | unparsable path fault => "Parse error in " ++ path.text ++ ": " ++ fault.message
  | unsupported path => "No parser registered for " ++ path.text
  | pattern e => "Invalid glob pattern: " ++ e.message

/-- The first front end that reads files with the ending of a path. -/
def frontEnd? (l : Linter) (path : Path) : Option FrontEnd :=
  path.extension?.bind fun ext => l.frontEnds.find? (·.extensions.contains ("." ++ ext))

/-- Gives all findings another severity, if one is set. -/
def override (severity : Option Severity) (vs : List Violation) : List Violation :=
  match severity with
  | none => vs
  | some severity => vs.map fun v => { v with severity }

/-- Findings of the enabled rules, rule by rule. -/
def findings (l : Linter) (ctx : FileContext) (tree : Syntax.Arena) : List Violation :=
  (l.rules.filter (l.config.isEnabled ·.name)).flatMap fun rule =>
    override (l.config.severity? rule.name) (rule.check ctx tree)

/-- The findings in a text, in the order of the text. The path selects the front end. -/
def check (l : Linter) (path : Path) (content : String) : Except Error (List Violation) :=
  match l.frontEnd? path with
  | none => .error (.unsupported path)
  | some frontEnd =>
    match frontEnd.parse content with
    | .error fault => .error (.unparsable path fault)
    | .ok tree => .ok ((l.findings (.make path content l.base) tree).mergeSort Violation.inText)

/-- A text after its mends. -/
structure Fixed where
  output : String
  /-- Rounds in which there was something to mend. -/
  passes : Nat
  /-- Number of edits in all rounds. -/
  edits : Nat
  /-- What is still found in the output. -/
  remaining : List Violation

def Fixed.changed (f : Fixed) : Bool := 0 < f.edits

/-- Mends a text for at most so many more rounds; the counts so far are given. -/
def fixFrom (l : Linter) (path : Path) (passes edits : Nat) :
    Nat → String → Except Error Fixed
  | 0, output => do
    return { output, passes, edits, remaining := ← l.check path output }
  | rounds + 1, output => do
    let remaining ← l.check path output
    let set := EditSet.ofViolations remaining
    if set.isEmpty then return { output, passes, edits, remaining }
    else fixFrom l path (passes + 1) (edits + set.size) rounds (set.apply output)

def maxPasses : Nat := 10

/-- Mends a text until there is nothing to mend or the bound is reached. -/
def fix (l : Linter) (path : Path) (content : String) : Except Error Fixed :=
  l.fixFrom path 0 0 maxPasses content

end Linter

end CallChain
