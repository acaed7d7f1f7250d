import CallChain.Path
import CallChain.Severity
import CallChain.Toml.Value

/-!
Settings of a run: which files are looked at, which rules apply and how grave their findings are.
-/
namespace CallChain

/-- Which files are looked at. -/
structure Scope where
  root : Path := ⟨"."⟩
  /-- Patterns of files to leave out. -/
  exclude : List String := ["**/node_modules/**", "**/dist/**"]
  /-- Files that version control ignores are left out. -/
  respectGitignore : Bool := true

/-- Settings of one rule. -/
structure RuleBlock where
  enabled : Option Bool := none
  severity : Option Severity := none
  options : List (String × Toml.Value) := []

structure Config where
  failOn : Option Severity := none
  scope : Scope := {}
  rules : List (String × RuleBlock) := []

/-- What is wrong with the value of an option. -/
inductive OptionFault where
  | notInteger (type : String)
  | outside (n : Int) (min max : Nat)
  deriving DecidableEq, Repr

inductive Config.Error where
  | unreadable (path : Path)
  | malformed
  | invalidOption (rule option : String) (fault : OptionFault)
  deriving DecidableEq, Repr

def OptionFault.message : OptionFault → String
  | notInteger type => "expected an integer, got " ++ type
  | outside n min max => toString n ++ " is outside " ++ toString min ++ "..=" ++ toString max

def Config.Error.message : Config.Error → String
  | unreadable path => "Failed to read config file " ++ path.text
  | malformed => "Failed to parse config"
  | invalidOption rule option fault => "rules." ++ rule ++ "." ++ option ++ ": " ++ fault.message

/-- Sets the value under a key. -/
def setEntry {α : Type} (key : String) (value : α) : List (String × α) → List (String × α)
  | [] => [(key, value)]
  | (k, v) :: entries => if k = key then (k, value) :: entries else (k, v) :: setEntry key value entries

namespace RuleBlock

/-- An option of the type that is read; what is of another type counts as missing. -/
def get {α : Type} (b : RuleBlock) (key : String) (read : Toml.Value → Option α) (default : α) : α :=
  ((b.options.lookup key).bind read).getD default

/-- An integer option that has to lie between two bounds. -/
def getInRange (b : RuleBlock) (rule key : String) (min max default : Nat) : Except Config.Error Nat :=
  match b.options.lookup key with
  | none => .ok default
  | some (.integer n) =>
    if min ≤ n && n ≤ max then .ok n.toNat
    else .error (.invalidOption rule key (.outside n min max))
  | some v => .error (.invalidOption rule key (.notInteger v.typeName))

def setOption (b : RuleBlock) (key : String) (value : Toml.Value) : RuleBlock :=
  { b with options := setEntry key value b.options }

end RuleBlock

namespace Config

def rule? (c : Config) (name : String) : Option RuleBlock := c.rules.lookup name

/-- Rules are enabled unless they are switched off. -/
def isEnabled (c : Config) (name : String) : Bool := ((c.rule? name).bind (·.enabled)).getD true

/-- Severity that replaces the one of the rule. -/
def severity? (c : Config) (name : String) : Option Severity := (c.rule? name).bind (·.severity)

/-- Changes the block of a rule, which is made if there is none. -/
def updateRule (c : Config) (name : String) (f : RuleBlock → RuleBlock) : Config :=
  { c with rules := setEntry name (f ((c.rule? name).getD {})) c.rules }

/-- How grave a finding has to be for a run to fail. -/
def threshold (c : Config) : Severity := c.failOn.getD .error

end Config

end CallChain
