import CallChain.Config
import CallChain.Toml.Reader

/-!
The configuration in a TOML document. Unknown keys are passed over, but in the block of a rule, where they
are its options.
-/
namespace CallChain

namespace Toml.Value

/-- The fields of a table. A date counts as a table with one field, under a reserved name. -/
def fields? : Value → Option (List (String × Value))
  | table entries => some entries
  | datetime text => some [("$__toml_private_datetime", string text)]
  | _ => none

end Toml.Value

/-- Reads the value under a key, if there is one. -/
def optionalEntry {α : Type} (entries : List (String × Toml.Value)) (key : String)
    (read : Toml.Value → Option α) : Option (Option α) :=
  match entries.lookup key with
  | none => some none
  | some v => (read v).map some

/-- The name of a severity, alone or as the only key of a table with an empty value. -/
def Severity.ofToml? : Toml.Value → Option Severity
  | .string s => ofName? s
  | .table [(name, v)] => if v.isEmpty then ofName? name else none
  | _ => none

namespace Scope

def strings? (v : Toml.Value) : Option (List String) := v.array?.bind (·.mapM Toml.Value.string?)

/-- From the three settings, each of which may be missing. -/
def ofSettings? (root exclude respectGitignore : Option Toml.Value) : Option Scope := do
  let standard : Scope := {}
  let root ← match root with
    | some v => v.string?.map Path.mk
    | none => some standard.root
  let exclude ← match exclude with
    | some v => strings? v
    | none => some standard.exclude
  let respectGitignore ← match respectGitignore with
    | some v => v.boolean?
    | none => some standard.respectGitignore
  return { root, exclude, respectGitignore }

/-- A table, or the array of the settings in order. -/
def ofToml? : Toml.Value → Option Scope
  | .array items => ofSettings? items[0]? items[1]? items[2]?
  | v => v.fields?.bind fun entries =>
    ofSettings? (entries.lookup "root") (entries.lookup "exclude") (entries.lookup "respect_gitignore")

end Scope

namespace RuleBlock

def ofToml? (v : Toml.Value) : Option RuleBlock := do
  let entries ← v.fields?
  let enabled ← optionalEntry entries "enabled" Toml.Value.boolean?
  let severity ← optionalEntry entries "severity" Severity.ofToml?
  let options := entries.filter fun (key, _) => key ≠ "enabled" && key ≠ "severity"
  return { enabled, severity, options }

end RuleBlock

namespace Config

def ofEntries? (entries : List (String × Toml.Value)) : Option Config := do
  let failOn ← optionalEntry entries "fail_on" Severity.ofToml?
  let scope ← optionalEntry entries "analyzer" Scope.ofToml?
  let rules ← optionalEntry entries "rules" fun v => do
    (← v.fields?).mapM fun (rule : String × Toml.Value) => (RuleBlock.ofToml? rule.2).map (rule.1, ·)
  return { failOn, scope := scope.getD {}, rules := rules.getD [] }

def read (text : String) : Except Error Config :=
  match (Toml.read text).bind ofEntries? with
  | some c => .ok c
  | none => .error .malformed

end Config

end CallChain
