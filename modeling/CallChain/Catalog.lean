import CallChain.Chain.Options

/-!
The rules that come with the linter.
-/
namespace CallChain.Catalog

/-- All rules, with their standard settings. -/
def standard : List Rule := [Chain.rule {}]

/-- All rules, with the settings of a configuration. -/
def ofConfig (c : Config) : Except Config.Error (List Rule) := do
  return [Chain.rule (← Chain.Settings.ofConfig c)]

end CallChain.Catalog
