import CallChain.Chain.Rule
import CallChain.Config

/-!
The settings of the rule on method chains in a configuration.
-/
namespace CallChain.Chain

/-- The threshold lies between these bounds. -/
def minThreshold : Nat := 1

def maxThreshold : Nat := 10

/-- The severity is not among the options: it replaces that of the findings. -/
def Settings.ofConfig (c : Config) : Except Config.Error Settings :=
  match c.rule? ruleName with
  | none => .ok {}
  | some block => do
    let standard : Settings := {}
    let threshold ← block.getInRange ruleName "ignore_chain_with_depth" minThreshold maxThreshold
      standard.threshold
    let requireReason := block.get "require_allow_reason" Toml.Value.boolean? false
    return { standard with threshold, requireReason }

end CallChain.Chain
