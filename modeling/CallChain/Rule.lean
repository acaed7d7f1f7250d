import CallChain.FileContext
import CallChain.Syntax.Arena
import CallChain.Violation

/-!
Rules: what the linter knows of a check.
-/
namespace CallChain

structure Rule where
  name : String
  code : String
  description : String := ""
  defaultSeverity : Severity := .error
  /-- An allow comment has to give a reason. -/
  requiresReason : Bool := defaultSeverity == .error
  check : FileContext → Syntax.Arena → List Violation

end CallChain
