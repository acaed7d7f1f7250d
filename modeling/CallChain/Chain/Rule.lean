import CallChain.Chain.Finding
import CallChain.Directive
import CallChain.Rule

/-!
The rule on long method chains, and the settings it has.
-/
namespace CallChain.Chain

open CallChain.Syntax

structure Settings where
  /-- Chains up to this length may stay on one line. -/
  threshold : Nat := 2
  /-- Allow comments have to give a reason. -/
  requireReason : Bool := false
  severity : Severity := .warning
  deriving DecidableEq, Repr

def ruleName : String := "method-chaining"

def ruleCode : String := "CL001"

namespace Finding

/-- The finding as a violation at a place, with the operator's place for the mend and the chain's for a
remark. -/
def violationAt (f : Finding) (severity : Severity) (place operator chain : Location) : Violation :=
  (Violation.make ruleCode ruleName severity place f.message
    |>.withMessageId "expected"
    |>.withData "callText" f.callText
    |>.withData "chainings" (toString f.chainings)
    |>.withData "nodeCode" f.nodeCode
    |>.withLabel ⟨chain, toString f.chainings ++ "-call chain"⟩
    |>.withSuggestion ⟨"Insert a line break before '." ++ f.callText ++ "'",
      some (.insertBefore operator "\n")⟩)

/-- The finding as a violation; the line break that is missing is the mend. -/
def toViolation (f : Finding) (file : Path) (severity : Severity) : Violation :=
  f.violationAt severity (.ofSpan file f.span) (.ofSpan file f.operator) (.ofSpan file f.chain)

/-- What is allowed at a place is so without the reason that is asked for. -/
def missingReasonAt (place : Location) : Violation :=
  (Violation.make ruleCode ruleName .warning place
    ("Allow directive for '" ++ ruleName ++ "' is missing required reason")
    |>.withSuggestion ⟨"Add reason=\"...\" to explain why this exception is necessary", none⟩)

/-- The finding is allowed, but without the reason that is asked for. -/
def missingReason (f : Finding) (file : Path) : Violation := missingReasonAt (.ofSpan file f.span)

/-- What is reported of a finding, after the allow comments on its line and the line before. -/
def report? (settings : Settings) (ctx : FileContext) (f : Finding) : Option Violation :=
  match Allowance.find ctx.content f.operator.startPos.line ruleName with
  | .denied => some (f.toViolation ctx.relativePath settings.severity)
  | .allowed none => if settings.requireReason then some (f.missingReason ctx.relativePath) else none
  | .allowed (some _) => none

end Finding

def check (settings : Settings) (ctx : FileContext) (tree : Arena) : List Violation :=
  let findings := Finding.all settings.threshold ⟨ctx.content.toList, tree⟩
  (findings.filterMap (Finding.report? settings ctx)).mergeSort Violation.inText

def rule (settings : Settings) : Rule where
  name := ruleName
  code := ruleCode
  description := "Requires a line break before each call of a long method chain"
  defaultSeverity := settings.severity
  requiresReason := settings.requireReason
  check := check settings

end CallChain.Chain
