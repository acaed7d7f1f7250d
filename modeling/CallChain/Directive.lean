import CallChain.Text.Blank
import CallChain.Text.Lines
import CallChain.Text.Search

/-!
Allow comments. A line whose first `//` is followed by `chain-lint: allow(names)` lets the named rules
pass on that line and on the next one; the name `all` stands for every rule. A text in quotes behind
`reason=` gives the reason.
-/
namespace CallChain

/-- What an allow comment says. -/
structure Directive where
  rules : List String
  reason : Option String
  deriving DecidableEq, Repr

namespace Directive

/-- The quoted text behind `reason=`. -/
def readReason (tail : List Char) : Option String := do
  let quoted ← "reason=".toList.isPrefixOf? (Text.trim tail)
  let opened ← ['"'].isPrefixOf? (Text.trim quoted)
  let (reason, _) ← Text.splitFirst? ['"'] opened
  return String.ofList reason

/-- The names between the parentheses of `allow(…)`. -/
def readNames (inside : List Char) : List String :=
  ((Text.splitAt ',' inside).map fun name => String.ofList (Text.trim name)).filter (· ≠ "")

/-- Reads the directive of one line. A comment that names no rule is none. -/
def ofLine? (line : List Char) : Option Directive := do
  let (_, comment) ← Text.splitFirst? ['/', '/'] line
  let directive ← "chain-lint:".toList.isPrefixOf? (Text.trim comment)
  let opened ← "allow(".toList.isPrefixOf? (Text.trim directive)
  let (inside, tail) ← Text.splitFirst? [')'] (Text.trim opened)
  match readNames inside with
  | [] => none
  | rules => some { rules, reason := readReason tail }

def names (d : Directive) (rule : String) : Bool := d.rules.contains rule || d.rules.contains "all"

/-- The directive of line `n` that names the rule. -/
def onLine? (content : List Char) (n : Nat) (rule : String) : Option Directive :=
  ((Text.line? n content).bind ofLine?).filter (names · rule)

end Directive

/-- Whether a finding of a rule is let pass. -/
inductive Allowance where
  | denied
  | allowed (reason : Option String)
  deriving DecidableEq, Repr

namespace Allowance

def isAllowed : Allowance → Bool
  | denied => false
  | allowed _ => true

def reason? : Allowance → Option String
  | denied => none
  | allowed reason => reason

/-- The line before is asked first, then the line itself. -/
def find (content : String) (line : Nat) (rule : String) : Allowance :=
  let here := Directive.onLine? content.toList line rule
  match (Directive.onLine? content.toList (line - 1) rule).or here with
  | some directive => allowed directive.reason
  | none => denied

end Allowance

end CallChain
