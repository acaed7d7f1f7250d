/-!
How grave a finding is.
-/
namespace CallChain

inductive Severity where
  | info
  | warning
  | error
  deriving DecidableEq, Repr, Inhabited

namespace Severity

def name : Severity → String
  | info => "info"
  | warning => "warning"
  | error => "error"

def ofName? : String → Option Severity
  | "info" => some info
  | "warning" => some warning
  | "error" => some error
  | _ => none

def rank : Severity → Nat
  | info => 0
  | warning => 1
  | error => 2

instance : Ord Severity := ⟨fun a b => compare a.rank b.rank⟩

/-- `a` is as grave as `threshold` or graver. -/
def atLeast (a threshold : Severity) : Bool := threshold.rank ≤ a.rank

theorem ofName?_name (s : Severity) : ofName? s.name = some s := by cases s <;> rfl

end Severity

end CallChain
