import CallChain.Violation

/-!
The outcome of a run over files.
-/
namespace CallChain

structure Report where
  violations : List Violation
  filesChecked : Nat
  filesFixed : Nat

/-- How many findings there are of each severity. -/
structure Tally where
  errors : Nat
  warnings : Nat
  infos : Nat
  deriving DecidableEq, Repr

namespace Report

def empty : Report := ⟨[], 0, 0⟩

def push (r : Report) (v : Violation) : Report := { r with violations := r.violations ++ [v] }

/-- Some finding is as grave as the threshold. -/
def hasAtLeast (r : Report) (threshold : Severity) : Bool :=
  r.violations.any (·.severity.atLeast threshold)

def count (r : Report) (s : Severity) : Nat := r.violations.countP (·.severity = s)

def tally (r : Report) : Tally := ⟨r.count .error, r.count .warning, r.count .info⟩

/-- Number of findings that can be mended automatically. -/
def fixable (r : Report) : Nat := r.violations.countP (·.replacement?.isSome)

/-- Order of the report: by file, then line, then column. -/
def inOrder (a b : Violation) : Bool :=
  (((a.location.file.compare b.location.file).then
    (compare a.location.line b.location.line)).then
      (compare a.location.column b.location.column)).isLE

/-- Findings at one place keep their order. -/
def sort (r : Report) : Report := { r with violations := r.violations.mergeSort inOrder }

end Report

end CallChain
