import CallChain.Path
import CallChain.Text.Lines

/-!
What a rule learns about the file it checks.
-/
namespace CallChain

structure FileContext where
  path : Path
  content : String
  /-- The path below the project's root. -/
  relativePath : Path

namespace FileContext

def make (path : Path) (content : String) (root : Path) : FileContext :=
  { path, content, relativePath := path.relativeTo root }

/-- The line with number `n`, counted from one, without its end. -/
def line? (ctx : FileContext) (n : Nat) : Option String :=
  (Text.line? n ctx.content.toList).map String.ofList

end FileContext

end CallChain
