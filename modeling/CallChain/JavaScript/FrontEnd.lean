import CallChain.FrontEnd
import CallChain.JavaScript.Reader

/-!
The front end for JavaScript.
-/
namespace CallChain.JavaScript

def parse (source : String) : Except ParseFault Syntax.Arena :=
  (read source).mapError fun p => .malformed p.line (p.column + 1)

def frontEnd : FrontEnd where
  extensions := [".js", ".mjs", ".cjs", ".jsx"]
  parse := parse

end CallChain.JavaScript
