import CallChain.Syntax.Arena
import CallChain.Text.Bytes

/-!
A text together with its syntax tree.
-/
namespace CallChain

open CallChain.Syntax (Arena NodeId Token)

structure Source where
  text : List Char
  tree : Arena

namespace Source

/-- What stands in a span; nothing, if the span does not fit the text. -/
def textIn (s : Source) (span : Span) : String :=
  String.ofList ((Text.slice? span.start span.stop s.text).getD [])

def textOf (s : Source) (id : NodeId) : String := s.textIn (s.tree.span id)

end Source

end CallChain
