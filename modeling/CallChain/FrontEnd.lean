import CallChain.Syntax.Arena

/-!
Front ends: how the texts of a language become syntax trees.
-/
namespace CallChain

inductive ParseFault where
  /-- The grammar of the language cannot be used. -/
  | grammar (language message : String)
  | noTree
  /-- The text is not of the language; both numbers count from one. -/
  | malformed (line column : Nat)
  deriving DecidableEq, Repr

def ParseFault.message : ParseFault → String
  | grammar language message => "failed to load " ++ language ++ " grammar: " ++ message
  | noTree => "parser produced no syntax tree"
  | malformed line column => "syntax error at " ++ toString line ++ ":" ++ toString column

structure FrontEnd where
  /-- Endings of the files it reads, with their dot. -/
  extensions : List String
  parse : String → Except ParseFault Syntax.Arena

end CallChain
