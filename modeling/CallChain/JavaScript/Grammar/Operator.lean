import CallChain.JavaScript.Lexeme

/-!
Operators between operands, with how tightly they bind.
-/
namespace CallChain.JavaScript

structure Operator where
  text : String
  level : Nat
  /-- Of two in a row, the right one binds first. -/
  toRight : Bool
  deriving Repr

namespace Operator

/-- The level of the conditional operator, the loosest. -/
def conditionalLevel : Nat := 1

/-- Operators that are written with punctuation; one that starts with another comes before it. -/
def table : List Operator :=
  [⟨">>>", 9, false⟩, ⟨"===", 7, false⟩, ⟨"!==", 7, false⟩, ⟨"**", 12, true⟩, ⟨"&&", 3, false⟩,
   ⟨"||", 2, false⟩, ⟨"??", 1, false⟩, ⟨">>", 9, false⟩, ⟨"<<", 9, false⟩, ⟨"<=", 8, false⟩,
   ⟨">=", 8, false⟩, ⟨"==", 7, false⟩, ⟨"!=", 7, false⟩, ⟨"+", 10, false⟩, ⟨"-", 10, false⟩,
   ⟨"*", 11, false⟩, ⟨"/", 11, false⟩, ⟨"%", 11, false⟩, ⟨"&", 6, false⟩, ⟨"|", 4, false⟩,
   ⟨"^", 5, false⟩, ⟨"<", 8, false⟩, ⟨">", 8, false⟩]

/-- Operators that are words. -/
def words : List Operator := [⟨"in", 8, false⟩, ⟨"instanceof", 8, false⟩]

/-- Operators that assign, besides the plain equals sign. -/
def assignments : List String :=
  [">>>=", "**=", ">>=", "<<=", "&&=", "||=", "??=", "+=", "-=", "*=", "/=", "%=", "^=", "&=", "|="]

def isStep (cs : List Char) : Bool := "++".toList.isPrefixOf cs || "--".toList.isPrefixOf cs

/-- The operator that assigns at the front of a text. -/
def assignmentAt? (cs : List Char) : Option String := assignments.find? (·.toList.isPrefixOf cs)

/-- A plain equals sign, not the start of a comparison or an arrow. -/
def isEquals : List Char → Bool
  | '=' :: c :: _ => c ≠ '=' && c ≠ '>'
  | '=' :: [] => true
  | _ => false

/-- The operator between operands at the front of a text. -/
def at? (cs : List Char) : Option Operator :=
  if (assignmentAt? cs).isSome || isStep cs then none
  else (table.find? (·.text.toList.isPrefixOf cs)).or (words.find? (startsWithName ·.text cs))

/-- The mark of a conditional expression; `?.` before a digit is one too. -/
def isConditional : List Char → Bool
  | '?' :: '?' :: _ => false
  | '?' :: '.' :: c :: _ => c.isDigit
  | '?' :: '.' :: [] => false
  | '?' :: _ => true
  | _ => false

/-- The mark of an optional access or call. -/
def isOptionalChain : List Char → Bool
  | '?' :: '.' :: c :: _ => !c.isDigit
  | '?' :: '.' :: [] => true
  | _ => false

end Operator

end CallChain.JavaScript
