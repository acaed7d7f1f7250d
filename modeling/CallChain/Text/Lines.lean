/-!
Lines end at a line feed, and a carriage return right before it belongs to the line's end. A text that
ends in a line feed has no further, empty line.
-/
namespace CallChain.Text

/-- Drops a carriage return from the end of a line that is held in reverse. -/
def closeLine : List Char → List Char
  | '\r' :: line => line.reverse
  | line => line.reverse

/-- The lines of a text behind the characters of `line`, which are held in reverse. -/
def linesFrom (line : List Char) : List Char → List (List Char)
  | [] => if line.isEmpty then [] else [line.reverse]
  | c :: cs => if c = '\n' then closeLine line :: linesFrom [] cs else linesFrom (c :: line) cs

def lines (cs : List Char) : List (List Char) := linesFrom [] cs

/-- The line with number `n`, counted from one. -/
def line? (n : Nat) (cs : List Char) : Option (List Char) :=
  if n = 0 then none else (lines cs)[n - 1]?

end CallChain.Text
