/-!
Search inside texts: splitting at a phrase, at the first of them or at each of them, and finding all
places where one stands.
-/
namespace CallChain.Text

/-- What stands before and after the first `phrase`. -/
def splitFirst? (phrase : List Char) : List Char → Option (List Char × List Char)
  | [] => (phrase.isPrefixOf? []).map ([], ·)
  | c :: cs =>
    match phrase.isPrefixOf? (c :: cs) with
    | some rest => some ([], rest)
    | none => (splitFirst? phrase cs).map fun (before, rest) => (c :: before, rest)

/-- The pieces of a text between the characters equal to `mark`; at least one. -/
def splitAt (mark : Char) : List Char → List (List Char)
  | [] => [[]]
  | c :: cs =>
    if c = mark then [] :: splitAt mark cs
    else
      match splitAt mark cs with
      | [] => [[c]]
      | piece :: pieces => (c :: piece) :: pieces

/-- Joins texts with `glue` between them. -/
def join (glue : List Char) : List (List Char) → List Char
  | [] => []
  | [piece] => piece
  | piece :: pieces => piece ++ glue ++ join glue pieces

/-- `phrase` stands somewhere in the text. -/
def contains (phrase cs : List Char) : Bool := (splitFirst? phrase cs).isSome

/-- Byte offsets at which `phrase` stands, left to right and without overlap, for a text that starts
at byte `offset` and of which the first `skip` characters are already used up. The empty phrase stands
at every character boundary. -/
def occurrencesFrom (phrase : List Char) (offset skip : Nat) : List Char → List Nat
  | [] => if skip = 0 && phrase.isEmpty then [offset] else []
  | c :: cs =>
    match skip with
    | skip + 1 => occurrencesFrom phrase (offset + c.utf8Size) skip cs
    | 0 =>
      if phrase.isPrefixOf (c :: cs) then
        offset :: occurrencesFrom phrase (offset + c.utf8Size) (phrase.length - 1) cs
      else occurrencesFrom phrase (offset + c.utf8Size) 0 cs

def occurrences (phrase cs : List Char) : List Nat := occurrencesFrom phrase 0 0 cs

end CallChain.Text
