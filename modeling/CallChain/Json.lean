/-!
JSON values and their indented text. Objects keep their fields in writing order.
-/
namespace CallChain

inductive Json where
  | null
  | bool (b : Bool)
  /-- The decimal number `mantissa / 10 ^ places`. -/
  | number (mantissa : Int) (places : Nat)
  | string (s : String)
  | array (items : List Json)
  | object (fields : List (String × Json))
  deriving Inhabited

namespace Json

def natural (n : Nat) : Json := .number n 0

/-- The value of a field of an object. -/
def field? (fields : List (String × Json)) (key : String) : Option Json := fields.lookup key

def hexDigit (n : Nat) : Char := ("0123456789abcdef".toList)[n]?.getD '0'

/-- Quotes, backslashes and controls are escaped, everything else is written as it is. -/
def escape (c : Char) : List Char :=
  match c with
  | '"' => ['\\', '"']
  | '\\' => ['\\', '\\']
  | '\n' => ['\\', 'n']
  | '\r' => ['\\', 'r']
  | '\t' => ['\\', 't']
  | '\x08' => ['\\', 'b']
  | '\x0c' => ['\\', 'f']
  | c =>
    if c.toNat < 0x20 then ['\\', 'u', '0', '0', hexDigit (c.toNat / 16), hexDigit (c.toNat % 16)]
    else [c]

def quote (s : String) : String := String.ofList ('"' :: s.toList.flatMap escape ++ ['"'])

def indent (depth : Nat) : String := String.ofList (List.replicate (2 * depth) ' ')

def numberText (mantissa : Int) (places : Nat) : String :=
  if places = 0 then toString mantissa
  else
    let digits := toString mantissa.natAbs
    let filled := String.ofList (List.replicate (places + 1 - digits.length) '0') ++ digits
    let whole := filled.toList.take (filled.length - places)
    let rest := filled.toList.drop (filled.length - places)
    (if mantissa < 0 then "-" else "") ++ String.ofList whole ++ "." ++ String.ofList rest

mutual

/-- The text of a value whose lines are indented by `depth` steps. -/
def pretty (depth : Nat) : Json → String
  | null => "null"
  | bool b => if b then "true" else "false"
  | number mantissa places => numberText mantissa places
  | string s => quote s
  | array [] => "[]"
  | array (item :: items) =>
    let first := "[\n" ++ indent (depth + 1) ++ pretty (depth + 1) item
    first ++ prettyItems (depth + 1) items ++ "\n" ++ indent depth ++ "]"
  | object [] => "\x7b\x7d"
  | object ((key, value) :: fields) =>
    let first := "\x7b\n" ++ indent (depth + 1) ++ quote key ++ ": " ++ pretty (depth + 1) value
    first ++ prettyFields (depth + 1) fields ++ "\n" ++ indent depth ++ "\x7d"

/-- The items of an array behind the first. -/
def prettyItems (depth : Nat) : List Json → String
  | [] => ""
  | item :: items => ",\n" ++ indent depth ++ pretty depth item ++ prettyItems depth items

/-- The fields of an object behind the first. -/
def prettyFields (depth : Nat) : List (String × Json) → String
  | [] => ""
  | (key, value) :: fields =>
    ",\n" ++ indent depth ++ quote key ++ ": " ++ pretty depth value ++ prettyFields depth fields

end

/-- The indented text. -/
def text (j : Json) : String := j.pretty 0

end Json

end CallChain
