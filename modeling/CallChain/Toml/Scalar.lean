import CallChain.Decimal.Nearest
import CallChain.Toml.Value

/-!
The scalars of TOML at the front of a text. A reader gives what it read and the rest, or nothing if the
text does not start with what it reads.
-/
namespace CallChain.Toml

abbrev Reader (α : Type) := List Char → Option (α × List Char)

def isBlank (c : Char) : Bool := c == ' ' || c == '\t'

def skipBlanks (cs : List Char) : List Char := cs.dropWhile isBlank

/-- Characters that may stand in comments and literal strings. -/
def isPlain (c : Char) : Bool := c == '\t' || (0x20 ≤ c.toNat && c.toNat ≠ 0x7F)

/-- Behind the line end at the front. -/
def newline? : List Char → Option (List Char)
  | '\n' :: cs => some cs
  | '\r' :: '\n' :: cs => some cs
  | _ => none

def hexValue? (c : Char) : Option Nat :=
  if c.isDigit then some (c.toNat - '0'.toNat)
  else if 'a' ≤ c && c ≤ 'f' then some (c.toNat - 'a'.toNat + 10)
  else if 'A' ≤ c && c ≤ 'F' then some (c.toNat - 'A'.toNat + 10)
  else none

/-- Exactly `n` hexadecimal digits as the number of a character. -/
def readScalarValue (n : Nat) : Reader Char := fun cs => do
  let digits := cs.take n
  guard (digits.length = n)
  let values ← digits.mapM hexValue?
  let code := values.foldl (fun acc v => acc * 16 + v) 0
  guard (code.isValidChar)
  return (Char.ofNat code, cs.drop n)

/-- An escape sequence behind its backslash. -/
def readEscape : Reader Char
  | 'b' :: cs => some ('\x08', cs)
  | 't' :: cs => some ('\t', cs)
  | 'n' :: cs => some ('\n', cs)
  | 'f' :: cs => some ('\x0c', cs)
  | 'r' :: cs => some ('\r', cs)
  | '"' :: cs => some ('"', cs)
  | '\\' :: cs => some ('\\', cs)
  | 'u' :: cs => readScalarValue 4 cs
  | 'U' :: cs => readScalarValue 8 cs
  | _ => none

/-- A string in double quotes, behind the opening one. -/
def readBasic : Nat → Reader (List Char)
  | 0, _ => none
  | n + 1, cs =>
    match cs with
    | '"' :: rest => some ([], rest)
    | '\\' :: rest => do
      let (c, rest) ← readEscape rest
      let (s, rest) ← readBasic n rest
      return (c :: s, rest)
    | c :: rest => do
      guard (isPlain c)
      let (s, rest) ← readBasic n rest
      return (c :: s, rest)
    | [] => none

/-- A string in single quotes, behind the opening one. -/
def readLiteral : Reader (List Char)
  | [] => none
  | c :: cs => do
    if c = '\'' then return ([], cs)
    else
      guard (isPlain c)
      let (s, rest) ← readLiteral cs
      return (c :: s, rest)

/-- Three quotes that close a text, with up to two more before them that belong to it. -/
def closing? (quote : Char) (cs : List Char) : Option (List Char × List Char) :=
  let quotes := (cs.takeWhile (· = quote)).length
  if quotes < 3 then none
  else
    let own := min (quotes - 3) 2
    some (List.replicate own quote, cs.drop (own + 3))

/-- Skips blanks and line ends. -/
def skipLines : List Char → List Char
  | [] => []
  | '\r' :: '\n' :: cs => skipLines cs
  | c :: cs => if isBlank c || c = '\n' then skipLines cs else c :: cs

/-- A backslash at the end of a line, behind the backslash: everything up to the next character that is
not blank is passed over. -/
def continuation? (cs : List Char) : Option (List Char) := (newline? (skipBlanks cs)).map skipLines

/-- A text over several lines, in which `escapes` are read or not. -/
def readLong (quote : Char) (escapes : Bool) : Nat → Reader (List Char)
  | 0, _ => none
  | n + 1, cs =>
    match closing? quote cs with
    | some r => some r
    | none =>
      match newline? cs with
      | some rest => do
        let (s, rest) ← readLong quote escapes n rest
        return ('\n' :: s, rest)
      | none =>
        match cs with
        | [] => none
        | c :: rest =>
          if escapes && c = '\\' then
            match continuation? rest with
            | some rest => readLong quote escapes n rest
            | none => do
              let (c, rest) ← readEscape rest
              let (s, rest) ← readLong quote escapes n rest
              return (c :: s, rest)
          else do
            guard (isPlain c)
            let (s, rest) ← readLong quote escapes n rest
            return (c :: s, rest)

/-- A line end right behind the opening quotes does not count. -/
def dropFirstNewline (cs : List Char) : List Char := (newline? cs).getD cs

def readString : Reader String := fun cs =>
  let text : Option (List Char × List Char) :=
    match cs with
    | '"' :: '"' :: '"' :: rest => readLong '"' true (rest.length + 1) (dropFirstNewline rest)
    | '\'' :: '\'' :: '\'' :: rest => readLong '\'' false (rest.length + 1) (dropFirstNewline rest)
    | '"' :: rest => readBasic (rest.length + 1) rest
    | '\'' :: rest => readLiteral rest
    | _ => none
  text.map fun (s, rest) => (String.ofList s, rest)

/-! ### Numbers -/

/-- Digits with single underscores between them, which are dropped. -/
def readDigits (isDigit : Char → Bool) : Reader (List Char)
  | [] => none
  | c :: cs =>
    if isDigit c then
      match cs with
      | [] => some ([c], [])
      | d :: ds =>
        if d = '_' then (readDigits isDigit ds).map fun (s, rest) => (c :: s, rest)
        else if isDigit d then (readDigits isDigit (d :: ds)).map fun (s, rest) => (c :: s, rest)
        else some ([c], d :: ds)
    else none

def valueIn (base : Nat) (digits : List Char) : Nat :=
  digits.foldl (fun acc c => acc * base + (hexValue? c).getD 0) 0

/-- The number fits a signed word of 64 bits. -/
def integerOf? (n : Int) : Option Value :=
  if -9223372036854775808 ≤ n && n ≤ 9223372036854775807 then some (.integer n) else none

def readBased (base : Nat) (isDigit : Char → Bool) : Reader Value := fun cs => do
  let (digits, rest) ← readDigits isDigit cs
  let value ← integerOf? (valueIn base digits)
  return (value, rest)

/-- An optional sign. -/
def readSign : List Char → Bool × List Char
  | '-' :: cs => (true, cs)
  | '+' :: cs => (false, cs)
  | cs => (false, cs)

def signed (negative : Bool) (n : Nat) : Int := if negative then -(n : Int) else n

/-- The digits of a whole number; only zero itself starts with a zero. -/
def readWhole : Reader (List Char) := fun cs => do
  let (digits, rest) ← readDigits Char.isDigit cs
  guard (digits.length = 1 || digits.head? ≠ some '0')
  return (digits, rest)

def readExponent? : List Char → Option (Option (Int × List Char))
  | e :: cs =>
    if e = 'e' || e = 'E' then
      let (negative, rest) := readSign cs
      (readDigits Char.isDigit rest).map fun (digits, rest) =>
        some (signed negative (valueIn 10 digits), rest)
    else some none
  | [] => some none

/-- The double next to `digits * 10 ^ exponent`. A positive number beyond all doubles is refused. -/
def floatOf? (negative : Bool) (digits : List Char) (exponent : Int) : Option Value :=
  let x := Decimal.nearest negative (valueIn 10 digits) exponent
  if x.isInf && !negative then none else some (.float x)

/-- A decimal number: an integer, or a float if a fraction or an exponent follows. -/
def readDecimal : Reader Value := fun cs => do
  let (negative, rest) := readSign cs
  let (whole, rest) ← readWhole rest
  let (fraction, rest) ← match rest with
    | '.' :: tail => (readDigits Char.isDigit tail).map fun (f, rest) => (some f, rest)
    | _ => some (none, rest)
  let exponent ← readExponent? rest
  match fraction, exponent with
  | none, none =>
    let value ← integerOf? (signed negative (valueIn 10 whole))
    return (value, rest)
  | fraction, exponent =>
    let places := fraction.getD []
    let (power, rest) := exponent.getD (0, rest)
    let value ← floatOf? negative (whole ++ places) (power - places.length)
    return (value, rest)

/-- Infinities and what is no number. -/
def readSpecial : Reader Value := fun cs =>
  let (negative, rest) := readSign cs
  match rest with
  | 'i' :: 'n' :: 'f' :: rest => some (.float (if negative then -(1.0 / 0.0) else 1.0 / 0.0), rest)
  | 'n' :: 'a' :: 'n' :: rest => some (.float (0.0 / 0.0), rest)
  | _ => none

def isOctal (c : Char) : Bool := '0' ≤ c && c ≤ '7'

def readNumber : Reader Value := fun cs =>
  match cs with
  | '0' :: 'x' :: rest => readBased 16 (hexValue? · |>.isSome) rest
  | '0' :: 'o' :: rest => readBased 8 isOctal rest
  | '0' :: 'b' :: rest => readBased 2 (fun c => c == '0' || c == '1') rest
  | _ => (readDecimal cs).or (readSpecial cs)

/-! ### Dates and times -/

/-- Exactly `n` digits. -/
def readFixed (n : Nat) : Reader Nat := fun cs =>
  let digits := cs.take n
  if digits.length = n && digits.all Char.isDigit then some (valueIn 10 digits, cs.drop n) else none

def isLeapYear (year : Nat) : Bool := (year % 4 = 0 && year % 100 ≠ 0) || year % 400 = 0

def daysIn (year month : Nat) : Nat :=
  if month = 2 then if isLeapYear year then 29 else 28
  else if [4, 6, 9, 11].contains month then 30
  else 31

/-- The number with leading zeros up to `n` digits. -/
def padded (n : Nat) (value : Nat) : String :=
  let digits := toString value
  String.ofList (List.replicate (n - digits.length) '0') ++ digits

def readMark (mark : Char) : List Char → Option (List Char)
  | c :: cs => if c = mark then some cs else none
  | [] => none

def readDate : Reader String := fun cs => do
  let (year, rest) ← readFixed 4 cs
  let rest ← readMark '-' rest
  let (month, rest) ← readFixed 2 rest
  guard (1 ≤ month && month ≤ 12)
  let rest ← readMark '-' rest
  let (day, rest) ← readFixed 2 rest
  guard (1 ≤ day && day ≤ daysIn year month)
  return (padded 4 year ++ "-" ++ padded 2 month ++ "-" ++ padded 2 day, rest)

/-- The fraction of a second, cut at nine digits and without zeros at its end. -/
def readFraction : Reader String
  | '.' :: cs =>
    let digits := cs.takeWhile Char.isDigit
    if digits.isEmpty then none
    else
      let kept := ((digits.take 9).reverse.dropWhile (· = '0')).reverse
      some (if kept.isEmpty then "" else String.ofList ('.' :: kept), cs.drop digits.length)
  | cs => some ("", cs)

def readTime : Reader String := fun cs => do
  let (hour, rest) ← readFixed 2 cs
  guard (hour ≤ 23)
  let rest ← readMark ':' rest
  let (minute, rest) ← readFixed 2 rest
  guard (minute ≤ 59)
  let rest ← readMark ':' rest
  let (second, rest) ← readFixed 2 rest
  guard (second ≤ 60)
  let (fraction, rest) ← readFraction rest
  return (padded 2 hour ++ ":" ++ padded 2 minute ++ ":" ++ padded 2 second ++ fraction, rest)

/-- The difference to universal time; none for a local time. -/
def readOffset : Reader String := fun cs =>
  let numeric (sign : String) (rest : List Char) : Option (String × List Char) := do
    let (hour, rest) ← readFixed 2 rest
    guard (hour ≤ 23)
    let rest ← readMark ':' rest
    let (minute, rest) ← readFixed 2 rest
    guard (minute ≤ 59)
    let shown := if hour = 0 && minute = 0 then "+" else sign
    return (shown ++ padded 2 hour ++ ":" ++ padded 2 minute, rest)
  match cs with
  | 'Z' :: rest | 'z' :: rest => some ("Z", rest)
  | '+' :: rest => numeric "+" rest
  | '-' :: rest => numeric "-" rest
  | _ => some ("", cs)

/-- The time behind a date, if one follows. A blank in between has to be followed by a digit. -/
def readDatedTime : Reader String := fun cs =>
  let timed (rest : List Char) : Option (String × List Char) := do
    let (time, rest) ← readTime rest
    let (offset, rest) ← readOffset rest
    return ("T" ++ time ++ offset, rest)
  match cs with
  | 'T' :: rest | 't' :: rest => timed rest
  | ' ' :: c :: rest => if c.isDigit then timed (c :: rest) else some ("", cs)
  | _ => some ("", cs)

def readDatetime : Reader Value := fun cs =>
  let dated : Option (Value × List Char) := do
    let (date, rest) ← readDate cs
    let (time, rest) ← readDatedTime rest
    return (.datetime (date ++ time), rest)
  dated.or ((readTime cs).map fun (time, rest) => (.datetime time, rest))

/-- A date or a time starts here. -/
def looksDated (cs : List Char) : Bool :=
  match cs.take 5 with
  | [a, b, c, d, e] =>
    (a.isDigit && b.isDigit && c = ':') ||
      (a.isDigit && b.isDigit && c.isDigit && d.isDigit && e = '-')
  | _ => false

def readBoolean : Reader Value := fun cs =>
  match "true".toList.isPrefixOf? cs, "false".toList.isPrefixOf? cs with
  | some rest, _ => some (.boolean true, rest)
  | _, some rest => some (.boolean false, rest)
  | _, _ => none

/-- Any value but arrays and tables. -/
def readScalar : Reader Value := fun cs =>
  match cs with
  | '"' :: _ | '\'' :: _ => (readString cs).map fun (s, rest) => (.string s, rest)
  | 't' :: _ | 'f' :: _ => readBoolean cs
  | _ => if looksDated cs then readDatetime cs else readNumber cs

end CallChain.Toml
