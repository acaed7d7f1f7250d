import CallChain.JavaScript.Place

/-!
How many characters the words, numbers and pieces of literals at the front of a text take. Zero or
`none` means that there is none.
-/
namespace CallChain.JavaScript

def openBrace : String := "\x7b"

def closeBrace : String := "\x7d"

def punctuation : List Char := ":;`\"'@#.,|^&<=>+-*/\\%?!~()[]\x7b\x7d".toList

/-- Any character but blanks, controls and punctuation may stand in a name. -/
def isNamePart (c : Char) : Bool := 0x1F < c.toNat && !isSpace c && !punctuation.contains c

def isNameStart (c : Char) : Bool := isNamePart c && !c.isDigit

def nameLength : List Char → Nat
  | [] => 0
  | c :: cs => if isNameStart c then 1 + (cs.takeWhile isNamePart).length else 0

/-- The name at the front. -/
def nameAt (cs : List Char) : List Char := cs.take (nameLength cs)

/-- The text starts with this name and not with a longer one. -/
def startsWithName (word : String) (cs : List Char) : Bool := nameAt cs = word.toList

/-- Digits with single underscores between them. `pos` characters are passed, of which the first `good`
belong to the number; `marked` tells that the last was an underscore. -/
def digitsFrom (isDigit : Char → Bool) (pos good : Nat) (marked : Bool) : List Char → Nat
  | [] => good
  | c :: cs =>
    if isDigit c then digitsFrom isDigit (pos + 1) (pos + 1) false cs
    else if c = '_' && !marked && 0 < good then digitsFrom isDigit (pos + 1) good true cs
    else good

def digitsLength (isDigit : Char → Bool) (cs : List Char) : Nat := digitsFrom isDigit 0 0 false cs

def isHexDigit (c : Char) : Bool :=
  c.isDigit || ('a' ≤ c && c ≤ 'f') || ('A' ≤ c && c ≤ 'F')

def isOctalDigit (c : Char) : Bool := '0' ≤ c && c ≤ '7'

def isBinaryDigit (c : Char) : Bool := c == '0' || c == '1'

/-- `e` with an optional sign and digits. -/
def exponentLength : List Char → Nat
  | e :: cs =>
    if e = 'e' || e = 'E' then
      let sign := match cs with
        | '+' :: _ | '-' :: _ => 1
        | _ => 0
      let digits := digitsLength Char.isDigit (cs.drop sign)
      if digits = 0 then 0 else 1 + sign + digits
    else 0
  | [] => 0

/-- A number in another base, behind its two characters of introduction. -/
def basedLength (isDigit : Char → Bool) (cs : List Char) : Nat :=
  let digits := digitsLength isDigit cs
  if digits = 0 then 0
  else 2 + digits + (if (cs.drop digits).head? = some 'n' then 1 else 0)

def decimalLength (cs : List Char) : Nat :=
  let whole := digitsLength Char.isDigit cs
  match cs.drop whole with
  | '.' :: rest =>
    let fraction := digitsLength Char.isDigit rest
    if whole = 0 && fraction = 0 then 0
    else whole + 1 + fraction + exponentLength (rest.drop fraction)
  | 'n' :: _ => if whole = 0 then 0 else whole + 1
  | rest => if whole = 0 then 0 else whole + exponentLength rest

def numberLength (cs : List Char) : Nat :=
  match cs with
  | '0' :: 'x' :: rest | '0' :: 'X' :: rest => basedLength isHexDigit rest
  | '0' :: 'o' :: rest | '0' :: 'O' :: rest => basedLength isOctalDigit rest
  | '0' :: 'b' :: rest | '0' :: 'B' :: rest => basedLength isBinaryDigit rest
  | _ => decimalLength cs

/-- The plain part of a string literal. -/
def stringPartLength (quote : Char) (cs : List Char) : Nat :=
  (cs.takeWhile fun c => c ≠ quote && c ≠ '\\' && c ≠ '\r' && c ≠ '\n').length

/-- An escape sequence, the backslash included. -/
def escapeLength? : List Char → Option Nat
  | '\\' :: 'x' :: a :: b :: _ => if isHexDigit a && isHexDigit b then some 4 else none
  | '\\' :: 'u' :: '{' :: rest =>
    let digits := (rest.takeWhile isHexDigit).length
    if digits ≠ 0 && (rest.drop digits).head? = some '}' then some (4 + digits) else none
  | '\\' :: 'u' :: rest => if ((rest.take 4).takeWhile isHexDigit).length = 4 then some 6 else none
  | '\\' :: '\r' :: '\n' :: _ => some 3
  | '\\' :: c :: rest =>
    if c = 'x' then none
    else if isOctalDigit c then some (2 + ((rest.take 2).takeWhile isOctalDigit).length)
    else some 2
  | _ => none

/-- The plain part of a template literal, up to its end, an escape or a substitution. -/
def templatePartLength : List Char → Nat
  | [] => 0
  | '$' :: '{' :: _ => 0
  | c :: cs => if c = '`' || c = '\\' then 0 else 1 + templatePartLength cs

/-- The pattern of a regular expression, up to the slash that ends it. -/
def regexLength? (inClass : Bool) : List Char → Option Nat
  | [] => none
  | '\\' :: c :: cs => if c = '\n' then none else (regexLength? inClass cs).map (2 + ·)
  | c :: cs =>
    if c = '\n' || c = '\\' then none
    else if c = '/' && !inClass then some 0
    else if c = '[' then (regexLength? true cs).map (1 + ·)
    else if c = ']' then (regexLength? false cs).map (1 + ·)
    else (regexLength? inClass cs).map (1 + ·)

def isMarkupBoundary (c : Char) : Bool := c == '<' || c == '>' || c == '{' || c == '}' || c == '&'

/-- Whether a stretch of markup holds more than line feeds and the blanks that follow them. -/
def hasMarkupText (afterBreak : Bool) : List Char → Bool
  | [] => false
  | c :: cs =>
    if c = '\n' then hasMarkupText true cs
    else if afterBreak && isAsciiSpace c then hasMarkupText true cs
    else true

/-- Text between the tags of markup; blank lines are none. -/
def markupTextLength (cs : List Char) : Nat :=
  let stretch := cs.takeWhile fun c => !isMarkupBoundary c
  if hasMarkupText false stretch then stretch.length else 0

/-- A character reference such as `&amp;`, `&#38;` or `&#x26;`. -/
def referenceLength : List Char → Nat
  | '&' :: '#' :: x :: cs =>
    let hex := x == 'x' || x == 'X'
    let digits := if hex then (cs.takeWhile isHexDigit).length
      else ((x :: cs).takeWhile Char.isDigit).length
    let before := if hex then 3 else 2
    let rest := if hex then cs else x :: cs
    if 0 < digits && digits ≤ (if hex then 6 else 5) && (rest.drop digits).head? = some ';' then
      before + digits + 1
    else 0
  | '&' :: cs =>
    let letters := (cs.takeWhile Char.isAlpha).length
    if 0 < letters && letters ≤ 30 && (cs.drop letters).head? = some ';' then letters + 2 else 0
  | _ => 0

/-- Text in a quoted attribute of markup, up to the quote or a character reference. -/
def attributePartLength (quote : Char) : List Char → Nat
  | [] => 0
  | c :: cs =>
    if c = quote || referenceLength (c :: cs) ≠ 0 then 0 else 1 + attributePartLength quote cs

/-- Names in markup may hold hyphens. -/
def markupNameLength (cs : List Char) : Nat :=
  if nameLength cs = 0 then 0 else (cs.takeWhile fun c => isNamePart c || c == '-').length

end CallChain.JavaScript
