import CallChain.Span
import CallChain.Text.Blank

/-!
Places in a text that is being read, and the gaps between its tokens: blanks and comments. Only a line
feed starts a new line; columns count bytes.
-/
namespace CallChain.JavaScript

/-- Blanks between tokens; besides those of Unicode the byte order mark and two zero width characters. -/
def isSpace (c : Char) : Bool :=
  Text.isBlank c || c == '\uFEFF' || c == '\u2060' || c == '\u200B'

def isAsciiSpace (c : Char) : Bool := c == ' ' || (9 ≤ c.toNat && c.toNat ≤ 13)

/-- Line separators of the language. A carriage return is a blank like others. -/
def isLineEnd (c : Char) : Bool := c == '\n' || c == '\u2028' || c == '\u2029'

/-- What a line comment runs up to. -/
def endsLineComment (c : Char) : Bool := isLineEnd c || c == '\r'

/-- What is still to be read, and where it starts. -/
structure Place where
  rest : List Char
  offset : Nat
  line : Nat
  column : Nat
  deriving Repr, Inhabited

namespace Place

def start (text : List Char) : Place := { rest := text, offset := 0, line := 1, column := 0 }

def position (p : Place) : Position := ⟨p.line, p.column⟩

/-- Passes one character. -/
def step (p : Place) : Place :=
  match p.rest with
  | [] => p
  | c :: cs =>
    if c = '\n' then { rest := cs, offset := p.offset + 1, line := p.line + 1, column := 0 }
    else { p with rest := cs, offset := p.offset + c.utf8Size, column := p.column + c.utf8Size }

/-- Passes `n` characters. -/
def skip : Nat → Place → Place
  | 0, p => p
  | n + 1, p => skip n p.step

def spanTo (p q : Place) : Span := ⟨p.offset, q.offset, p.position, q.position⟩

end Place

/-- Where a scan of blanks and comments stands. -/
inductive Gap where
  | blank
  | slash
  | lineComment
  | blockComment
  | star

/-- Number of characters that the blanks and comments at the front take. `pos` characters are passed, of
which the first `good` certainly belong to the gap. -/
def gapFrom (gap : Gap) (pos good : Nat) : List Char → Nat
  | [] => good
  | c :: cs =>
    match gap with
    | .blank =>
      if isSpace c then gapFrom .blank (pos + 1) (pos + 1) cs
      else if c = '/' then gapFrom .slash (pos + 1) good cs
      else good
    | .slash =>
      if c = '/' then gapFrom .lineComment (pos + 1) (pos + 1) cs
      else if c = '*' then gapFrom .blockComment (pos + 1) good cs
      else good
    | .lineComment =>
      if endsLineComment c then gapFrom .blank (pos + 1) (pos + 1) cs
      else gapFrom .lineComment (pos + 1) (pos + 1) cs
    | .blockComment => gapFrom (if c = '*' then .star else .blockComment) (pos + 1) good cs
    | .star =>
      if c = '/' then gapFrom .blank (pos + 1) (pos + 1) cs
      else gapFrom (if c = '*' then .star else .blockComment) (pos + 1) good cs

def gapLength (cs : List Char) : Nat := gapFrom .blank 0 0 cs

def spaceLength (cs : List Char) : Nat := (cs.takeWhile isSpace).length

/-- Characters up to the end of a block comment whose opening is passed. -/
def blockCommentLength? : List Char → Option Nat
  | [] => none
  | [_] => none
  | c :: d :: cs =>
    if c = '*' && d = '/' then some 2 else (blockCommentLength? (d :: cs)).map (· + 1)

/-- Length of the comment that stands at the front. -/
def commentLength? : List Char → Option Nat
  | '/' :: '/' :: cs => some (2 + (cs.takeWhile fun c => !endsLineComment c).length)
  | '/' :: '*' :: cs => (blockCommentLength? cs).map (2 + ·)
  | _ => none

namespace Place

/-- Behind the blanks and comments. -/
def afterGap (p : Place) : Place := skip (gapLength p.rest) p

/-- The text ends here, but for blanks and comments. -/
def atEnd (p : Place) : Bool := p.afterGap.rest.isEmpty

end Place

end CallChain.JavaScript
