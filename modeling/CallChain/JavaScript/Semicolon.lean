import CallChain.JavaScript.Place

/-!
Semicolons that are not written. A statement may end without one at the end of the text, before a
closing brace, and before a line break, unless what follows the break can only go on with the
statement. Blanks other than those of ASCII do not count as blanks here.
-/
namespace CallChain.JavaScript

/-- What a look across blanks and comments found. -/
inductive Crossing where
  /-- A slash that starts no comment. -/
  | slash
  /-- A block comment on one line; the rest follows it directly. -/
  | sameLine (rest : List Char)
  | reached (rest : List Char)

/-- The text behind a block comment whose opening is passed, and whether the comment holds a line
break. -/
def crossBlock (broken : Bool) : List Char → Bool × List Char
  | [] => (broken, [])
  | '*' :: '/' :: cs => (broken, cs)
  | c :: cs => crossBlock (broken || isLineEnd c) cs

/-- Looks across blanks and comments; unless `whole`, no further than behind the first block comment. -/
def cross (whole broken : Bool) : Nat → List Char → Crossing
  | 0, cs => .reached cs
  | n + 1, cs =>
    match cs.dropWhile isAsciiSpace with
    | '/' :: '/' :: rest => cross whole broken n (rest.dropWhile fun c => !isLineEnd c)
    | '/' :: '*' :: rest =>
      let (here, rest) := crossBlock broken rest
      if whole || rest.head? = some '/' then cross whole here n rest
      else if here then .reached rest
      else .sameLine rest
    | '/' :: _ => .slash
    | rest => .reached rest

/-- `in` and `instanceof` go on with an expression; longer names do not. -/
def isRelation (cs : List Char) : Bool :=
  match "in".toList.isPrefixOf? cs with
  | none => false
  | some rest =>
    if !(rest.head?.map Char.isAlpha).getD false then true
    else
      match "stanceof".toList.isPrefixOf? rest with
      | none => false
      | some rest => !(rest.head?.map Char.isAlpha).getD false

/-- A new statement may start with this text after a line break. -/
def startsStatement : List Char → Bool
  | [] => true
  | '.' :: cs => (cs.head?.map Char.isDigit).getD false
  | '+' :: cs => cs.head? = some '+'
  | '-' :: cs => cs.head? = some '-'
  | '!' :: cs => cs.head? ≠ some '='
  | c :: cs => !("`,:;*%><=[(?^|&/".toList.contains c) && !isRelation (c :: cs)

def crossesToStatement (n : Nat) (cs : List Char) : Bool :=
  match cross true false n cs with
  | .slash => false
  | .sameLine rest | .reached rest => startsStatement rest

/-- A semicolon may be left out right here. `inExpression` tells that the statement ends in an
expression; otherwise a comment that reaches the next line is enough. -/
def semicolonFits (inExpression : Bool) : Nat → List Char → Bool
  | 0, _ => false
  | _ + 1, [] => true
  | n + 1, c :: cs =>
    let behind (rest : List Char) : Bool :=
      match rest with
      | [] => false
      | d :: ds =>
        if d = '}' then true
        else if isLineEnd d then crossesToStatement n ds
        else if isAsciiSpace d then semicolonFits inExpression n ds
        else false
    if c = '/' then
      match cross false false n (c :: cs) with
      | .slash => false
      | .sameLine rest => behind rest
      | .reached rest =>
        if !inExpression && rest.head? ≠ some ',' && rest.head? ≠ some '=' then true else behind rest
    else behind (c :: cs)

/-- Where the omitted semicolon stands, if it may be omitted: here, or behind comments that then lie in
the statement. -/
def omittedSemicolon? (inExpression : Bool) : Nat → Place → Option Place
  | 0, _ => none
  | n + 1, p =>
    if semicolonFits inExpression (p.rest.length + 1) p.rest then some p
    else
      let q := Place.skip (spaceLength p.rest) p
      match commentLength? q.rest with
      | some k => omittedSemicolon? inExpression n (Place.skip k q)
      | none => none

end CallChain.JavaScript
