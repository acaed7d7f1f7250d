import CallChain.JavaScript.Grammar.Literal

/-!
Property names, and the targets that values are bound to.
-/
namespace CallChain.JavaScript.Grammar

/-- A `#` name. -/
def privateName : Parser Concrete := do
  match ← upcoming with
  | '#' :: rest =>
    let n := nameLength rest
    if n = 0 then fail else leafAhead "private_property_identifier" true (n + 1)
  | _ => fail

/-- The name of a property; any word may be one. -/
def propertyName (s : Scope) : Parser Concrete := do
  match ← upcoming with
  | '#' :: _ => privateName
  | '"' :: _ => stringLiteral s.limit '"'
  | '\'' :: _ => stringLiteral s.limit '\''
  | '[' :: _ =>
    let opening ← token "["
    let inner ← s.phrase .expression
    let closing ← token "]"
    return construct "computed_property_name" [opening, inner, closing]
  | rest => if nameLength rest ≠ 0 then name "property_identifier" else number

/-- A property name may start with this text. -/
def startsPropertyName (cs : List Char) : Bool :=
  match cs with
  | '#' :: _ | '"' :: _ | '\'' :: _ | '[' :: _ => true
  | _ => nameLength cs ≠ 0 || numberLength cs ≠ 0

/-- A default value behind a target. -/
def withDefault (s : Scope) (kind : String) (target : Concrete) : Parser Concrete := do
  if ← nextIs "=" then
    let equals ← token "="
    let value ← s.phrase .expression
    return construct kind [target, equals, value]
  else return target

def restPattern (s : Scope) : Parser Concrete := do
  let dots ← token "..."
  let target ← s.phrase .pattern
  return construct "rest_pattern" [dots, target]

/-- An element of a pattern or a parameter: it may collect the rest or have a default. -/
def parameter (s : Scope) : Parser Concrete := do
  if ← nextIs "..." then restPattern s
  else withDefault s "assignment_pattern" (← s.phrase .pattern)

def arrayPattern (s : Scope) : Parser Concrete := do
  let opening ← token "["
  let elements ← commaSeparated s.limit "]" (parameter s)
  let closing ← token "]"
  return construct "array_pattern" (opening :: elements ++ [closing])

def propertyPattern (s : Scope) : Parser Concrete := do
  if ← nextIs "..." then restPattern s
  else
    let start ← get
    let key ← propertyName s
    if ← nextIs ":" then
      let colon ← token ":"
      let value ← withDefault s "assignment_pattern" (← s.phrase .pattern)
      return construct "pair_pattern" [key, colon, value]
    else
      set start
      let target ← name "shorthand_property_identifier_pattern"
      withDefault s "object_assignment_pattern" target

def objectPattern (s : Scope) : Parser Concrete := do
  let opening ← token openBrace
  let properties ← commaSeparated s.limit closeBrace (propertyPattern s)
  let closing ← token closeBrace
  return construct "object_pattern" (opening :: properties ++ [closing])

/-- What a declaration binds: a name, or names inside a destructuring pattern. -/
def binding (s : Scope) : Parser Concrete := do
  match ← upcoming with
  | '{' :: _ => objectPattern s
  | '[' :: _ => arrayPattern s
  | _ => name "identifier"

end CallChain.JavaScript.Grammar
