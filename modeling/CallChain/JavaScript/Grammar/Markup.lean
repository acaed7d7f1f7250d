import CallChain.JavaScript.Grammar.Literal

/-!
Elements of markup inside expressions.
-/
namespace CallChain.JavaScript.Grammar

def markupWord (kind : String) : Parser Concrete := do
  let n := markupNameLength (← upcoming)
  if n = 0 then fail else leafAhead kind true n

/-- The parts of a dotted name behind its first. -/
def dottedName (left : Concrete) : Nat → Parser Concrete
  | 0 => fail
  | n + 1 => do
    if ← nextIs "." then
      let dot ← token "."
      let property ← name "property_identifier"
      dottedName (construct "member_expression" [left.as .object, dot, property.as .property]) n
    else return left

/-- A name with a namespace before it, if there is one. -/
def namespaced (first : Concrete) (kind : String) : Parser Concrete := do
  if ← nextIs ":" then
    let colon ← token ":"
    let suffix ← markupWord "identifier"
    return construct "jsx_namespace_name" [first, colon, suffix]
  else return .node { first.label with kind } first.children

def elementName (s : Scope) : Parser Concrete := do
  let first ← markupWord "identifier"
  if ← nextIs "." then dottedName first s.limit else namespaced first "identifier"

/-- An expression in braces; it may be left out. -/
def markupExpression (s : Scope) : Parser Concrete := do
  let opening ← token openBrace
  let inner ← if ← nextIs closeBrace then pure []
    else if ← nextIs "..." then
      let dots ← token "..."
      pure [construct "spread_element" [dots, ← s.phrase .expression]]
    else pure [← s.phrase .expressions]
  let closing ← token closeBrace
  return construct "jsx_expression" (opening :: inner ++ [closing])

def markupString (s : Scope) (quote : Char) : Parser Concrete := do
  let mark := quote.toString
  let first ← token mark
  let inner ← many (do
    let rest := (← get).rest
    let reference := referenceLength rest
    let n := attributePartLength quote rest
    if rest.head? = some quote then return none
    else if reference ≠ 0 then return some [← leaf "html_character_reference" true reference]
    else if n = 0 then fail
    else return some [← leaf "string_fragment" true n]) s.limit
  let last ← leaf mark false 1
  return construct "string" (first :: inner ++ [last])

def attributeValue (s : Scope) : Parser Concrete := do
  match ← upcoming with
  | '"' :: _ => markupString s '"'
  | '\'' :: _ => markupString s '\''
  | '{' :: _ => markupExpression s
  | _ => s.phrase .element

def markupAttribute (s : Scope) : Parser Concrete := do
  if ← nextIs openBrace then markupExpression s
  else
    let key ← namespaced (← markupWord "identifier") "property_identifier"
    if ← nextIs "=" then
      let equals ← token "="
      return construct "jsx_attribute" [key, equals, ← attributeValue s]
    else return construct "jsx_attribute" [key]

/-- What stands between two tags: text, references, expressions and elements. -/
def markupChild (s : Scope) : Parser (Option (List Concrete)) := do
  let n := markupTextLength (← get).rest
  if n ≠ 0 then return some [← leaf "jsx_text" true n]
  else
    modify fun p => p.skip (spaceLength p.rest)
    let rest := (← get).rest
    match rest with
    | '<' :: '/' :: _ => return none
    | '<' :: _ => return some [← s.phrase .element]
    | '{' :: _ => return some [← markupExpression s]
    | _ =>
      let reference := referenceLength rest
      if reference = 0 then fail
      else return some [← leaf "html_character_reference" true reference]

/-- The content and the closing tag of an element. -/
def elementTail (s : Scope) (opening : Concrete) : Parser Concrete := do
  let inner ← many (markupChild s) s.limit
  let slash ← token "</"
  let title ← if ← nextIs ">" then pure [] else pure [← elementName s]
  let close ← token ">"
  let closing := construct "jsx_closing_element" (slash :: title ++ [close])
  return construct "jsx_element" (opening :: inner ++ [closing])

def markupElement (s : Scope) : Parser Concrete := do
  let bracket ← token "<"
  if ← nextIs ">" then
    let close ← token ">"
    elementTail s (construct "jsx_opening_element" [bracket, close])
  else
    let title ← elementName s
    let attributes ← many (do
      if (← nextIs ">") || (← nextIs "/>") then return none
      else return some [← markupAttribute s]) s.limit
    if ← nextIs "/>" then
      let close ← token "/>"
      return construct "jsx_self_closing_element" (bracket :: title :: attributes ++ [close])
    else
      let close ← token ">"
      elementTail s (construct "jsx_opening_element" (bracket :: title :: attributes ++ [close]))

end CallChain.JavaScript.Grammar
