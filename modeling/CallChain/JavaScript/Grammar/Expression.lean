import CallChain.JavaScript.Grammar.Function
import CallChain.JavaScript.Grammar.Markup
import CallChain.JavaScript.Grammar.Operator

/-!
Expressions. Operands are read with all that is appended to them, operators between operands by how
tightly they bind. Whatever can be assigned to and stands before an equals sign is assigned to.
-/
namespace CallChain.JavaScript.Grammar

def spreadElement (s : Scope) : Parser Concrete := do
  let dots ← token "..."
  return construct "spread_element" [dots, ← s.phrase .expression]

/-- An expression, or one whose values are spread. -/
def item (s : Scope) : Parser Concrete := do
  if ← nextIs "..." then spreadElement s else s.phrase .expression

def arguments (s : Scope) : Parser Concrete := do
  let opening ← token "("
  let items ← commaSeparated s.limit ")" (item s)
  let closing ← token ")"
  return construct "arguments" (opening :: items ++ [closing])

def arrayLiteral (s : Scope) : Parser Concrete := do
  let opening ← token "["
  let items ← commaSeparated s.limit "]" (item s)
  let closing ← token "]"
  return construct "array" (opening :: items ++ [closing])

def property (s : Scope) : Parser Concrete := do
  if ← nextIs "..." then spreadElement s
  else
    let start ← get
    let modifiers ← methodModifiers
    let key ← propertyName s
    if ← nextIs "(" then methodTail s (modifiers ++ [key])
    else if !modifiers.isEmpty then fail
    else if ← nextIs ":" then
      let colon ← token ":"
      return construct "pair" [key, colon, ← s.phrase .expression]
    else
      set start
      name "shorthand_property_identifier"

def objectLiteral (s : Scope) : Parser Concrete := do
  let opening ← token openBrace
  let properties ← commaSeparated s.limit closeBrace (property s)
  let closing ← token closeBrace
  return construct "object" (opening :: properties ++ [closing])

/-- The next token is a plain equals sign. -/
def nextIsEquals : Parser Bool := do return Operator.isEquals (← upcoming)

/-- A literal, unless an equals sign follows and makes it a pattern. -/
def literalOrPattern (literal pattern : Parser Concrete) : Parser Concrete :=
  orElse (do
      let node ← literal
      if ← nextIsEquals then fail else return node)
    (do
      let node ← pattern
      if ← nextIsEquals then return node else fail)

def parenthesized (s : Scope) : Parser Concrete := do
  let opening ← token "("
  let inner ← s.phrase .expressions
  let closing ← token ")"
  return construct "parenthesized_expression" [opening, inner, closing]

/-- An expression in parentheses, or parameters in parentheses if an arrow follows. -/
def parenthesizedOrArrow (s : Scope) : Parser Concrete :=
  orElse (do
      let node ← parenthesized s
      if ← nextIs "=>" then fail else return node)
    (do
      let parameters ← formalParameters s
      arrowTail s [parameters])

/-- The head of an arrow function with `async` before it, if one stands here. -/
def asyncArrowHead? (s : Scope) : Parser (Option (List Concrete)) :=
  orElse (do
      let word ← keyword "async"
      if ← breakAhead then fail
      else
        let parameters ← if ← nextIs "(" then formalParameters s else name "identifier"
        if ← nextIs "=>" then return some [word, parameters] else fail)
    (return none)

/-- `async` before a function, as the head of an arrow function, or as a plain name. -/
def asyncOrName (s : Scope) : Parser Concrete := do
  if ← nextIsAsyncFunction then functionExpression s
  else
    match ← asyncArrowHead? s with
    | some head => arrowTail s head
    | none => name "identifier"

/-- A name, or an arrow function with that name as its parameter. -/
def nameOrArrow (s : Scope) : Parser Concrete := do
  let word ← name "identifier"
  if ← nextIs "=>" then arrowTail s [word] else return word

/-- `import` where a value stands: something to call, or the module's own data. -/
def importValue : Parser Concrete := do
  let word ← leafAhead "import" true "import".length
  if ← nextIs "." then
    let dot ← token "."
    let data ← keyword "meta"
    let plain := Concrete.node { word.label with named := false } []
    return construct "meta_property" [plain, dot, data]
  else return word

/-- Words that are values of their own kind. -/
def constantWords : List String := ["this", "super", "null", "true", "false", "undefined"]

/-- What is appended to an operand: `member`s, indices, templates and, unless it is the class of a `new`,
calls and optional access. -/
def appended (s : Scope) (ofNew : Bool) (left : Concrete) : Nat → Parser Concrete
  | 0 => fail
  | n + 1 => do
    let rest ← upcoming
    if Operator.isOptionalChain rest then
      if ofNew then return left
      else
        let mark ← leafAhead "optional_chain" true 2
        match ← upcoming with
        | '[' :: _ => appended s ofNew (← subscript left [mark]) n
        | '(' :: _ =>
          let args ← arguments s
          let call := construct "call_expression" [left.as .function, mark, args.as .arguments]
          appended s ofNew call n
        | _ => appended s ofNew (← member left mark) n
    else
      match rest with
      | '.' :: _ => appended s ofNew (← member left (← token ".")) n
      | '[' :: _ => appended s ofNew (← subscript left []) n
      | '`' :: _ =>
        let template ← templateLiteral s
        let call := construct "call_expression" [left.as .function, template.as .arguments]
        appended s ofNew call n
      | '(' :: _ =>
        if ofNew then return left
        else
          let args ← arguments s
          let call := construct "call_expression" [left.as .function, args.as .arguments]
          appended s ofNew call n
      | _ => return left
where
  member (left mark : Concrete) : Parser Concrete := do
    let key ← if ← nextIs "#" then privateName else name "property_identifier"
    return construct "member_expression" [left.as .object, mark, key.as .property]
  subscript (left : Concrete) (mark : List Concrete) : Parser Concrete := do
    let opening ← token "["
    let index ← s.phrase .expressions
    let closing ← token "]"
    return construct "subscript_expression"
      (left.as .object :: mark ++ [opening, index.as .index, closing])

/-- Operands without what is appended to them; `nested` reads the class of a `new`. -/
def primary (s : Scope) (nested : Parser Concrete) : Parser Concrete := do
  let rest ← upcoming
  match rest with
  | '(' :: _ => parenthesizedOrArrow s
  | '[' :: _ => literalOrPattern (arrayLiteral s) (arrayPattern s)
  | '{' :: _ => literalOrPattern (objectLiteral s) (objectPattern s)
  | '`' :: _ => templateLiteral s
  | '"' :: _ => stringLiteral s.limit '"'
  | '\'' :: _ => stringLiteral s.limit '\''
  | '/' :: _ => regex
  | '<' :: _ => s.phrase .element
  | '#' :: _ => privateName
  | _ =>
    let word := String.ofList (nameAt rest)
    if word = "" then number
    else if word = "function" then functionExpression s
    else if word = "async" then asyncOrName s
    else if word = "class" then classExpression s
    else if word = "new" then nested
    else if word = "import" then importValue
    else if constantWords.contains word then leafAhead word true word.length
    else nameOrArrow s

/-- `new` with its class and arguments. -/
def newExpression (s : Scope) : Nat → Parser Concrete
  | 0 => fail
  | n + 1 => do
    let word ← keyword "new"
    if ← nextIs "." then
      let dot ← token "."
      let target ← keyword "target"
      return construct "meta_property" [word, dot, target]
    else
      let base ← primary s (newExpression s n)
      let built ← appended s true base s.limit
      if ← nextIs "(" then
        let args ← arguments s
        return construct "new_expression" [word, built, args.as .arguments]
      else return construct "new_expression" [word, built]

/-- An operand with all that is appended to it. -/
def operand (s : Scope) : Parser Concrete := do
  let base ← primary s (newExpression s s.limit)
  appended s false base s.limit

/-- Constructs that can be assigned to. -/
def isTarget (c : Concrete) : Bool :=
  ["identifier", "undefined", "member_expression", "subscript_expression",
    "parenthesized_expression", "object_pattern", "array_pattern"].contains c.kind

/-- The value assigned to an operand, or the step behind it, if there is one. -/
def assigned (s : Scope) (left : Concrete) : Parser Concrete := do
  let rest ← upcoming
  if Operator.isStep rest && !(← breakAhead) then
    let step ← leafAhead (String.ofList (rest.take 2)) false 2
    return construct "update_expression" [left, step]
  else if isTarget left && Operator.isEquals rest then
    let equals ← token "="
    return construct "assignment_expression" [left, equals, ← s.phrase .expression]
  else
    match Operator.assignmentAt? rest with
    | some op =>
      if isTarget left then
        let mark ← token op
        return construct "augmented_assignment_expression" [left, mark, ← s.phrase .expression]
      else return left
    | none => return left

/-- An expression can start with this text. -/
def startsExpression : List Char → Bool
  | [] => false
  | c :: _ => !(")]\x7d,;:".toList.contains c)

def yieldExpression (s : Scope) : Parser Concrete := do
  let word ← keyword "yield"
  if ← nextIs "*" then
    let star ← token "*"
    return construct "yield_expression" [word, star, ← s.phrase .expression]
  else if (← breakAhead) || !startsExpression (← upcoming) then
    return construct "yield_expression" [word]
  else return construct "yield_expression" [word, ← s.phrase .expression]

/-- Words that stand before their operand. -/
def prefixWords : List String := ["typeof", "void", "delete"]

def unary (s : Scope) : Parser Concrete := do
  let rest ← upcoming
  if Operator.isStep rest then
    let step ← leafAhead (String.ofList (rest.take 2)) false 2
    return construct "update_expression" [step, ← s.phrase .unary]
  else
    match rest with
    | '!' :: _ => marked "!"
    | '~' :: _ => marked "~"
    | '-' :: _ => marked "-"
    | '+' :: _ => marked "+"
    | _ =>
      let word := String.ofList (nameAt rest)
      if prefixWords.contains word then
        return construct "unary_expression" [← keyword word, ← s.phrase .unary]
      else if word = "await" then
        return construct "await_expression" [← keyword word, ← s.phrase .unary]
      else if word = "yield" then yieldExpression s
      else assigned s (← operand s)
where
  marked (mark : String) : Parser Concrete := do
    return construct "unary_expression" [← token mark, ← s.phrase .unary]

/-- Operators that bind at least as tightly as `level`, with their right operands. -/
def operators (s : Scope) (level : Nat) (left : Concrete) : Nat → Parser Concrete
  | 0 => fail
  | n + 1 => do
    let rest ← upcoming
    match Operator.at? rest with
    | some op =>
      if op.level < level then return left
      else
        let mark ← token op.text
        let right ← s.phrase (.operand (if op.toRight then op.level else op.level + 1))
        operators s level (construct "binary_expression" [left, mark, right]) n
    | none =>
      if level ≤ Operator.conditionalLevel && Operator.isConditional rest then
        let mark ← token "?"
        let consequence ← s.phrase .expression
        let colon ← token ":"
        let alternative ← s.phrase .expression
        return construct "ternary_expression"
          [left.as .condition, mark, consequence.as .consequence, colon, alternative.as .alternative]
      else return left

/-- An expression whose operators bind at least as tightly as `level`. -/
def expressionAt (s : Scope) (level : Nat) : Parser Concrete := do
  operators s level (← unary s) s.limit

def expressions (s : Scope) : Parser Concrete := do
  let first ← s.phrase .expression
  if ← nextIs "," then
    let more ← many (do
      if ← nextIs "," then return some [← token ",", ← s.phrase .expression] else return none)
      s.limit
    return construct "sequence_expression" (first :: more)
  else return first

/-- A target of an assignment or a parameter; none stands in parentheses. -/
def pattern (s : Scope) : Parser Concrete := do
  match ← upcoming with
  | '{' :: _ => objectPattern s
  | '[' :: _ => arrayPattern s
  | '(' :: _ => fail
  | _ => operand s

end CallChain.JavaScript.Grammar
