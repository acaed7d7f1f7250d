import CallChain.JavaScript.Grammar.Expression
import CallChain.JavaScript.Grammar.Module

/-!
Statements. Most are told by their first word; what starts with no such word is an expression.
-/
namespace CallChain.JavaScript.Grammar

/-- Statements up to what ends their list, or the end of the text. -/
def statementsUntil (s : Scope) (ends : List Char → Bool) : Parser (List Concrete) :=
  many (do
    let rest ← upcoming
    if rest.isEmpty || ends rest then return none else return some [← s.phrase .statement]) s.limit

def isClosingBrace (cs : List Char) : Bool := cs.head? = some '}'

def block (s : Scope) (inExpression : Bool) : Parser Concrete := do
  let opening ← token openBrace
  let body ← statementsUntil s isClosingBrace
  let closing ← closingBrace
  looseSemicolon inExpression
  return constructTo "statement_block" (opening :: body ++ [closing]) (← get)

def declarator (s : Scope) : Parser Concrete := do
  let target ← binding s
  return construct "variable_declarator" (target :: (← initializer s))

/-- A declaration from its keyword up to its semicolon. -/
def declaration (s : Scope) (word kind : String) : Parser Concrete := do
  let mark ← keyword word
  let first ← declarator s
  let more ← many (do
    if ← nextIs "," then return some [← token ",", ← declarator s] else return none) s.limit
  let valued := ((first :: more).getLast?.map fun c => !(c.children.drop 1).isEmpty).getD false
  let stop ← semicolon valued
  return constructTo kind (mark :: first :: more ++ stop) (← get)

/-- `let` stands here as the keyword of a declaration. -/
def nextIsLet : Parser Bool := do
  if ← nextIsWord "let" then
    let start ← get
    let _ ← keyword "let"
    let rest ← upcoming
    set start
    return nameLength rest ≠ 0 || rest.head? = some '[' || rest.head? = some '{'
  else return false

def ifStatement (s : Scope) : Parser Concrete := do
  let word ← keyword "if"
  let condition ← parenthesized s
  let consequence ← s.phrase .statement
  let parts := [word, condition.as .condition, consequence.as .consequence]
  if ← nextIsWord "else" then
    let mark ← keyword "else"
    let clause := construct "else_clause" [mark, ← s.phrase .statement]
    return construct "if_statement" (parts ++ [clause.as .alternative])
  else return construct "if_statement" parts

/-- `in` or `of` in the head of a loop. -/
def loopOperator : Parser Concrete := do
  if ← nextIsWord "of" then keyword "of" else keyword "in"

/-- The head of a loop over the items of a value, behind the opening parenthesis. -/
def itemsHead (s : Scope) : Parser (List Concrete) := do
  let target ← if ← nextIsWord "var" then
      let mark ← keyword "var"
      let bound ← binding s
      pure (mark :: bound :: (← initializer s))
    else if ← nextIsWord "const" then pure [← keyword "const", ← binding s]
    else if ← nextIsLet then pure [← keyword "let", ← binding s]
    else pure [← s.phrase .pattern]
  let operator ← loopOperator
  return target ++ [operator, ← s.phrase .expressions]

/-- A part of the head of a counting loop, up to its semicolon. An empty part is its semicolon. -/
def headPart (s : Scope) : Parser (List Concrete) := do
  if ← nextIs ";" then return [construct "empty_statement" [← token ";"]]
  else return [← s.phrase .expressions, ← token ";"]

/-- The head of a counting loop, behind the opening parenthesis. -/
def countingHead (s : Scope) : Parser (List Concrete) := do
  let first ← if ← nextIsWord "var" then pure [← declaration s "var" "variable_declaration"]
    else if ← nextIsWord "const" then pure [← declaration s "const" "lexical_declaration"]
    else if ← nextIsLet then pure [← declaration s "let" "lexical_declaration"]
    else headPart s
  let second ← headPart s
  let third ← if ← nextIs ")" then pure [] else pure [← s.phrase .expressions]
  return first ++ second ++ third

def forStatement (s : Scope) : Parser Concrete := do
  let word ← keyword "for"
  let waiting ← keyword? "await"
  let opening ← token "("
  let start ← get
  let rest (kind : String) (head : List Concrete) : Parser Concrete := do
    let closing ← token ")"
    let body ← s.phrase .statement
    return construct kind (word :: waiting ++ opening :: head ++ [closing, body])
  match itemsHead s start with
  | .ok (head, place) =>
    set place
    rest "for_in_statement" head
  | .error _ => rest "for_statement" (← countingHead s)

def whileStatement (s : Scope) : Parser Concrete := do
  return construct "while_statement" [← keyword "while", ← parenthesized s, ← s.phrase .statement]

def doStatement (s : Scope) : Parser Concrete := do
  let parts := [← keyword "do", ← s.phrase .statement, ← keyword "while", ← parenthesized s]
  let stop ← token? ";"
  if stop.isEmpty then looseSemicolon false
  return constructTo "do_statement" (parts ++ stop) (← get)

def isCaseEnd (cs : List Char) : Bool :=
  isClosingBrace cs || startsWithName "case" cs || startsWithName "default" cs

def switchCase (s : Scope) : Parser Concrete := do
  if ← nextIsWord "default" then
    let head := [← keyword "default", ← token ":"]
    return construct "switch_default" (head ++ (← statementsUntil s isCaseEnd))
  else
    let head := [← keyword "case", ← s.phrase .expressions, ← token ":"]
    return construct "switch_case" (head ++ (← statementsUntil s isCaseEnd))

def switchStatement (s : Scope) : Parser Concrete := do
  let word ← keyword "switch"
  let value ← parenthesized s
  let opening ← token openBrace
  let cases ← many (do
    if (← nextIs closeBrace) || (← atEnd) then return none else return some [← switchCase s]) s.limit
  let closing ← closingBrace
  return construct "switch_statement"
    [word, value, construct "switch_body" (opening :: cases ++ [closing])]

def catchClause (s : Scope) : Parser Concrete := do
  let word ← keyword "catch"
  let bound ← if ← nextIs "(" then pure [← token "(", ← binding s, ← token ")"] else pure []
  return construct "catch_clause" (word :: bound ++ [← s.phrase (.block false)])

def tryStatement (s : Scope) : Parser Concrete := do
  let word ← keyword "try"
  let body ← s.phrase (.block false)
  let handler ← if ← nextIsWord "catch" then pure [← catchClause s] else pure []
  let finalizer ← if ← nextIsWord "finally" then
      pure [construct "finally_clause" [← keyword "finally", ← s.phrase (.block false)]]
    else pure []
  return construct "try_statement" (word :: body :: handler ++ finalizer)

def withStatement (s : Scope) : Parser Concrete := do
  return construct "with_statement" [← keyword "with", ← parenthesized s, ← s.phrase .statement]

/-- `break` or `continue`, with the label on the same line. -/
def jumpStatement (word kind : String) : Parser Concrete := do
  let mark ← keyword word
  let label ← if (← breakAhead) || nameLength (← upcoming) = 0 then pure []
    else pure [← name "statement_identifier"]
  let stop ← semicolon false
  return constructTo kind (mark :: label ++ stop) (← get)

def debuggerStatement : Parser Concrete := do
  let word ← keyword "debugger"
  let stop ← semicolon false
  return constructTo "debugger_statement" (word :: stop) (← get)

/-- `return` or `throw`; only the first may stand without a value. -/
def valueStatement (s : Scope) (word kind : String) (bare : Bool) : Parser Concrete := do
  let mark ← keyword word
  if bare && ((← breakAhead) || !startsExpression (← upcoming)) then
    let stop ← semicolon false
    return constructTo kind (mark :: stop) (← get)
  else
    let value ← s.phrase .expressions
    let stop ← semicolon true
    return constructTo kind (mark :: value :: stop) (← get)

def expressionStatement (s : Scope) : Parser Concrete := do
  let value ← s.phrase .expressions
  let stop ← semicolon true
  return constructTo "expression_statement" (value :: stop) (← get)

/-- A colon follows the word that stands here. -/
def nextIsLabel : Parser Bool := do
  if nameLength (← upcoming) = 0 then return false
  else
    let start ← get
    let _ ← name "statement_identifier"
    let found ← nextIs ":"
    set start
    return found

def labeledOrExpression (s : Scope) : Parser Concrete := do
  if ← nextIsLabel then
    return construct "labeled_statement"
      [← name "statement_identifier", ← token ":", ← s.phrase .statement]
  else expressionStatement s

/-- `import` stands here as a value. -/
def nextIsImportValue : Parser Bool := do
  let start ← get
  let _ ← keyword "import"
  let found := (← nextIs "(") || (← nextIs ".")
  set start
  return found

/-- A bracket that closes nothing. -/
def isStray (cs : List Char) : Bool :=
  match cs with
  | c :: _ => c = ')' || c = ']' || c = '}'
  | [] => false

/-- Statements that start with a word of their own. -/
def wordStatement (s : Scope) (word : String) : Parser Concrete := do
  match word with
  | "var" => declaration s "var" "variable_declaration"
  | "const" => declaration s "const" "lexical_declaration"
  | "let" =>
    if ← nextIsLet then declaration s "let" "lexical_declaration" else labeledOrExpression s
  | "function" => functionDeclaration s
  | "async" => if ← nextIsAsyncFunction then functionDeclaration s else labeledOrExpression s
  | "class" => classDeclaration s
  | "if" => ifStatement s
  | "for" => forStatement s
  | "while" => whileStatement s
  | "do" => doStatement s
  | "switch" => switchStatement s
  | "try" => tryStatement s
  | "with" => withStatement s
  | "break" => jumpStatement "break" "break_statement"
  | "continue" => jumpStatement "continue" "continue_statement"
  | "return" => valueStatement s "return" "return_statement" true
  | "throw" => valueStatement s "throw" "throw_statement" false
  | "debugger" => debuggerStatement
  | "import" =>
    if ← nextIsImportValue then expressionStatement s else importStatement s (objectLiteral s)
  | "export" => exportStatement s
  | _ => labeledOrExpression s

def statement (s : Scope) : Parser Concrete := do
  let place := (← get).afterGap
  match place.rest with
  | '{' :: _ => s.phrase (.block false)
  | ';' :: _ => return construct "empty_statement" [← token ";"]
  | rest =>
    if isStray rest then throw (.stray place.position)
    else wordStatement s (String.ofList (nameAt rest))

end CallChain.JavaScript.Grammar
