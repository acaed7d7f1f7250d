import CallChain.JavaScript.Grammar.Pattern

/-!
Functions, methods and classes.
-/
namespace CallChain.JavaScript.Grammar

def formalParameters (s : Scope) : Parser Concrete := do
  let opening ← token "("
  let parameters ← commaSeparated s.limit ")" (parameter s)
  let closing ← token ")"
  return construct "formal_parameters" (opening :: parameters ++ [closing])

/-- `async` stands here as a modifier of `function`. -/
def nextIsAsyncFunction : Parser Bool := do
  if ← nextIsWord "async" then
    let start ← get
    let _ ← keyword "async"
    let broken ← breakAhead
    let found ← nextIsWord "function"
    set start
    return found && !broken
  else return false

/-- `function`, with its modifiers and, if there is one, its name. -/
def functionHead : Parser (List Concrete × Bool × Bool) := do
  let modifiers ← if ← nextIsAsyncFunction then keyword? "async" else pure []
  let word ← keyword "function"
  let star ← token? "*"
  let named ← if nameLength (← upcoming) = 0 then pure [] else pure [← name "identifier"]
  return (modifiers ++ word :: star ++ named, !star.isEmpty, !named.isEmpty)

def functionExpression (s : Scope) : Parser Concrete := do
  let (head, generator, _) ← functionHead
  let parameters ← formalParameters s
  let body ← s.phrase (.block true)
  return construct (if generator then "generator_function" else "function_expression")
    (head ++ [parameters, body])

def functionDeclaration (s : Scope) : Parser Concrete := do
  let (head, generator, named) ← functionHead
  if !named then fail
  else
    let parameters ← formalParameters s
    let body ← s.phrase (.block false)
    return construct (if generator then "generator_function_declaration" else "function_declaration")
      (head ++ [parameters, body])

/-- Everything of an arrow function from the arrow on. -/
def arrowTail (s : Scope) (head : List Concrete) : Parser Concrete := do
  let arrow ← token "=>"
  let body ← if ← nextIs openBrace then s.phrase (.block true) else s.phrase .expression
  return construct "arrow_function" (head ++ [arrow, body])

/-- A word that stands here as a modifier of the property name behind it. -/
def modifier? (word : String) (mayFollow : List Char → Bool) : Parser (List Concrete) := do
  if ← nextIsWord word then
    let start ← get
    let found ← keyword word
    if mayFollow (← upcoming) then return [found]
    else
      set start
      return []
  else return []

/-- A property name, or the star of a generator, may start with this text. -/
def startsMethodName (cs : List Char) : Bool := cs.head? = some '*' || startsPropertyName cs

/-- The modifiers before the name of a method. -/
def methodModifiers : Parser (List Concrete) := do
  let async ← modifier? "async" startsMethodName
  let getter ← modifier? "get" startsPropertyName
  let setter ← if getter.isEmpty then modifier? "set" startsPropertyName else pure []
  let star ← if (getter ++ setter).isEmpty then token? "*" else pure []
  return async ++ getter ++ setter ++ star

/-- A method from its parameters on. -/
def methodTail (s : Scope) (head : List Concrete) : Parser Concrete := do
  let parameters ← formalParameters s
  let body ← s.phrase (.block false)
  return construct "method_definition" (head ++ [parameters, body])

/-- A value behind an equals sign. -/
def initializer (s : Scope) : Parser (List Concrete) := do
  if ← nextIs "=" then
    let equals ← token "="
    return [equals, ← s.phrase .expression]
  else return []

def classMember (s : Scope) : Parser (List Concrete) := do
  let static ← modifier? "static" fun cs => cs.head? = some '{' || startsMethodName cs
  if !static.isEmpty && (← nextIs openBrace) then
    return [construct "class_static_block" (static ++ [← s.phrase (.block false)])]
  else
    let modifiers ← methodModifiers
    let key ← propertyName s
    if ← nextIs "(" then
      let method ← methodTail s (static ++ modifiers ++ [key])
      return method :: (← token? ";")
    else
      let value ← initializer s
      let field := construct "field_definition" (static ++ modifiers ++ key :: value)
      return field :: (← semicolon !value.isEmpty)

def classBody (s : Scope) : Parser Concrete := do
  let opening ← token openBrace
  let members ← many (do
    if (← nextIs closeBrace) || (← atEnd) then return none
    else if ← nextIs ";" then return some [← token ";"]
    else return some (← classMember s)) s.limit
  let closing ← closingBrace
  return construct "class_body" (opening :: members ++ [closing])

/-- `extends` with its expression. -/
def classHeritage (s : Scope) : Parser (List Concrete) := do
  if ← nextIsWord "extends" then
    let word ← keyword "extends"
    return [construct "class_heritage" [word, ← s.phrase .expression]]
  else return []

def classExpression (s : Scope) : Parser Concrete := do
  let word ← keyword "class"
  let anonymous := (← nextIsWord "extends") || nameLength (← upcoming) = 0
  let title ← if anonymous then pure [] else pure [← name "identifier"]
  let heritage ← classHeritage s
  let body ← classBody s
  return construct "class" (word :: title ++ heritage ++ [body])

def classDeclaration (s : Scope) : Parser Concrete := do
  let word ← keyword "class"
  let title ← name "identifier"
  let heritage ← classHeritage s
  let body ← classBody s
  looseSemicolon false
  return constructTo "class_declaration" (word :: title :: heritage ++ [body]) (← get)

end CallChain.JavaScript.Grammar
