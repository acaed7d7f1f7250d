import CallChain.JavaScript.Grammar.Function

/-!
Imports and exports.
-/
namespace CallChain.JavaScript.Grammar

/-- A string in either kind of quotes. -/
def quoted (s : Scope) : Parser Concrete := do
  if ← nextIs "\"" then stringLiteral s.limit '"' else stringLiteral s.limit '\''

/-- What a module calls something: a name or a string. -/
def exportName (s : Scope) : Parser Concrete := do
  if (← nextIs "\"") || (← nextIs "'") then quoted s else name "identifier"

def fromClause (s : Scope) : Parser (List Concrete) := do
  return [← keyword "from", ← quoted s]

/-- A name, with the other name it goes by behind `as`. -/
def specifier (s : Scope) (kind : String) : Parser Concrete := do
  let first ← exportName s
  if ← nextIsWord "as" then
    let word ← keyword "as"
    return construct kind [first, word, ← exportName s]
  else return construct kind [first]

def specifiers (s : Scope) (kind itemKind : String) : Parser Concrete := do
  let opening ← token openBrace
  let items ← commaSeparated s.limit closeBrace (specifier s itemKind)
  let closing ← token closeBrace
  return construct kind (opening :: items ++ [closing])

def starAs (s : Scope) (kind : String) : Parser Concrete := do
  return construct kind [← token "*", ← keyword "as", ← exportName s]

/-- The names that an import binds besides a default one. -/
def importedNames (s : Scope) : Parser Concrete := do
  if ← nextIs "*" then starAs s "namespace_import"
  else specifiers s "named_imports" "import_specifier"

def importClause (s : Scope) : Parser Concrete := do
  if (← nextIs "*") || (← nextIs openBrace) then
    return construct "import_clause" [← importedNames s]
  else
    let first ← name "identifier"
    if ← nextIs "," then
      let comma ← token ","
      return construct "import_clause" [first, comma, ← importedNames s]
    else return construct "import_clause" [first]

/-- `attributes` reads the object behind `with`. -/
def importStatement (s : Scope) (attributes : Parser Concrete) : Parser Concrete := do
  let word ← keyword "import"
  let source ← if (← nextIs "\"") || (← nextIs "'") then pure [← quoted s]
    else
      let clause ← importClause s
      pure (clause :: (← fromClause s))
  let options ← if ← nextIsWord "with" then
      let mark ← keyword "with"
      pure [construct "import_attribute" [mark, ← attributes]]
    else pure []
  let stop ← semicolon false
  return constructTo "import_statement" (word :: source ++ options ++ stop) (← get)

/-- A function with a name, which makes it a declaration. -/
def nextIsNamedFunction : Parser Bool := do
  if (← nextIsWord "function") || (← nextIsAsyncFunction) then
    let start ← get
    let (_, _, named) ← functionHead
    set start
    return named
  else return false

def nextIsNamedClass : Parser Bool := do
  if ← nextIsWord "class" then
    let start ← get
    let _ ← keyword "class"
    let named := nameLength (← upcoming) ≠ 0 && !(← nextIsWord "extends")
    set start
    return named
  else return false

def exportDefault (s : Scope) (word : Concrete) : Parser Concrete := do
  let mark ← keyword "default"
  if ← nextIsNamedFunction then
    return construct "export_statement" [word, mark, ← functionDeclaration s]
  else if ← nextIsNamedClass then
    return construct "export_statement" [word, mark, ← classDeclaration s]
  else
    let value ← s.phrase .expression
    let stop ← semicolon true
    return constructTo "export_statement" (word :: mark :: value :: stop) (← get)

def exportStatement (s : Scope) : Parser Concrete := do
  let word ← keyword "export"
  if ← nextIsWord "default" then exportDefault s word
  else if ← nextIs "*" then
    let start ← get
    let star ← token "*"
    let names ← if ← nextIsWord "as" then
        set start
        starAs s "namespace_export"
      else pure star
    let source ← fromClause s
    let stop ← semicolon false
    return constructTo "export_statement" (word :: names :: source ++ stop) (← get)
  else if ← nextIs openBrace then
    let names ← specifiers s "export_clause" "export_specifier"
    let source ← if ← nextIsWord "from" then fromClause s else pure []
    let stop ← semicolon false
    return constructTo "export_statement" (word :: names :: source ++ stop) (← get)
  else return construct "export_statement" [word, ← s.phrase .statement]

end CallChain.JavaScript.Grammar
