import CallChain.JavaScript.Grammar.Basic

/-!
Strings, templates, regular expressions and numbers. Their inner pieces follow each other without gaps.
-/
namespace CallChain.JavaScript.Grammar

def escapeSequence : Parser Concrete := do
  let rest := (← get).rest
  match escapeLength? rest with
  | some n => leaf "escape_sequence" true n
  | none => if rest.length ≤ 1 then throw .unfinished else fail

def stringLiteral (limit : Nat) (quote : Char) : Parser Concrete := do
  let mark := quote.toString
  let first ← token mark
  let inner ← many (do
    let rest := (← get).rest
    if rest.head? = some quote then return none
    else if rest.head? = some '\\' then return some [← escapeSequence]
    else
      let n := stringPartLength quote rest
      if n = 0 then fail else return some [← leaf "string_fragment" true n]) limit
  let last ← leaf mark false 1
  return construct "string" (first :: inner ++ [last])

def templateLiteral (s : Scope) : Parser Concrete := do
  let first ← token "`"
  let inner ← many (do
    let rest := (← get).rest
    let n := templatePartLength rest
    if n ≠ 0 then return some [← leaf "string_fragment" true n]
    else
      match rest with
      | '`' :: _ => return none
      | '\\' :: _ => return some [← escapeSequence]
      | '$' :: '{' :: _ =>
        let opening ← leaf ("$" ++ openBrace) false 2
        let inside ← s.phrase .expressions
        let closing ← token closeBrace
        return some [construct "template_substitution" [opening, inside, closing]]
      | _ => fail) s.limit
  let last ← leaf "`" false 1
  return construct "template_string" (first :: inner ++ [last])

def isFlag (c : Char) : Bool := 'a' ≤ c && c ≤ 'z'

def regex : Parser Concrete := do
  let opening ← token "/"
  let rest := (← get).rest
  match regexLength? false rest with
  | none => if rest.contains '\n' then fail else throw .unfinished
  | some n =>
    let pattern ← leaf "regex_pattern" true n
    let closing ← leaf "/" false 1
    let flags := ((← get).rest.takeWhile isFlag).length
    if flags = 0 then return construct "regex" [opening, pattern, closing]
    else return construct "regex" [opening, pattern, closing, ← leaf "regex_flags" true flags]

def number : Parser Concrete := do
  let n := numberLength (← upcoming)
  if n = 0 then fail else leafAhead "number" true n

end CallChain.JavaScript.Grammar
