import CallChain.Toml.Document
import CallChain.Toml.Scalar

/-!
Reading TOML 1.0.
-/
namespace CallChain.Toml

/-! ### Keys -/

def isBareKeyPart (c : Char) : Bool := c.isAlphanum || c = '_' || c = '-'

/-- One part of a key. -/
def readSimpleKey : Reader String := fun cs =>
  match cs with
  | '"' :: rest => (readBasic (rest.length + 1) rest).map fun (s, rest) => (String.ofList s, rest)
  | '\'' :: rest => (readLiteral rest).map fun (s, rest) => (String.ofList s, rest)
  | _ =>
    let key := cs.takeWhile isBareKeyPart
    if key.isEmpty then none else some (String.ofList key, cs.drop key.length)

/-- A dotted key with the blanks around its parts; it has fewer than `n + 1` parts. -/
def readKeyParts : Nat → Reader (List String)
  | 0, _ => none
  | n + 1, cs => do
    let (key, rest) ← readSimpleKey (skipBlanks cs)
    match skipBlanks rest with
    | '.' :: rest =>
      let (keys, rest) ← readKeyParts n rest
      return (key :: keys, rest)
    | rest => return ([key], rest)

/-- How deep keys and values may be nested. -/
def depthLimit : Nat := 79

/-- A dotted key: the way to a table, and the key in it. -/
def readKey : Reader (List String × String) := fun cs => do
  let (keys, rest) ← readKeyParts depthLimit cs
  let key ← keys.getLast?
  return ((keys.dropLast, key), rest)

/-! ### Values -/

/-- Behind a comment, at the end of its line. -/
def skipComment : List Char → List Char
  | '#' :: cs => cs.dropWhile isPlain
  | cs => cs

/-- Skips blanks, line ends and comments that end with their line. -/
def skipGap : Nat → List Char → List Char
  | 0, cs => cs
  | n + 1, cs =>
    let cs := skipBlanks cs
    match newline? (skipComment cs) with
    | some rest => skipGap n rest
    | none => cs

/-- The items of an array behind its bracket, up to the closing one. A comma may follow the last. -/
def readItems (item : Reader Value) : Nat → Reader (List Value)
  | 0, _ => none
  | n + 1, cs =>
    match skipGap (cs.length + 1) cs with
    | ']' :: rest => some ([], rest)
    | cs => do
      let (v, rest) ← item cs
      match skipGap (rest.length + 1) rest with
      | ',' :: rest =>
        let (vs, rest) ← readItems item n rest
        return (v :: vs, rest)
      | ']' :: rest => return ([v], rest)
      | _ => none

/-- A key with its value. -/
def readPair (item : Reader Value) : Reader ((List String × String) × Value) := fun cs => do
  let (key, rest) ← readKey cs
  let rest ← readMark '=' rest
  let (v, rest) ← item (skipBlanks rest)
  return ((key, v), skipBlanks rest)

/-- The pairs of an inline table, up to the closing brace. No comma follows the last. -/
def readPairs (item : Reader Value) (entries : Entries) : Nat → Reader Entries
  | 0, _ => none
  | n + 1, cs => do
    let (((path, key), v), rest) ← readPair item cs
    let entries ← insertKey path key v entries
    match rest with
    | ',' :: rest => readPairs item entries n rest
    | '}' :: rest => return (entries, rest)
    | _ => none

/-- An inline table behind its brace. -/
def readInlineTable (item : Reader Value) : Reader Value := fun cs =>
  match skipBlanks cs with
  | '}' :: rest => some (.table [], rest)
  | cs => (readPairs item [] (cs.length + 1) cs).map fun (entries, rest) =>
    (.table (closeEntries entries), rest)

/-- A value with at most `n` levels of arrays and inline tables. -/
def readValue : Nat → Reader Value
  | 0 => readScalar
  | n + 1 => fun cs =>
    match cs with
    | '[' :: rest =>
      (readItems (readValue n) (rest.length + 1) rest).map fun (vs, rest) => (.array vs, rest)
    | '{' :: rest => readInlineTable (readValue n) rest
    | _ => readScalar cs

/-! ### Documents -/

/-- Behind the end of a line, on which only blanks and a comment may remain. -/
def endLine? (cs : List Char) : Option (List Char) :=
  match skipComment (skipBlanks cs) with
  | [] => some []
  | cs => newline? cs

/-- A header behind its opening brackets. -/
def readHeader (closing : List Char) : Reader (List String × String) := fun cs => do
  let (key, rest) ← readKey cs
  let rest ← closing.isPrefixOf? rest
  let rest ← endLine? rest
  return (key, rest)

/-- One line: a header, a pair, or nothing. -/
def readLine (d : Document) (cs : List Char) : Option (Document × List Char) :=
  match skipBlanks cs with
  | '[' :: '[' :: rest => do
    let ((path, key), rest) ← readHeader [']', ']'] rest
    return (← d.openElement path key, rest)
  | '[' :: rest => do
    let ((path, key), rest) ← readHeader [']'] rest
    return (← d.openTable path key, rest)
  | cs =>
    match endLine? cs with
    | some rest => some (d, rest)
    | none => do
      let (((path, key), v), rest) ← readPair (readValue depthLimit) cs
      let rest ← endLine? rest
      return (← d.insert path key v, rest)

def readLines : Nat → Document → List Char → Option Document
  | _, d, [] => some d
  | 0, _, _ :: _ => none
  | n + 1, d, cs => do
    let (d, rest) ← readLine d cs
    readLines n d rest

/-- A byte order mark at the start is passed over. -/
def dropMark : List Char → List Char
  | '\uFEFF' :: cs => cs
  | cs => cs

/-- The entries of a document. -/
def read (text : String) : Option (List (String × Value)) := do
  let cs := dropMark text.toList
  let d ← readLines cs.length {} cs
  return closeEntries d.entries

end CallChain.Toml
