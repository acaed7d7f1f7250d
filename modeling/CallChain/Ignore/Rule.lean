import CallChain.Ignore.Pattern
import CallChain.Text.Blank
import CallChain.Text.Lines

/-!
The lines of ignore files. The last line that matches decides; a line with `!` in front takes a file back
in. A pattern without a slash matches in every directory below, one that ends in a slash matches
directories only.
-/
namespace CallChain.Ignore

structure Rule where
  pattern : Pattern
  /-- The line takes back in. -/
  keeps : Bool
  directoriesOnly : Bool

inductive Verdict where
  | ignore
  | keep
  deriving DecidableEq

/-- Blanks at the end do not count, unless the last is escaped. -/
def dropTrailing (line : List Char) : List Char :=
  match line.reverse with
  | ' ' :: '\\' :: _ => line
  | _ => Text.trimEnd line

/-- The marks in front of a pattern: whether it keeps, whether it is tied to the directory, and the rest. -/
def splitMarks (line : List Char) : Bool × Bool × List Char :=
  match line with
  | '\\' :: '!' :: rest => (false, false, '!' :: rest)
  | '\\' :: '#' :: rest => (false, false, '#' :: rest)
  | '!' :: '/' :: rest => (true, true, rest)
  | '!' :: rest => (true, false, rest)
  | '/' :: rest => (false, true, rest)
  | _ => (false, false, line)

/-- A slash at the end, with the backslash that may stand before it, and whether there was one. -/
def splitDirectoryMark (pattern : List Char) : Bool × List Char :=
  match pattern.reverse with
  | '/' :: '\\' :: rest => (true, rest.reverse)
  | '/' :: rest => (true, rest.reverse)
  | _ => (false, pattern)

/-- The pattern matches below any directory, if it is not tied to one. -/
def loosen (tied : Bool) (pattern : List Char) : List Char :=
  if tied || pattern.contains '/' || pattern = ['*', '*'] then pattern
  else ['*', '*', '/'] ++ pattern

/-- What ends in `/**` matches what lies in a directory and not the directory. -/
def requireInside (pattern : List Char) : List Char :=
  match pattern.reverse with
  | '*' :: '*' :: '/' :: _ => pattern ++ ['/', '*']
  | _ => pattern

/-- The rule on a line; comments, empty lines and invalid patterns give none. -/
def Rule.ofLine? (line : List Char) : Option Rule :=
  if line.head? = some '#' then none
  else
    match dropTrailing line with
    | [] => none
    | line => do
      let (keeps, tied, rest) := splitMarks line
      let (directoriesOnly, rest) := splitDirectoryMark rest
      let pattern ← Pattern.read? (requireInside (loosen tied rest))
      return { pattern, keeps, directoriesOnly }

/-- The rules of a file. A byte order mark in front does not count. -/
def rulesOf (text : String) : List Rule :=
  (Text.lines (text.toList.dropWhile (· = '\uFEFF'))).filterMap Rule.ofLine?

/-- What the rules say about a path below their directory. -/
def decide? (rules : List Rule) (path : List UInt8) (isDirectory : Bool) : Option Verdict :=
  (rules.reverse.find? fun r => (!r.directoriesOnly || isDirectory) && r.pattern.accepts path).map
    fun r => if r.keeps then .keep else .ignore

end CallChain.Ignore
