import CallChain.FileTree
import CallChain.Ignore.Rule

/-!
Ignore files of a directory and of those above it. Of files of one kind the nearest that says anything
decides; `.ignore` goes before `.gitignore`, and that before the exclusions of the repository. Hidden files
are skipped unless they are taken back in.
-/
namespace CallChain.Ignore

/-- The rules of one directory. -/
structure Level where
  place : Place
  ignore : List Rule
  gitignore : List Rule
  exclusions : List Rule

/-- The rules in a file of a directory. -/
def rulesAt (t : FileTree) (place : Place) : List Rule :=
  (((t.content? place).bind Content.text?).map rulesOf).getD []

def Level.of (t : FileTree) (respectGitignore : Bool) (place : Place) : Level where
  place := place
  ignore := rulesAt t (place ++ [".ignore"])
  gitignore := if respectGitignore then rulesAt t (place ++ [".gitignore"]) else []
  exclusions := rulesAt t (place ++ [".git", "info", "exclude"])

/-- The levels above a place, the nearest first. -/
def levelsAbove (t : FileTree) (respectGitignore : Bool) (place : Place) : List Level :=
  (List.range place.length).reverse.map fun n => .of t respectGitignore (place.take n)

/-- The bytes of the path from a directory down to a place. -/
def pathBelow (directory place : Place) : List UInt8 :=
  ("/".intercalate (place.drop directory.length)).toUTF8.toList

/-- What the nearest rules of one kind say. -/
def verdict? (levels : List Level) (kind : Level → List Rule) (place : Place) (isDirectory : Bool) :
    Option Verdict :=
  levels.findSome? fun level =>
    decide? (kind level) (pathBelow level.place place) isDirectory

def isHidden (place : Place) : Bool := (place.getLast?.bind (·.toList.head?)) = some '.'

/-- The file or directory is not looked at. -/
def skips (levels : List Level) (place : Place) (isDirectory : Bool) : Bool :=
  let verdict := ((verdict? levels (·.ignore) place isDirectory).or
    (verdict? levels (·.gitignore) place isDirectory)).or
      (verdict? levels (·.exclusions) place isDirectory)
  match verdict with
  | some .ignore => true
  | some .keep => false
  | none => isHidden place

end CallChain.Ignore
