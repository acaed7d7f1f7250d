/-!
Patterns of files to leave out. `?` stands for any character, `*` for any run of characters, `[…]` for a
character of a set and `[!…]` for one outside it; all of them may stand for a slash. `**` is a whole
component of a path and stands for any number of components.
-/
namespace CallChain.Exclude

/-- Characters from `first` to `last`. -/
structure Range where
  first : Char
  last : Char
  deriving DecidableEq, Repr

def Range.contains (r : Range) (c : Char) : Bool := r.first ≤ c && c ≤ r.last

inductive Token where
  | char (c : Char)
  | anyChar
  | anyRun
  | anyComponents
  | within (set : List Range)
  | without (set : List Range)
  deriving DecidableEq, Repr

structure Pattern where
  tokens : List Token
  deriving DecidableEq, Repr

inductive PatternFault where
  | wildcards
  | recursiveWildcards
  | invalidRange
  deriving DecidableEq, Repr

/-- A fault and its place, counted in characters. -/
structure PatternError where
  position : Nat
  fault : PatternFault
  deriving DecidableEq, Repr

def PatternFault.message : PatternFault → String
  | wildcards => "wildcards are either regular `*` or recursive `**`"
  | recursiveWildcards => "recursive wildcards must form a single path component"
  | invalidRange => "invalid range pattern"

def PatternError.message (e : PatternError) : String :=
  "Pattern syntax error near position " ++ toString e.position ++ ": " ++ e.fault.message

/-- The ranges of a set. A dash between two characters makes a range, any other stands for itself. -/
def ranges : List Char → List Range
  | a :: '-' :: b :: cs => ⟨a, b⟩ :: ranges cs
  | c :: cs => ⟨c, c⟩ :: ranges cs
  | [] => []

/-- The characters of a set and what follows its closing bracket. The first character always belongs to
the set, even if it is a bracket. -/
def splitSet? : List Char → Option (List Char × List Char)
  | [] => none
  | c :: cs =>
    match cs.dropWhile (· ≠ ']') with
    | [] => none
    | _ :: rest => some (c :: cs.takeWhile (· ≠ ']'), rest)

/-- A set behind its opening bracket. -/
def readSet? : List Char → Option (Token × List Char)
  | '!' :: cs => (splitSet? cs).map fun (set, rest) => (.without (ranges set), rest)
  | cs => (splitSet? cs).map fun (set, rest) => (.within (ranges set), rest)

/-- Reads a pattern from character `pos` on; `previous` is the character before. A run of stars is taken
as a whole, and `**` with the slash that follows it. -/
def readFrom (pos : Nat) (previous : Option Char) : Nat → List Char → Except PatternError (List Token)
  | _, [] => .ok []
  | 0, _ :: _ => .ok []
  | n + 1, c :: cs =>
    match c with
    | '?' => (.anyChar :: ·) <$> readFrom (pos + 1) c n cs
    | '*' =>
      let stars := 1 + (cs.takeWhile (· = '*')).length
      let rest := cs.dropWhile (· = '*')
      if 2 < stars then .error ⟨pos + 2, .wildcards⟩
      else if stars = 1 then (.anyRun :: ·) <$> readFrom (pos + 1) c n rest
      else if previous ≠ none && previous ≠ some '/' then .error ⟨pos - 1, .recursiveWildcards⟩
      else
        match rest with
        | [] => .ok [.anyComponents]
        | d :: rest =>
          if d = '/' then (.anyComponents :: ·) <$> readFrom (pos + 3) d n rest
          else .error ⟨pos + 2, .recursiveWildcards⟩
    | '[' =>
      match readSet? cs with
      | some (token, rest) => (token :: ·) <$> readFrom (pos + 1 + (cs.length - rest.length)) ']' n rest
      | none => .error ⟨pos, .invalidRange⟩
    | c => (.char c :: ·) <$> readFrom (pos + 1) c n cs

namespace Pattern

def read (text : String) : Except PatternError Pattern := do
  return ⟨← readFrom 0 none text.length text.toList⟩

/-- The ends of a text, the whole text first and the empty one last. -/
def tails : List Char → List (List Char)
  | [] => [[]]
  | c :: cs => (c :: cs) :: tails cs

/-- The ends of a text that start behind a slash, and the empty one. -/
def componentTails : List Char → List (List Char)
  | [] => [[]]
  | c :: cs => if c = '/' then cs :: componentTails cs else componentTails cs

/-- The tokens match the whole text. -/
def matchTokens : List Token → List Char → Bool
  | [], cs => cs.isEmpty
  | .anyRun :: ts, cs => (tails cs).any (matchTokens ts)
  | .anyComponents :: ts, cs => (cs :: componentTails cs).any (matchTokens ts)
  | .char _ :: _, [] | .anyChar :: _, [] | .within _ :: _, [] | .without _ :: _, [] => false
  | .char d :: ts, c :: cs => c = d && matchTokens ts cs
  | .anyChar :: ts, _ :: cs => matchTokens ts cs
  | .within set :: ts, c :: cs => set.any (·.contains c) && matchTokens ts cs
  | .without set :: ts, c :: cs => !set.any (·.contains c) && matchTokens ts cs

def accepts (p : Pattern) (text : String) : Bool := matchTokens p.tokens text.toList

end Pattern

end CallChain.Exclude
