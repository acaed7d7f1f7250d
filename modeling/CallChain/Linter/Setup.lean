import CallChain.Linter

/-!
How a linter is put together.
-/
namespace CallChain.Linter

structure Setup where
  /-- Directory or file to look at, in place of the one in the configuration. -/
  root : Option Path := none
  rules : List Rule := []
  frontEnds : List FrontEnd := []
  /-- Patterns that come before those of the configuration. -/
  exclude : List String := []
  config : Option Config := none
  failOnParseError : Bool := false

/-- The root that is asked for, seen from the current directory. -/
def Setup.absoluteRoot (s : Setup) (current : Path) : Path :=
  let root := (s.root.or (s.config.map (·.scope.root))).getD ⟨"."⟩
  if root.isAbsolute then root else current.join root

/-- Patterns to leave files out. Without a configuration the standard ones do not apply. -/
def Setup.patterns (s : Setup) : List String :=
  s.exclude ++ (s.config.map (·.scope.exclude)).getD []

/-- The linter. Paths are reported from the root, or from its directory if the root is a file. -/
def Setup.build (s : Setup) (current : Path) (isFile : Path → Bool) : Except Error Linter := do
  let root := s.absoluteRoot current
  let exclude ← (s.patterns.mapM Exclude.Pattern.read).mapError .pattern
  return {
    root, exclude
    base := if isFile root then root.parent?.getD root else root
    rules := s.rules
    frontEnds := s.frontEnds
    config := s.config.getD {}
    failOnParseError := s.failOnParseError }

end CallChain.Linter
