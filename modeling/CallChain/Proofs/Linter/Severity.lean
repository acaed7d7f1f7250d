import CallChain.Catalog
import CallChain.Linter.Setup
import CallChain.Proofs.Linter.Alike

/-!
# Severities do not influence what is found

A configuration may set the severity of each rule and that from which on a run fails. Neither has an
influence on the findings, their order, their edits or the mended text: two configurations that differ
in nothing else lead to the same rules, and the linters set up with them differ only in the severity of
what they report.
-/
namespace CallChain

/-- The findings agree in every field but their severity. -/
def Violation.SameButSeverity (v w : Violation) : Prop := { v with severity := w.severity } = w

/-- The finding with the same severity as any other. -/
def Violation.bare (v : Violation) : Violation := { v with severity := .error }

theorem Violation.sameButSeverity_iff {v w : Violation} : v.SameButSeverity w ↔ v.bare = w.bare := by
  cases v
  cases w
  simp [SameButSeverity, bare]

theorem forall₂_sameButSeverity_iff {vs ws : List Violation} :
    List.Forall₂ Violation.SameButSeverity vs ws ↔ vs.map Violation.bare = ws.map Violation.bare := by
  have hbare : Violation.SameButSeverity = fun v w => v.bare = w.bare := by
    funext v w
    exact propext Violation.sameButSeverity_iff
  rw [← List.forall₂_eq_eq_eq, List.forall₂_map_left_iff, List.forall₂_map_right_iff, hbare]

/-- The edits that findings carry do not depend on their severities. -/
theorem EditSet.ofViolations_map_bare (vs : List Violation) :
    EditSet.ofViolations (vs.map Violation.bare) = EditSet.ofViolations vs := by
  rw [ofViolations, ofViolations, List.filterMap_map]
  rfl

/-- The blocks switch a rule on alike and set the same options. -/
structure RuleBlock.SameButSeverity (b b' : RuleBlock) : Prop where
  enabled : b.enabled = b'.enabled
  options : ∀ key, b.options.lookup key = b'.options.lookup key

/-- The configurations differ at most in severities: those of the rules and that from which on a run
fails. A block that is missing counts as one that sets nothing. -/
structure Config.SameButSeverity (c c' : Config) : Prop where
  scope : c.scope = c'.scope
  rules : ∀ name, ((c.rule? name).getD {}).SameButSeverity ((c'.rule? name).getD {})

namespace Config

variable {c c' : Config}

theorem isEnabled_eq (c : Config) (name : String) :
    c.isEnabled name = (((c.rule? name).getD {}).enabled).getD true := by
  rw [isEnabled]
  cases c.rule? name <;> rfl

theorem SameButSeverity.isEnabled (h : c.SameButSeverity c') (name : String) :
    c.isEnabled name = c'.isEnabled name := by
  rw [isEnabled_eq, isEnabled_eq, (h.rules name).enabled]

end Config

/-- A block that sets no option gives the standard settings, as a missing one does. -/
theorem Chain.Settings.ofConfig_eq (c : Config) :
    ofConfig c =
      (((c.rule? ruleName).getD {}).getInRange ruleName "ignore_chain_with_depth" minThreshold maxThreshold
        2).map fun threshold =>
          { threshold
            requireReason :=
              ((c.rule? ruleName).getD {}).get "require_allow_reason" Toml.Value.boolean? false } := by
  rw [ofConfig]
  cases c.rule? ruleName with
  | none => rfl
  | some block =>
    simp only [Option.getD_some]
    cases block.getInRange ruleName "ignore_chain_with_depth" minThreshold maxThreshold 2 <;> rfl

theorem Catalog.ofConfig_of_sameButSeverity {c c' : Config} (h : c.SameButSeverity c') :
    ofConfig c = ofConfig c' := by
  have hoptions := (h.rules Chain.ruleName).options
  rw [ofConfig, ofConfig, Chain.Settings.ofConfig_eq, Chain.Settings.ofConfig_eq, RuleBlock.getInRange,
    RuleBlock.getInRange, RuleBlock.get, RuleBlock.get, hoptions, hoptions]

namespace Linter

theorem map_bare_override (severity : Option Severity) (vs : List Violation) :
    (override severity vs).map Violation.bare = vs.map Violation.bare := by
  cases severity with
  | none => rfl
  | some s =>
    rw [override, List.map_map]
    rfl

theorem map_bare_findings (l : Linter) (ctx : FileContext) (tree : Syntax.Arena) :
    (l.findings ctx tree).map Violation.bare =
      (l.rules.filter (l.config.isEnabled ·.name)).flatMap fun rule =>
        (rule.check ctx tree).map Violation.bare := by
  rw [findings, List.map_flatMap]
  simp only [map_bare_override]

/-- Sorting by offset looks at no severity. -/
theorem map_bare_mergeSort (vs : List Violation) :
    (vs.mergeSort Violation.inText).map Violation.bare =
      (vs.map Violation.bare).mergeSort Violation.inText :=
  List.map_mergeSort fun _ _ _ _ => rfl

/-- Every text is checked and mended alike but for the severity of the findings. -/
structure SameButSeverity (l l' : Linter) : Prop where
  check : ∀ path content, Alike (List.Forall₂ Violation.SameButSeverity) (l.check path content)
    (l'.check path content)
  fix : ∀ path content, Alike (Fixed.Alike (List.Forall₂ Violation.SameButSeverity))
    (l.fix path content) (l'.fix path content)

/-- Linters that differ only in their configurations, and these only in severities. -/
theorem sameButSeverity_of_config {l l' : Linter} (hl : l' = { l with config := l'.config })
    (h : l.config.SameButSeverity l'.config) : SameButSeverity l l' := by
  have henabled : (fun rule : Rule => l.config.isEnabled rule.name) =
      fun rule => l'.config.isEnabled rule.name := by
    funext rule
    exact h.isEnabled rule.name
  have hcheck : ∀ path content, Alike (List.Forall₂ Violation.SameButSeverity) (l.check path content)
      (l'.check path content) := by
    intro path content
    refine check_alike (by rw [hl]; rfl) fun tree => ?_
    rw [forall₂_sameButSeverity_iff, map_bare_mergeSort, map_bare_mergeSort, map_bare_findings,
      map_bare_findings, henabled, hl]
  refine ⟨hcheck, fun path content => fix_alike (hcheck path) ?_⟩
  intro k _ s vs vs' _ _ hsame
  rw [← EditSet.ofViolations_map_bare vs, forall₂_sameButSeverity_iff.mp hsame,
    EditSet.ofViolations_map_bare]

/-- Where a linter has its rules from. -/
inductive RuleSource where
  /-- The catalog, with the settings of the configuration. -/
  | catalog
  | given (rules : List Rule)

def RuleSource.rules : RuleSource → Config → Except Config.Error (List Rule)
  | catalog, c => Catalog.ofConfig c
  | given rules, _ => .ok rules

/-- A linter is set up from what the configuration says of its scope. -/
theorem Setup.build_eq (s : Setup) (current : Path) (isFile : Path → Bool) :
    s.build current isFile =
      ((s.patterns.mapM Exclude.Pattern.read).mapError .pattern).map fun exclude =>
        { root := s.absoluteRoot current
          base := if isFile (s.absoluteRoot current) then
            (s.absoluteRoot current).parent?.getD (s.absoluteRoot current) else s.absoluteRoot current
          rules := s.rules
          frontEnds := s.frontEnds
          exclude
          config := s.config.getD {}
          failOnParseError := s.failOnParseError } := by
  rw [build]
  cases s.patterns.mapM Exclude.Pattern.read <;> rfl

/-- Configurations that differ only in severities give the same rules or the same error. Linters that are
set up with them fail alike, find the same and mend alike, but for the severity of the findings. -/
theorem setup_with_other_severities (s : Setup) (current : Path) (isFile : Path → Bool)
    (source : RuleSource) (c c' : Config) (h : c.SameButSeverity c') :
    Alike (fun rules rules' =>
        Alike SameButSeverity (Setup.build { s with rules, config := some c } current isFile)
          (Setup.build { s with rules := rules', config := some c' } current isFile))
      (source.rules c) (source.rules c') := by
  have hsource : source.rules c = source.rules c' := by
    cases source with
    | catalog => exact Catalog.ofConfig_of_sameButSeverity h
    | given rules => rfl
  rw [← hsource]
  cases source.rules c with
  | error e => exact .failed e
  | ok rules =>
    refine .done ?_
    have hpatterns : Setup.patterns { s with rules, config := some c' } =
        Setup.patterns { s with rules, config := some c } := by
      simp only [Setup.patterns, Option.map_some, h.scope]
    have hroot : Setup.absoluteRoot { s with rules, config := some c' } current =
        Setup.absoluteRoot { s with rules, config := some c } current := by
      simp only [Setup.absoluteRoot, Option.map_some, h.scope]
    rw [Setup.build_eq, Setup.build_eq, hpatterns, hroot]
    cases (Setup.patterns { s with rules, config := some c }).mapM Exclude.Pattern.read with
    | error e => exact .failed _
    | ok exclude => exact .done (sameButSeverity_of_config rfl h)

/-- A configuration that sets nothing but severities. -/
def severitiesOnly : Config where
  failOn := some .info
  rules := [("no-semicolon", { severity := some .info }),
    (Chain.ruleName, { severity := some .error })]

theorem sameButSeverity_severitiesOnly : Config.SameButSeverity {} severitiesOnly := by
  refine ⟨rfl, fun name => ?_⟩
  have hrule : severitiesOnly.rule? name = none ∨
      ∃ severity, severitiesOnly.rule? name = some { severity } := by
    simp only [severitiesOnly, Config.rule?, List.lookup]
    split
    · exact Or.inr ⟨_, rfl⟩
    · split
      · exact Or.inr ⟨_, rfl⟩
      · exact Or.inl rfl
  rcases hrule with hnone | ⟨severity, hsome⟩
  · rw [hnone]
    exact ⟨rfl, fun _ => rfl⟩
  · rw [hsome]
    exact ⟨rfl, fun _ => rfl⟩

/-- The semicolon is a warning without a configuration and an information with one; it is taken out in
both cases. -/
theorem setup_with_severitiesOnly :
    let s : Setup := { frontEnds := [plainText] }
    let c : Config := {}
    let rules : List Rule := [erasing "no-semicolon" ';']
    let a := Setup.build { s with rules, config := some c } ⟨"/"⟩ fun _ => false
    let b := Setup.build { s with rules, config := some severitiesOnly } ⟨"/"⟩ fun _ => false
    c.SameButSeverity severitiesOnly ∧ Alike SameButSeverity a b ∧
      (a.toOption.bind fun l => (l.check ⟨"a.txt"⟩ "a;b").toOption.map (·.map (·.severity))) =
        some [.warning] ∧
      (b.toOption.bind fun l => (l.check ⟨"a.txt"⟩ "a;b").toOption.map (·.map (·.severity))) =
        some [.info] ∧
      (b.toOption.bind fun l => (l.fix ⟨"a.txt"⟩ "a;b").toOption.map (·.output)) = some "ab" ∧
      (Catalog.ofConfig c).isOk = true ∧
      Alike (fun rules rules' =>
          Alike SameButSeverity (Setup.build { s with rules, config := some c } ⟨"/"⟩ fun _ => false)
            (Setup.build { s with rules := rules', config := some severitiesOnly } ⟨"/"⟩ fun _ => false))
        (Catalog.ofConfig c) (Catalog.ofConfig severitiesOnly) := by
  intro s c rules a b
  have hsame := sameButSeverity_severitiesOnly
  have hgiven := setup_with_other_severities s ⟨"/"⟩ (fun _ => false) (.given rules) c severitiesOnly hsame
  refine ⟨hsame, ?_, by decide +kernel, by decide +kernel, by decide +kernel, rfl, ?_⟩
  · cases hgiven with
    | done h => exact h
  · exact setup_with_other_severities s ⟨"/"⟩ (fun _ => false) .catalog c severitiesOnly hsame

end Linter

end CallChain
