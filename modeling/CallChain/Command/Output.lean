import CallChain.Command.Arguments
import CallChain.Report.Encoding
import CallChain.Text.Pad
import CallChain.Catalog

/-!
What the command prints.
-/
namespace CallChain.Command

def line (text : String) : String := text ++ "\n"

def colored (code text : String) : String := "\x1b[" ++ code ++ "m" ++ text ++ "\x1b[0m"

def severityColor : Severity → String
  | .error => "31"
  | .warning => "33"
  | .info => "34"

/-- A finding over some lines. -/
def violationText (v : Violation) : String :=
  let place := v.location
  let help := match v.suggestion with
    | none => ""
    | some s =>
      line ("  = help: " ++ s.message ++ if s.replacement.isSome then " (fixable)" else "")
  line (v.code ++ " " ++ v.rule ++ " at " ++ place.file.text ++ ":" ++ toString place.line ++ ":" ++
      toString place.column) ++
    line ("  " ++ colored (severityColor v.severity) v.severity.name ++ ": " ++ v.message) ++
    help ++ line ""

/-- The summary is as red, yellow or green as the gravest finding. -/
def summaryColor (t : Tally) : String :=
  if 0 < t.errors then "31" else if 0 < t.warnings then "33" else "32"

def summary (r : Report) : String :=
  let t := r.tally
  line (colored (summaryColor t)
      ("Found " ++ toString t.errors ++ " error(s), " ++ toString t.warnings ++ " warning(s), " ++
        toString t.infos ++ " info(s) in " ++ toString r.filesChecked ++ " file(s)")) ++
    (if 0 < r.filesFixed then line ("Fixed " ++ toString r.filesFixed ++ " file(s)") else "") ++
    if 0 < r.fixable then line (toString r.fixable ++ " violation(s) can be fixed with --fix") else ""

/-- A finding with its labels and its help. -/
def diagnosticText (v : Violation) : String :=
  let d := v.diagnostic
  let place := v.location
  line ("  × " ++ d.text) ++
    line ("   ╭─[" ++ place.file.text ++ ":" ++ toString place.line ++ ":" ++ toString place.column ++ "]") ++
    String.join (d.labels.map fun (label, offset, length) =>
      line ("   · " ++ toString offset ++ "+" ++ toString length ++ " " ++ label)) ++
    line "   ╰────" ++
    (d.help.map fun help => line ("  help: " ++ help)).getD "" ++ line ""

def reportText (format : Format) (r : Report) : String :=
  match format with
  | .text => String.join (r.violations.map violationText) ++ summary r
  | .json => line r.toJson.text
  | .compact => String.join (r.violations.map fun v => line v.display)
  | .pretty => String.join (r.violations.map diagnosticText) ++ summary r

/-- One row of the list of rules. -/
def ruleRow (code name severity description : String) : String :=
  line (Text.pad .left 10 code ++ " " ++ Text.pad .left 20 name ++ " " ++
    Text.pad .left 10 severity ++ " " ++ description)

def ruleList : String :=
  line "Available rules:" ++ line "" ++
    ruleRow "Code" "Name" "Severity" "Description" ++
    line (String.ofList (List.replicate 80 '-')) ++
    String.join (Catalog.standard.map fun r =>
      ruleRow r.code r.name r.defaultSeverity.name r.description) ++
    line "" ++ line "Options for method-chaining:" ++
    line "  ignore_chain_with_depth  Longest chain allowed on one line, 1-10 (default: 2)" ++
    line "  require_allow_reason     Require reason=\"...\" on allow directives (default: false)" ++
    line "" ++ line "Configure rules in chain-lint.toml, e.g.:" ++
    line "  [rules.method-chaining]" ++ line "  ignore_chain_with_depth = 3"

/-- The configuration file that `init` writes. -/
def initialConfig : String :=
  String.join ([
    "# chain-lint configuration",
    "",
    "# Exit with status 1 when a violation at or above this severity remains",
    "# fail_on = \"error\"",
    "",
    "[analyzer]",
    "# Root directory to analyze (default: current directory)",
    "# root = \"./src\"",
    "",
    "# Glob patterns to exclude from analysis",
    "exclude = [",
    "    \"**/node_modules/**\",",
    "    \"**/dist/**\",",
    "]",
    "",
    "# Respect .gitignore files",
    "respect_gitignore = true",
    "",
    "# Rule configurations",
    "# Each rule can be enabled/disabled and have its severity overridden",
    "",
    "[rules.method-chaining]",
    "enabled = true",
    "# severity = \"error\"  # Override default severity (warning)",
    "ignore_chain_with_depth = 2",
    "# require_allow_reason = true"].map line)

def initMessage : String :=
  line "Created chain-lint.toml" ++ line "" ++ line "Next steps:" ++
    line "  1. Edit chain-lint.toml to configure rules" ++ line "  2. Run: chain-lint check"

def versionText : String := line "chain-lint 0.1.0"

def helpText : String :=
  line "Usage: chain-lint [OPTIONS] <COMMAND>" ++ line "" ++ line "Commands:" ++
    line "  check [PATH]  Check files for violations" ++
    line "  list-rules    List available rules" ++
    line "  init          Write a configuration file" ++ line "" ++ line "Options:" ++
    line "  -v, --verbose          Print more" ++
    line "  -c, --config <CONFIG>  Configuration file" ++
    line "  -h, --help             Print help" ++
    line "  -V, --version          Print version"

end CallChain.Command
