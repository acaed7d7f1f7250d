import CallChain.Bindings
import CallChain.Edit
import CallChain.Path
import CallChain.Severity
import CallChain.Span
import CallChain.Word

/-!
Findings of a rule, with the edit that would mend them.
-/
namespace CallChain

/-- A place in a file. Lines and columns count from one; the byte range may be empty. -/
structure Location where
  file : Path
  line : Nat
  column : Nat
  offset : Nat
  length : Nat
  deriving DecidableEq, Repr

namespace Location

/-- A line and column without a byte range. -/
def ofLineColumn (file : Path) (line column : Nat) : Location :=
  { file, line, column, offset := 0, length := 0 }

def withRange (l : Location) (offset length : Nat) : Location := { l with offset, length }

/-- The place that a span covers. -/
def ofSpan (file : Path) (s : Span) : Location :=
  (ofLineColumn file s.startPos.line (Word.add s.startPos.column 1)).withRange s.start s.length

end Location

/-- A remark on a further place. -/
structure Remark where
  location : Location
  message : String
  deriving DecidableEq, Repr

/-- Put `newText` in place of what stands at `location`. -/
structure Replacement where
  location : Location
  newText : String
  deriving DecidableEq, Repr

namespace Replacement

/-- Insert a text right before a place. -/
def insertBefore (location : Location) (text : String) : Replacement :=
  ⟨location.withRange location.offset 0, text⟩

/-- The edit of the file's text. -/
def toEdit (r : Replacement) : Edit where
  start := r.location.offset
  stop := Word.add r.location.offset r.location.length
  text := r.newText

end Replacement

/-- How to mend a finding, in words and, if possible, as a replacement. -/
structure Suggestion where
  message : String
  replacement : Option Replacement
  deriving DecidableEq, Repr

structure Violation where
  code : String
  rule : String
  severity : Severity
  location : Location
  message : String
  suggestion : Option Suggestion
  labels : List Remark
  /-- Name of the template that the message is made from. -/
  messageId : Option String
  data : Bindings

namespace Violation

def make (code rule : String) (severity : Severity) (location : Location) (message : String) :
    Violation where
  code := code
  rule := rule
  severity := severity
  location := location
  message := message
  suggestion := none
  labels := []
  messageId := none
  data := .empty

def withMessageId (v : Violation) (id : String) : Violation := { v with messageId := some id }

def withData (v : Violation) (key value : String) : Violation :=
  { v with data := v.data.insert key value }

def withLabel (v : Violation) (label : Remark) : Violation := { v with labels := v.labels ++ [label] }

def withSuggestion (v : Violation) (s : Suggestion) : Violation := { v with suggestion := some s }

def replacement? (v : Violation) : Option Replacement := v.suggestion.bind (·.replacement)

/-- Order of findings in a text, by the place where they start. -/
def inText (a b : Violation) : Bool := a.location.offset ≤ b.location.offset

/-- The finding on one line. -/
def display (v : Violation) : String :=
  let place := v.location
  s!"{place.file.text}:{place.line}:{place.column}: {v.severity.name} [{v.code}] {v.message}"

end Violation

/-- The edits that findings carry, as far as they go together. -/
def EditSet.ofViolations (vs : List Violation) : EditSet :=
  .ofList (vs.filterMap fun v => v.replacement?.map Replacement.toEdit)

/-- A finding as it is shown with the text around it: labels are byte ranges, the first being the place
of the finding under the name of the rule. -/
structure Diagnostic where
  text : String
  help : Option String
  labels : List (String × Nat × Nat)
  deriving Repr

def Violation.diagnostic (v : Violation) : Diagnostic where
  text := s!"[{v.code}] {v.message}"
  help := v.suggestion.map (·.message)
  labels := (v.rule, v.location.offset, v.location.length) ::
    v.labels.map fun l => (l.message, l.location.offset, l.location.length)

end CallChain
