import CallChain.Json
import CallChain.Report

/-!
The JSON form of reports. What is absent is written as `null`, but for the template name and the data of
a message, which are left out. Reading takes a record as an object, whose unknown fields it passes over,
or as the array of its fields in order, where those with a default may be left out at the end.
-/
namespace CallChain

namespace Location

def toJson (l : Location) : Json :=
  .object [("file", .string l.file.text), ("line", .natural l.line), ("column", .natural l.column),
    ("offset", .natural l.offset), ("length", .natural l.length)]

end Location

namespace Replacement

def toJson (r : Replacement) : Json :=
  .object [("location", r.location.toJson), ("new_text", .string r.newText)]

end Replacement

namespace Suggestion

def toJson (s : Suggestion) : Json :=
  .object [("message", .string s.message),
    ("replacement", (s.replacement.map Replacement.toJson).getD .null)]

end Suggestion

namespace Remark

def toJson (r : Remark) : Json :=
  .object [("location", r.location.toJson), ("message", .string r.message)]

end Remark

namespace Bindings

def toJson (b : Bindings) : Json := .object (b.entries.map fun (key, value) => (key, .string value))

end Bindings

namespace Violation

def toJson (v : Violation) : Json :=
  .object
    ([("code", .string v.code), ("rule", .string v.rule), ("severity", .string v.severity.name),
      ("location", v.location.toJson), ("message", .string v.message),
      ("suggestion", (v.suggestion.map Suggestion.toJson).getD .null),
      ("labels", .array (v.labels.map Remark.toJson))]
      ++ (v.messageId.map fun id => ("message_id", .string id)).toList
      ++ if v.data.isEmpty then [] else [("data", v.data.toJson)])

end Violation

namespace Report

def toJson (r : Report) : Json :=
  .object [("violations", .array (r.violations.map Violation.toJson)),
    ("files_checked", .natural r.filesChecked), ("files_fixed", .natural r.filesFixed)]

end Report

/-! ### Reading -/

namespace Json

def string? : Json → Option String
  | string s => some s
  | _ => none

/-- A number that fits a word. -/
def word? : Json → Option Nat
  | number (.ofNat n) 0 => if n < Word.bound then some n else none
  | _ => none

/-- `null` or a value. -/
def nullable {α : Type} (read : Json → Option α) : Json → Option (Option α)
  | null => some none
  | j => (read j).map some

def list? {α : Type} (read : Json → Option α) : Json → Option (List α)
  | array items => items.mapM read
  | _ => none

/-- A field of a record: where it stands in an object and in an array. -/
structure Slot where
  name : String
  index : Nat

/-- A required field. -/
def required {α : Type} (j : Json) (slot : Slot) (read : Json → Option α) : Option α :=
  match j with
  | object fields => (field? fields slot.name).bind read
  | array items => items[slot.index]?.bind read
  | _ => none

/-- A field that an object may leave out, but not an array. -/
def nullableField {α : Type} (j : Json) (slot : Slot) (read : Json → Option α) :
    Option (Option α) :=
  match j with
  | object fields =>
    match field? fields slot.name with
    | some value => nullable read value
    | none => some none
  | array items => items[slot.index]?.bind (nullable read)
  | _ => none

/-- A field that may be left out and then has a default. -/
def defaulted {α : Type} (j : Json) (slot : Slot) (value : α) (read : Json → Option α) : Option α :=
  match j with
  | object fields =>
    match field? fields slot.name with
    | some given => read given
    | none => some value
  | array items =>
    match items[slot.index]? with
    | some given => read given
    | none => some value
  | _ => none

/-- An object, or an array of no more than `n` items. -/
def isRecord (n : Nat) : Json → Bool
  | object _ => true
  | array items => items.length ≤ n
  | _ => false

end Json

namespace Severity

/-- The name, alone or as the only key of an object. -/
def ofJson? : Json → Option Severity
  | .string s => ofName? s
  | .object [(name, .null)] => ofName? name
  | _ => none

end Severity

namespace Location

def ofJson? (j : Json) : Option Location := do
  guard (j.isRecord 5)
  let file ← j.required ⟨"file", 0⟩ Json.string?
  let line ← j.required ⟨"line", 1⟩ Json.word?
  let column ← j.required ⟨"column", 2⟩ Json.word?
  let offset ← j.required ⟨"offset", 3⟩ Json.word?
  let length ← j.required ⟨"length", 4⟩ Json.word?
  return { file := ⟨file⟩, line, column, offset, length }

end Location

namespace Replacement

def ofJson? (j : Json) : Option Replacement := do
  guard (j.isRecord 2)
  let location ← j.required ⟨"location", 0⟩ Location.ofJson?
  let newText ← j.required ⟨"new_text", 1⟩ Json.string?
  return { location, newText }

end Replacement

namespace Suggestion

def ofJson? (j : Json) : Option Suggestion := do
  guard (j.isRecord 2)
  let message ← j.required ⟨"message", 0⟩ Json.string?
  let replacement ← j.nullableField ⟨"replacement", 1⟩ Replacement.ofJson?
  return { message, replacement }

end Suggestion

namespace Remark

def ofJson? (j : Json) : Option Remark := do
  guard (j.isRecord 2)
  let location ← j.required ⟨"location", 0⟩ Location.ofJson?
  let message ← j.required ⟨"message", 1⟩ Json.string?
  return { location, message }

end Remark

namespace Bindings

def ofJson? : Json → Option Bindings
  | .object fields =>
    (fields.mapM fun (field : String × Json) => field.2.string?.map (field.1, ·)).map ofList
  | _ => none

end Bindings

namespace Violation

def ofJson? (j : Json) : Option Violation := do
  guard (j.isRecord 9)
  let code ← j.required ⟨"code", 0⟩ Json.string?
  let rule ← j.required ⟨"rule", 1⟩ Json.string?
  let severity ← j.required ⟨"severity", 2⟩ Severity.ofJson?
  let location ← j.required ⟨"location", 3⟩ Location.ofJson?
  let message ← j.required ⟨"message", 4⟩ Json.string?
  let suggestion ← j.nullableField ⟨"suggestion", 5⟩ Suggestion.ofJson?
  let labels ← j.required ⟨"labels", 6⟩ (Json.list? Remark.ofJson?)
  let messageId ← j.defaulted ⟨"message_id", 7⟩ none (Json.nullable Json.string?)
  let data ← j.defaulted ⟨"data", 8⟩ .empty Bindings.ofJson?
  return { code, rule, severity, location, message, suggestion, labels, messageId, data }

end Violation

namespace Report

def ofJson? (j : Json) : Option Report := do
  guard (j.isRecord 3)
  let violations ← j.required ⟨"violations", 0⟩ (Json.list? Violation.ofJson?)
  let filesChecked ← j.required ⟨"files_checked", 1⟩ Json.word?
  let filesFixed ← j.defaulted ⟨"files_fixed", 2⟩ 0 Json.word?
  return { violations, filesChecked, filesFixed }

end Report

end CallChain
