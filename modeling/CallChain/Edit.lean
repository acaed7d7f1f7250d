import CallChain.Text.Bytes

/-!
Edits of a source text. Edits that would overlap are resolved when a set is built, in favour of the
earlier one; those whose range does not fit the text are skipped when the set is applied.
-/
namespace CallChain

/-- Replace the bytes from `start` up to `stop` by `text`. -/
structure Edit where
  start : Nat
  stop : Nat
  text : String
  deriving DecidableEq, Repr

namespace Edit

/-- Order of application. Insertions at one place keep the order in which they were given. -/
def le (a b : Edit) : Bool := a.start < b.start || (a.start == b.start && a.stop ≤ b.stop)

/-- Keeps each edit that starts at or after `limit`, the end of the last one kept. -/
def acceptFrom (limit : Nat) : List Edit → List Edit
  | [] => []
  | e :: es => if e.start < limit then acceptFrom limit es else e :: acceptFrom e.stop es

/-- The edits that take part, in order: each one that starts before the end of the last accepted one
is dropped. -/
def accept (edits : List Edit) : List Edit := acceptFrom 0 (edits.mergeSort le)

/-- Writes the source from byte `cursor` on, with the edits put in. -/
def spliceFrom (source : List Char) (cursor : Nat) : List Edit → List Char
  | [] => (Text.dropBytes? cursor source).getD []
  | e :: es =>
    if e.start ≤ e.stop && Text.isBoundary e.stop source then
      match Text.slice? cursor e.start source with
      | some before => before ++ e.text.toList ++ spliceFrom source e.stop es
      | none => spliceFrom source cursor es
    else spliceFrom source cursor es

end Edit

/-- Accepted edits, in order. -/
structure EditSet where
  edits : List Edit
  deriving DecidableEq, Repr

namespace EditSet

def ofList (edits : List Edit) : EditSet := ⟨Edit.accept edits⟩

def size (s : EditSet) : Nat := s.edits.length

def isEmpty (s : EditSet) : Bool := s.edits.isEmpty

/-- The source with all edits put in, in one pass from its start. -/
def apply (s : EditSet) (source : String) : String :=
  String.ofList (Edit.spliceFrom source.toList 0 s.edits)

end EditSet

end CallChain
