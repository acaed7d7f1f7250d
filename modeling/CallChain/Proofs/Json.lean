import CallChain.Proofs.Report.Order
import CallChain.Report.Encoding

/-!
# Fields of JSON objects

Objects list their fields in writing order, but the order is no part of the value: two values are the same
if they are equal once the fields of every object are sorted by name. Records are read by the names of
their fields, so that values that are the same are read alike. A field that is taken out of an object
affects only the reading of that field.
-/
namespace CallChain

/-- The order of fields by name. -/
def byName {α : Type} (a b : String × α) : Bool := decide (a.1 ≤ b.1)

section Fields

variable {α : Type} {fields : List (String × α)} {key : String}

theorem byName_trans (a b c : String × α) (hab : byName a b = true) (hbc : byName b c = true) :
    byName a c = true := by
  simp only [byName, decide_eq_true_eq] at *
  exact hab.trans hbc

theorem byName_total (a b : String × α) : (byName a b || byName b a) = true := by
  simp only [byName, Bool.or_eq_true, decide_eq_true_eq]
  exact le_total a.1 b.1

theorem lookup_eq_head? (key : String) (fields : List (String × α)) :
    fields.lookup key = ((fields.filter fun f => key == f.1).head?).map (·.2) := by
  induction fields with
  | nil => rfl
  | cons f fields ih =>
    rw [List.lookup_cons, List.filter_cons]
    cases hkey : key == f.1 with
    | true => rfl
    | false => simpa using ih

/-- Sorting by name leaves fields of one name in their order. -/
theorem filter_mergeSort_byName (key : String) (fields : List (String × α)) :
    (fields.mergeSort byName).filter (fun f => key == f.1) = fields.filter fun f => key == f.1 := by
  refine filter_mergeSort_of_ties byName_trans byName_total (fun a b ha hb => ?_) fields
  rw [byName, ← eq_of_beq ha, ← eq_of_beq hb]
  exact decide_eq_true le_rfl

theorem lookup_mergeSort_byName (key : String) (fields : List (String × α)) :
    (fields.mergeSort byName).lookup key = fields.lookup key := by
  rw [lookup_eq_head?, lookup_eq_head?, filter_mergeSort_byName]

theorem lookup_map_snd {β : Type} (f : α → β) (key : String) (fields : List (String × α)) :
    (fields.map fun e => (e.1, f e.2)).lookup key = (fields.lookup key).map f := by
  induction fields with
  | nil => rfl
  | cons e fields ih =>
    rw [List.map_cons, List.lookup_cons, List.lookup_cons, ih]
    cases key == e.1 <;> rfl

theorem lookup_filter_ne (key name : String) (fields : List (String × α)) :
    (fields.filter (·.1 ≠ key)).lookup name = if name = key then none else fields.lookup name := by
  rw [lookup_eq_head?, List.filter_filter]
  split
  · next h =>
    have hnone : (fields.filter fun f => name == f.1 && decide (f.1 ≠ key)) = [] := by
      refine List.filter_eq_nil_iff.mpr fun f _ hf => ?_
      simp only [Bool.and_eq_true, beq_iff_eq, decide_eq_true_eq] at hf
      exact hf.2 (hf.1.symm.trans h)
    rw [hnone]
    rfl
  · next h =>
    have hsame : (fields.filter fun f => name == f.1 && decide (f.1 ≠ key)) =
        fields.filter fun f => name == f.1 := by
      refine List.filter_congr fun f _ => ?_
      rw [Bool.eq_iff_iff]
      simp only [Bool.and_eq_true, beq_iff_eq, decide_eq_true_eq]
      refine ⟨And.left, fun hf => ⟨hf, fun hkey => h (hf.trans hkey)⟩⟩
    rw [hsame, lookup_eq_head?]

end Fields

namespace Json

mutual

/-- The value with the fields of all objects sorted by name. -/
def sorted : Json → Json
  | array items => array (sortedItems items)
  | object fields => object ((sortedFields fields).mergeSort byName)
  | j => j

def sortedItems : List Json → List Json
  | [] => []
  | item :: items => sorted item :: sortedItems items

def sortedFields : List (String × Json) → List (String × Json)
  | [] => []
  | (key, value) :: fields => (key, sorted value) :: sortedFields fields

end

/-- The values are equal up to the order of the fields in objects. -/
def SameValue (j k : Json) : Prop := j.sorted = k.sorted

theorem sortedItems_eq (items : List Json) : sortedItems items = items.map sorted := by
  induction items with
  | nil => rw [sortedItems, List.map_nil]
  | cons item items ih => rw [sortedItems, ih, List.map_cons]

theorem sortedFields_eq (fields : List (String × Json)) :
    sortedFields fields = fields.map fun f => (f.1, f.2.sorted) := by
  induction fields with
  | nil => rw [sortedFields, List.map_nil]
  | cons f fields ih => rw [sortedFields, ih, List.map_cons]

theorem sorted_array (items : List Json) : (array items).sorted = array (items.map sorted) := by
  rw [sorted, sortedItems_eq]

theorem sorted_object (fields : List (String × Json)) :
    (object fields).sorted = object ((fields.map fun f => (f.1, f.2.sorted)).mergeSort byName) := by
  rw [sorted, sortedFields_eq]

theorem field?_sorted (key : String) (fields : List (String × Json)) :
    field? ((fields.map fun f => (f.1, f.2.sorted)).mergeSort byName) key =
      (field? fields key).map sorted := by
  rw [field?, lookup_mergeSort_byName, lookup_map_snd, field?]

/-! ### Reading does not look at the order of fields -/

section Order

variable {α : Type} {read : Json → Option α}

/-- What is read from a value does not depend on the order of its fields. -/
def IgnoresOrder (read : Json → Option α) : Prop := ∀ j, read j.sorted = read j

theorem string?_ignoresOrder : IgnoresOrder string? := by
  intro j
  cases j <;> simp only [sorted, string?]

theorem word?_ignoresOrder : IgnoresOrder word? := by
  intro j
  cases j <;> simp only [sorted, word?]

theorem nullable_ignoresOrder (h : IgnoresOrder read) : IgnoresOrder (nullable read) := by
  intro j
  have hread := h j
  cases j <;> simp only [sorted, nullable] at hread ⊢ <;> rw [hread]

theorem list?_ignoresOrder (h : IgnoresOrder read) : IgnoresOrder (list? read) := by
  intro j
  cases j with
  | array items =>
    rw [sorted_array, list?, list?, List.mapM_map]
    exact congrArg (fun f => List.mapM f items) (funext h)
  | _ => simp only [sorted, list?]

theorem isRecord_sorted (n : Nat) (j : Json) : j.sorted.isRecord n = j.isRecord n := by
  cases j with
  | array items => rw [sorted_array, isRecord, isRecord, List.length_map]
  | _ => simp only [sorted, isRecord]

theorem required_sorted (h : IgnoresOrder read) (j : Json) (slot : Slot) :
    j.sorted.required slot read = j.required slot read := by
  have hread : (fun j : Json => read j.sorted) = read := funext h
  cases j with
  | array items =>
    rw [sorted_array, required, required, List.getElem?_map, Option.bind_map]
    exact congrArg _ hread
  | object fields =>
    rw [sorted_object, required, required, field?_sorted, Option.bind_map]
    exact congrArg _ hread
  | _ => simp only [sorted, required]

theorem nullableField_sorted (h : IgnoresOrder read) (j : Json) (slot : Slot) :
    j.sorted.nullableField slot read = j.nullableField slot read := by
  have hread : (fun j : Json => nullable read j.sorted) = nullable read :=
    funext (nullable_ignoresOrder h)
  cases j with
  | array items =>
    rw [sorted_array, nullableField, nullableField, List.getElem?_map, Option.bind_map]
    exact congrArg _ hread
  | object fields =>
    rw [sorted_object, nullableField, nullableField, field?_sorted]
    cases field? fields slot.name with
    | none => rfl
    | some value => exact nullable_ignoresOrder h value
  | _ => simp only [sorted, nullableField]

theorem defaulted_sorted (h : IgnoresOrder read) (j : Json) (slot : Slot) (value : α) :
    j.sorted.defaulted slot value read = j.defaulted slot value read := by
  cases j with
  | array items =>
    rw [sorted_array, defaulted, defaulted, List.getElem?_map]
    cases items[slot.index]? with
    | none => rfl
    | some given => exact h given
  | object fields =>
    rw [sorted_object, defaulted, defaulted, field?_sorted]
    cases field? fields slot.name with
    | none => rfl
    | some given => exact h given
  | _ => simp only [sorted, defaulted]

end Order

/-! ### Objects with a field taken out -/

/-- The object without the fields of a name. -/
def without (key : String) : Json → Json
  | object fields => object (fields.filter (·.1 ≠ key))
  | j => j

section Without

variable {α : Type} {read : Json → Option α} {slot : Slot} {key : String}

theorem required_without (h : slot.name ≠ key) (fields : List (String × Json)) :
    ((object fields).without key).required slot read = (object fields).required slot read := by
  rw [without, required, required, field?, field?, lookup_filter_ne, if_neg h]

theorem nullableField_without (fields : List (String × Json)) :
    ((object fields).without key).nullableField slot read =
      if slot.name = key then some none else (object fields).nullableField slot read := by
  rw [without, nullableField, nullableField, field?, field?, lookup_filter_ne]
  by_cases h : slot.name = key
  · rw [if_pos h, if_pos h]
  · rw [if_neg h, if_neg h]

theorem defaulted_without (fields : List (String × Json)) (value : α) :
    ((object fields).without key).defaulted slot value read =
      if slot.name = key then some value else (object fields).defaulted slot value read := by
  rw [without, defaulted, defaulted, field?, field?, lookup_filter_ne]
  by_cases h : slot.name = key
  · rw [if_pos h, if_pos h]
  · rw [if_neg h, if_neg h]

end Without

end Json

end CallChain
