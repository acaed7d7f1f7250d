import CallChain.Proofs.Json

/-!
# Reports survive their JSON form

A report whose numbers are machine words is read back from its JSON value, in whatever order the fields of
the objects stand, so that different reports have different values. What is absent may be `null` or left
out: a field that is taken out is read as absent, and all others as before.
-/
namespace CallChain

/-! ### Bindings -/

namespace Bindings

theorem eq_of_entries {a b : Bindings} (h : a.entries = b.entries) : a = b := by
  cases a
  cases b
  subst h
  rfl

theorem insertEntry_of_lt {key : String} (value : String) {entries : List (String × String)}
    (h : ∀ e ∈ entries, e.1 < key) : insertEntry key value entries = entries ++ [(key, value)] := by
  induction entries with
  | nil => rfl
  | cons e entries ih =>
    obtain ⟨hfirst, hrest⟩ := List.forall_mem_cons.mp h
    rw [insertEntry, if_neg hfirst.not_gt, if_neg hfirst.ne', ih hrest, List.cons_append]

theorem ofList_concat (entries : List (String × String)) (e : String × String) :
    ofList (entries ++ [e]) = (ofList entries).insert e.1 e.2 := by
  rw [ofList, List.foldl_append]
  rfl

/-- Names in ascending order are put in one behind the other. -/
theorem entries_ofList {entries : List (String × String)} (h : entries.Pairwise fun a b => a.1 < b.1) :
    (ofList entries).entries = entries := by
  induction entries using List.reverseRecOn with
  | nil => rfl
  | append_singleton entries e ih =>
    obtain ⟨hrest, -, hlast⟩ := List.pairwise_append.mp h
    rw [ofList_concat]
    change insertEntry e.1 e.2 (ofList entries).entries = entries ++ [e]
    rw [ih hrest]
    exact insertEntry_of_lt e.2 fun d hd => hlast d hd e (List.mem_singleton_self e)

theorem ofList_entries (b : Bindings) : ofList b.entries = b :=
  eq_of_entries (entries_ofList b.ascending)

/-- Of several values for one name the last one counts. -/
theorem get?_ofList (entries : List (String × String)) (name : String) :
    (ofList entries).get? name = entries.reverse.lookup name := by
  induction entries using List.reverseRecOn with
  | nil => rfl
  | append_singleton entries e ih =>
    rw [ofList_concat, get?_insert, ih, List.reverse_append, List.reverse_singleton,
      List.singleton_append, List.lookup_cons]
    by_cases h : name = e.1
    · rw [if_pos h, beq_iff_eq.mpr h]
    · rw [if_neg h, beq_eq_false_iff_ne.mpr h]

theorem lookup_eq_none_of_lt {name : String} {entries : List (String × String)}
    (h : ∀ e ∈ entries, name < e.1) : entries.lookup name = none := by
  rw [List.lookup_eq_none_iff]
  intro e he
  exact bne_iff_ne.mpr (h e he).ne

/-- No name that is found comes before the first one. -/
theorem first_le_of_lookup {name v : String} {e : String × String} {entries : List (String × String)}
    (hascending : (e :: entries).Pairwise fun a b => a.1 < b.1)
    (h : (e :: entries).lookup name = some v) : e.1 ≤ name := by
  by_contra hlt
  have hlt := not_le.mp hlt
  have hlater := (List.pairwise_cons.mp hascending).1
  have hnone : (e :: entries).lookup name = none :=
    lookup_eq_none_of_lt (List.forall_mem_cons.mpr ⟨hlt, fun d hd => hlt.trans (hlater d hd)⟩)
  rw [hnone] at h
  cases h

theorem entries_eq_of_lookup {as bs : List (String × String)}
    (ha : as.Pairwise fun a b => a.1 < b.1) (hb : bs.Pairwise fun a b => a.1 < b.1)
    (h : ∀ name, as.lookup name = bs.lookup name) : as = bs := by
  induction as generalizing bs with
  | nil =>
    cases bs with
    | nil => rfl
    | cons b bs =>
      have hfirst := h b.1
      rw [List.lookup_cons_self] at hfirst
      cases hfirst
  | cons a as ih =>
    cases bs with
    | nil =>
      have hfirst := h a.1
      rw [List.lookup_cons_self] at hfirst
      cases hfirst
    | cons b bs =>
      obtain ⟨hafirst, harest⟩ := List.pairwise_cons.mp ha
      obtain ⟨hbfirst, hbrest⟩ := List.pairwise_cons.mp hb
      have hname : a.1 = b.1 := by
        refine le_antisymm (first_le_of_lookup ha (v := b.2) ?_) (first_le_of_lookup hb (v := a.2) ?_)
        · rw [h, List.lookup_cons_self]
        · rw [← h, List.lookup_cons_self]
      have hvalue : a.2 = b.2 := by
        have hfirst := h a.1
        rw [List.lookup_cons_self, hname, List.lookup_cons_self] at hfirst
        exact Option.some.inj hfirst
      have hrest : ∀ name, as.lookup name = bs.lookup name := by
        intro name
        by_cases hn : name = a.1
        · rw [hn, lookup_eq_none_of_lt hafirst, hname, lookup_eq_none_of_lt hbfirst]
        · have hboth := h name
          rwa [List.lookup_cons, List.lookup_cons, ← hname, beq_eq_false_iff_ne.mpr hn] at hboth
      rw [Prod.ext hname hvalue, ih harest hbrest hrest]

theorem ext_get? {a b : Bindings} (h : ∀ name, a.get? name = b.get? name) : a = b :=
  eq_of_entries (entries_eq_of_lookup a.ascending b.ascending h)

theorem ofList_mergeSort (entries : List (String × String)) :
    ofList (entries.mergeSort byName) = ofList entries := by
  refine ext_get? fun name => ?_
  rw [get?_ofList, get?_ofList, lookup_eq_head?, lookup_eq_head?, List.filter_reverse,
    List.filter_reverse, filter_mergeSort_byName]

theorem isEmpty_iff (b : Bindings) : b.isEmpty = true ↔ b = .empty := by
  rw [isEmpty, List.isEmpty_iff]
  exact ⟨fun h => eq_of_entries h, fun h => congrArg entries h⟩

/-- The names and values of fields that are all strings. -/
def entriesOf (fields : List (String × Json)) : Option (List (String × String)) :=
  fields.mapM fun (field : String × Json) => field.2.string?.map (field.1, ·)

/-- An entry as a field. -/
def fieldOf (e : String × String) : String × Json := (e.1, .string e.2)

theorem entriesOf_map_fieldOf (entries : List (String × String)) :
    entriesOf (entries.map fieldOf) = some entries := by
  induction entries with
  | nil => rfl
  | cons e entries ih =>
    rw [entriesOf] at ih
    rw [entriesOf, List.map_cons, List.mapM_cons, ih]
    rfl

theorem entriesOf_eq_none {fields : List (String × Json)} {field : String × Json}
    (hmem : field ∈ fields) (h : field.2.string? = none) : entriesOf fields = none := by
  induction fields with
  | nil => cases hmem
  | cons f fields ih =>
    rw [entriesOf, List.mapM_cons]
    rcases List.mem_cons.mp hmem with rfl | hmem
    · rw [h]
      rfl
    · have hrest := ih hmem
      rw [entriesOf] at hrest
      rw [hrest]
      cases f.2.string? <;> rfl

/-- Fields are all strings, or one of them is none. -/
theorem fields_cases (fields : List (String × Json)) :
    (∃ entries : List (String × String), fields = entries.map fieldOf) ∨
      ∃ field ∈ fields, field.2.string? = none := by
  induction fields with
  | nil => exact Or.inl ⟨[], rfl⟩
  | cons f fields ih =>
    obtain ⟨key, value⟩ := f
    rcases ih with ⟨entries, rfl⟩ | ⟨field, hmem, hnone⟩
    · cases value with
      | string s => exact Or.inl ⟨(key, s) :: entries, rfl⟩
      | _ => exact Or.inr ⟨_, List.mem_cons_self, rfl⟩
    · exact Or.inr ⟨field, List.mem_cons_of_mem _ hmem, hnone⟩

theorem entriesOf_mergeSort (fields : List (String × Json)) :
    entriesOf (fields.mergeSort byName) = (entriesOf fields).map (·.mergeSort byName) := by
  rcases fields_cases fields with ⟨entries, rfl⟩ | ⟨field, hmem, hnone⟩
  · have hsort : (entries.mergeSort byName).map fieldOf = (entries.map fieldOf).mergeSort byName :=
      List.map_mergeSort fun _ _ _ _ => rfl
    rw [← hsort, entriesOf_map_fieldOf, entriesOf_map_fieldOf, Option.map_some]
  · rw [entriesOf_eq_none hmem hnone, entriesOf_eq_none (List.mem_mergeSort.mpr hmem) hnone,
      Option.map_none]

theorem ofJson?_object (fields : List (String × Json)) :
    ofJson? (.object fields) = (entriesOf fields).map ofList := rfl

theorem ofJson?_toJson (b : Bindings) : ofJson? b.toJson = some b := by
  rw [toJson, ofJson?_object]
  change (entriesOf (b.entries.map fieldOf)).map ofList = some b
  rw [entriesOf_map_fieldOf, Option.map_some, ofList_entries]

theorem ofJson?_ignoresOrder : Json.IgnoresOrder ofJson? := by
  intro j
  cases j with
  | object fields =>
    have hstrings : entriesOf (fields.map fun f => (f.1, f.2.sorted)) = entriesOf fields := by
      rw [entriesOf, entriesOf, List.mapM_map]
      refine congrArg (fun f => List.mapM f fields) (funext fun f => ?_)
      exact congrArg (Option.map _) (Json.string?_ignoresOrder f.2)
    rw [Json.sorted_object, ofJson?_object, ofJson?_object, entriesOf_mergeSort, hstrings, Option.map_map]
    exact congrArg (fun f => (entriesOf fields).map f) (funext ofList_mergeSort)
  | _ => simp only [Json.sorted, ofJson?]

end Bindings

/-! ### Values that are read back -/

namespace Json

theorem word?_natural {n : Nat} (h : n < Word.bound) : (natural n).word? = some n := by
  change (if n < Word.bound then some n else none) = some n
  rw [if_pos h]

theorem nullable_encoded {α : Type} {read : Json → Option α} {encode : α → Json} {value : Option α}
    (hread : ∀ a, value = some a → read (encode a) = some a) (hnull : ∀ a, encode a ≠ null) :
    nullable read ((value.map encode).getD null) = some value := by
  cases value with
  | none => rfl
  | some a =>
    rw [Option.map_some, Option.getD_some, nullable, hread a rfl, Option.map_some]
    exact hnull a

theorem list?_encoded {α : Type} {read : Json → Option α} {encode : α → Json} {values : List α}
    (h : ∀ a ∈ values, read (encode a) = some a) : list? read (array (values.map encode)) = some values := by
  induction values with
  | nil => rfl
  | cons a values ih =>
    obtain ⟨hfirst, hrest⟩ := List.forall_mem_cons.mp h
    have htail := ih hrest
    rw [list?] at htail
    rw [list?, List.map_cons, List.mapM_cons, hfirst, htail]
    rfl

end Json

/-- The numbers of a place are machine words. -/
structure Location.FitsWords (l : Location) : Prop where
  line : l.line < Word.bound
  column : l.column < Word.bound
  offset : l.offset < Word.bound
  length : l.length < Word.bound

/-- The numbers of all places that a finding names are machine words. -/
structure Violation.FitsWords (v : Violation) : Prop where
  location : v.location.FitsWords
  replacement : ∀ r, v.replacement? = some r → r.location.FitsWords
  labels : ∀ label ∈ v.labels, label.location.FitsWords

structure Report.FitsWords (r : Report) : Prop where
  violations : ∀ v ∈ r.violations, v.FitsWords
  filesChecked : r.filesChecked < Word.bound
  filesFixed : r.filesFixed < Word.bound

namespace Location

theorem ofJson?_toJson {l : Location} (h : l.FitsWords) : ofJson? l.toJson = some l := by
  simp [ofJson?, toJson, Json.isRecord, Json.required, Json.field?, List.lookup, Json.string?,
    Json.word?_natural h.line, Json.word?_natural h.column, Json.word?_natural h.offset,
    Json.word?_natural h.length]

theorem ofJson?_ignoresOrder : Json.IgnoresOrder ofJson? := by
  intro j
  simp only [ofJson?, Json.isRecord_sorted, Json.required_sorted Json.string?_ignoresOrder,
    Json.required_sorted Json.word?_ignoresOrder]

end Location

namespace Replacement

theorem ofJson?_toJson {r : Replacement} (h : r.location.FitsWords) : ofJson? r.toJson = some r := by
  simp [ofJson?, toJson, Json.isRecord, Json.required, Json.field?, List.lookup, Json.string?,
    Location.ofJson?_toJson h]

theorem ofJson?_ignoresOrder : Json.IgnoresOrder ofJson? := by
  intro j
  simp only [ofJson?, Json.isRecord_sorted, Json.required_sorted Json.string?_ignoresOrder,
    Json.required_sorted Location.ofJson?_ignoresOrder]

end Replacement

namespace Remark

theorem ofJson?_toJson {r : Remark} (h : r.location.FitsWords) : ofJson? r.toJson = some r := by
  simp [ofJson?, toJson, Json.isRecord, Json.required, Json.field?, List.lookup, Json.string?,
    Location.ofJson?_toJson h]

theorem ofJson?_ignoresOrder : Json.IgnoresOrder ofJson? := by
  intro j
  simp only [ofJson?, Json.isRecord_sorted, Json.required_sorted Json.string?_ignoresOrder,
    Json.required_sorted Location.ofJson?_ignoresOrder]

end Remark

namespace Suggestion

theorem ofJson?_toJson {s : Suggestion} (h : ∀ r, s.replacement = some r → r.location.FitsWords) :
    ofJson? s.toJson = some s := by
  have hreplacement : Json.nullable Replacement.ofJson?
      ((s.replacement.map Replacement.toJson).getD .null) = some s.replacement :=
    Json.nullable_encoded (fun r hr => Replacement.ofJson?_toJson (h r hr)) fun _ => nofun
  simp [ofJson?, toJson, Json.isRecord, Json.required, Json.nullableField, Json.field?, List.lookup,
    Json.string?, hreplacement]

theorem ofJson?_without_replacement (s : Suggestion) :
    ofJson? (s.toJson.without "replacement") = some { s with replacement := none } := by
  simp [ofJson?, toJson, Json.without, Json.isRecord, Json.required, Json.nullableField, Json.field?,
    List.lookup, Json.string?]

theorem ofJson?_ignoresOrder : Json.IgnoresOrder ofJson? := by
  intro j
  simp only [ofJson?, Json.isRecord_sorted, Json.required_sorted Json.string?_ignoresOrder,
    Json.nullableField_sorted Replacement.ofJson?_ignoresOrder]

end Suggestion

namespace Severity

theorem ofJson?_object_of_length {fields : List (String × Json)} (h : 2 ≤ fields.length) :
    ofJson? (.object fields) = none := by
  match fields, h with
  | (_, value) :: _ :: _, _ => cases value <;> rfl

theorem ofJson?_ignoresOrder : Json.IgnoresOrder ofJson? := by
  intro j
  cases j with
  | object fields =>
    rw [Json.sorted_object]
    match fields with
    | [] => rw [List.map_nil, List.mergeSort_nil]
    | [(name, value)] =>
      rw [List.map_singleton, List.mergeSort_singleton]
      cases value <;> simp only [Json.sorted, ofJson?]
    | f :: g :: fields =>
      rw [ofJson?_object_of_length, ofJson?_object_of_length]
      · simp
      · simp
  | _ => simp only [Json.sorted, ofJson?]

end Severity

namespace Violation

variable {v : Violation}

/-- Each field of the finding is read from the value. -/
structure StandsIn (v : Violation) (j : Json) : Prop where
  record : j.isRecord 9 = true
  code : j.required ⟨"code", 0⟩ Json.string? = some v.code
  rule : j.required ⟨"rule", 1⟩ Json.string? = some v.rule
  severity : j.required ⟨"severity", 2⟩ Severity.ofJson? = some v.severity
  location : j.required ⟨"location", 3⟩ Location.ofJson? = some v.location
  message : j.required ⟨"message", 4⟩ Json.string? = some v.message
  suggestion : j.nullableField ⟨"suggestion", 5⟩ Suggestion.ofJson? = some v.suggestion
  labels : j.required ⟨"labels", 6⟩ (Json.list? Remark.ofJson?) = some v.labels
  messageId : j.defaulted ⟨"message_id", 7⟩ none (Json.nullable Json.string?) = some v.messageId
  data : j.defaulted ⟨"data", 8⟩ .empty Bindings.ofJson? = some v.data

theorem StandsIn.ofJson? {j : Json} (h : v.StandsIn j) : Violation.ofJson? j = some v := by
  rw [Violation.ofJson?]
  simp [h.record, h.code, h.rule, h.severity, h.location, h.message, h.suggestion, h.labels,
    h.messageId, h.data]

/-- The fields of the object that a finding is written as. -/
def jsonFields (v : Violation) : List (String × Json) :=
  [("code", .string v.code), ("rule", .string v.rule), ("severity", .string v.severity.name),
    ("location", v.location.toJson), ("message", .string v.message),
    ("suggestion", (v.suggestion.map Suggestion.toJson).getD .null),
    ("labels", .array (v.labels.map Remark.toJson))]
    ++ (v.messageId.map fun id => ("message_id", Json.string id)).toList
    ++ if v.data.isEmpty then [] else [("data", v.data.toJson)]

theorem toJson_eq (v : Violation) : v.toJson = .object v.jsonFields := rfl

theorem field?_message_id (v : Violation) :
    Json.field? v.jsonFields "message_id" = v.messageId.map .string := by
  rw [Json.field?, jsonFields, List.lookup_append, List.lookup_append]
  cases v.messageId <;> cases v.data.isEmpty <;> simp [List.lookup]

theorem field?_data (v : Violation) :
    Json.field? v.jsonFields "data" = if v.data.isEmpty then none else some v.data.toJson := by
  rw [Json.field?, jsonFields, List.lookup_append, List.lookup_append]
  cases v.messageId <;> cases v.data.isEmpty <;> simp [List.lookup]

theorem standsIn_toJson (h : v.FitsWords) : v.StandsIn v.toJson := by
  have hsuggestion : Json.nullable Suggestion.ofJson? ((v.suggestion.map Suggestion.toJson).getD .null) =
      some v.suggestion := by
    refine Json.nullable_encoded (fun s hs => Suggestion.ofJson?_toJson fun r hr => ?_) fun _ => nofun
    exact h.replacement r (by rw [replacement?, hs, Option.bind_some, hr])
  have hlabels : Json.list? Remark.ofJson? (.array (v.labels.map Remark.toJson)) = some v.labels :=
    Json.list?_encoded fun r hr => Remark.ofJson?_toJson (h.labels r hr)
  constructor
  · rfl
  · rfl
  · rfl
  · exact Severity.ofName?_name v.severity
  · exact Location.ofJson?_toJson h.location
  · rfl
  · exact hsuggestion
  · exact hlabels
  · rw [toJson_eq, Json.defaulted, field?_message_id]
    cases v.messageId <;> rfl
  · rw [toJson_eq, Json.defaulted, field?_data]
    cases hempty : v.data.isEmpty with
    | true => exact congrArg some ((Bindings.isEmpty_iff v.data).mp hempty).symm
    | false => exact Bindings.ofJson?_toJson v.data

/-- The fields of a finding that may be left out. -/
def optionalFields : List String := ["suggestion", "message_id", "data"]

/-- The finding without what stands in an optional field. -/
def leaveOut (key : String) (v : Violation) : Violation :=
  { v with
    suggestion := if "suggestion" = key then none else v.suggestion
    messageId := if "message_id" = key then none else v.messageId
    data := if "data" = key then .empty else v.data }

/-- Where an optional field is taken out, all others are read as before. -/
theorem StandsIn.without {fields : List (String × Json)} (h : v.StandsIn (.object fields)) {key : String}
    (hkey : key ∈ optionalFields) : (v.leaveOut key).StandsIn ((Json.object fields).without key) := by
  have hne : ∀ name ∉ optionalFields, name ≠ key := fun name hname heq => hname (heq ▸ hkey)
  constructor
  · rfl
  · exact (Json.required_without (hne "code" (by decide)) fields).trans h.code
  · exact (Json.required_without (hne "rule" (by decide)) fields).trans h.rule
  · exact (Json.required_without (hne "severity" (by decide)) fields).trans h.severity
  · exact (Json.required_without (hne "location" (by decide)) fields).trans h.location
  · exact (Json.required_without (hne "message" (by decide)) fields).trans h.message
  · rw [Json.nullableField_without, h.suggestion, leaveOut]
    split <;> rfl
  · exact (Json.required_without (hne "labels" (by decide)) fields).trans h.labels
  · rw [Json.defaulted_without, h.messageId, leaveOut]
    split <;> rfl
  · rw [Json.defaulted_without, h.data, leaveOut]
    split <;> rfl

theorem StandsIn.withoutAll {fields : List (String × Json)} (h : v.StandsIn (.object fields))
    {keys : List String} (hkeys : keys ⊆ optionalFields) :
    StandsIn (keys.foldl (fun v key => v.leaveOut key) v)
      (keys.foldl (fun j key => j.without key) (.object fields)) := by
  induction keys generalizing v fields with
  | nil => exact h
  | cons key keys ih =>
    obtain ⟨hkey, hrest⟩ := List.cons_subset.mp hkeys
    exact ih (h.without hkey) hrest

theorem ofJson?_ignoresOrder : Json.IgnoresOrder Violation.ofJson? := by
  intro j
  simp only [Violation.ofJson?, Json.isRecord_sorted, Json.required_sorted Json.string?_ignoresOrder,
    Json.required_sorted Severity.ofJson?_ignoresOrder, Json.required_sorted Location.ofJson?_ignoresOrder,
    Json.nullableField_sorted Suggestion.ofJson?_ignoresOrder,
    Json.required_sorted (Json.list?_ignoresOrder Remark.ofJson?_ignoresOrder),
    Json.defaulted_sorted (Json.nullable_ignoresOrder Json.string?_ignoresOrder),
    Json.defaulted_sorted Bindings.ofJson?_ignoresOrder]

/-- How absent parts of a finding are written and read. The template name and the data of its message are
left out; whatever may be absent is read as absent where its field is left out. -/
structure MayOmit (v : Violation) : Prop where
  written : ∃ fields, v.toJson = .object fields ∧
    (Json.field? fields "message_id" = none ↔ v.messageId = none) ∧
    (Json.field? fields "data" = none ↔ v.data = .empty)
  optional : ∀ keys ⊆ optionalFields,
    Violation.ofJson? (keys.foldl (fun j key => j.without key) v.toJson) =
      some (keys.foldl (fun v key => v.leaveOut key) v)
  replacement : ∀ s, v.suggestion = some s →
    Suggestion.ofJson? (s.toJson.without "replacement") = some { s with replacement := none }

theorem mayOmit (h : v.FitsWords) : v.MayOmit where
  written := by
    refine ⟨v.jsonFields, toJson_eq v, ?_, ?_⟩
    · rw [field?_message_id, Option.map_eq_none_iff]
    · rw [field?_data, ← Bindings.isEmpty_iff]
      cases v.data.isEmpty <;> simp
  optional := fun _ hkeys => ((standsIn_toJson h).withoutAll hkeys).ofJson?
  replacement := fun s _ => s.ofJson?_without_replacement

end Violation

namespace Report

/-- Each field of the report is read from the value. -/
structure StandsIn (r : Report) (j : Json) : Prop where
  record : j.isRecord 3 = true
  violations : j.required ⟨"violations", 0⟩ (Json.list? Violation.ofJson?) = some r.violations
  filesChecked : j.required ⟨"files_checked", 1⟩ Json.word? = some r.filesChecked
  filesFixed : j.defaulted ⟨"files_fixed", 2⟩ 0 Json.word? = some r.filesFixed

theorem StandsIn.ofJson? {r : Report} {j : Json} (h : r.StandsIn j) : Report.ofJson? j = some r := by
  rw [Report.ofJson?]
  simp [h.record, h.violations, h.filesChecked, h.filesFixed]

theorem standsIn_toJson {r : Report} (h : r.FitsWords) : r.StandsIn r.toJson where
  record := rfl
  violations :=
    Json.list?_encoded fun v hv => (Violation.standsIn_toJson (h.violations v hv)).ofJson?
  filesChecked := Json.word?_natural h.filesChecked
  filesFixed := Json.word?_natural h.filesFixed

theorem StandsIn.without_files_fixed {r : Report} {fields : List (String × Json)}
    (h : r.StandsIn (.object fields)) :
    StandsIn { r with filesFixed := 0 } ((Json.object fields).without "files_fixed") where
  record := rfl
  violations := (Json.required_without (by decide) fields).trans h.violations
  filesChecked := (Json.required_without (by decide) fields).trans h.filesChecked
  filesFixed := by rw [Json.defaulted_without, if_pos rfl]

theorem ofJson?_ignoresOrder : Json.IgnoresOrder Report.ofJson? := by
  intro j
  simp only [Report.ofJson?, Json.isRecord_sorted,
    Json.required_sorted (Json.list?_ignoresOrder Violation.ofJson?_ignoresOrder),
    Json.required_sorted Json.word?_ignoresOrder, Json.defaulted_sorted Json.word?_ignoresOrder]

theorem ofJson?_of_sameValue {r : Report} (h : r.FitsWords) {j : Json} (hj : j.SameValue r.toJson) :
    Report.ofJson? j = some r := by
  have hsorted : j.sorted = r.toJson.sorted := hj
  rw [← ofJson?_ignoresOrder j, hsorted, ofJson?_ignoresOrder]
  exact (standsIn_toJson h).ofJson?

/-- A report is read back from its JSON value, and no other report has that value. What may be absent is
read as absent where it is left out. -/
theorem json_lossless (r : Report) (h : r.FitsWords) :
    Report.ofJson? r.toJson = some r ∧
      (∀ j : Json, j.SameValue r.toJson → Report.ofJson? j = some r) ∧
      (∀ r' : Report, r'.FitsWords → r'.toJson.SameValue r.toJson → r' = r) ∧
      Report.ofJson? (r.toJson.without "files_fixed") = some { r with filesFixed := 0 } ∧
      ∀ v ∈ r.violations, v.MayOmit := by
  refine ⟨(standsIn_toJson h).ofJson?, fun j => ofJson?_of_sameValue h, fun r' h' hsame => ?_,
    (standsIn_toJson h).without_files_fixed.ofJson?, fun v hv => Violation.mayOmit (h.violations v hv)⟩
  exact Option.some.inj ((standsIn_toJson h').ofJson?.symm.trans (ofJson?_of_sameValue h hsame))

/-- A report with one finding that has all parts, at the largest offset, and one that has none. -/
def fullAndBare : Report where
  violations :=
    let place : Location := ⟨⟨"src/ä.js"⟩, 1, 2, 18446744073709551615, 0⟩
    let bare := Violation.make "CL001" "method-chaining" .info place "\"quoted\""
    [(bare.withMessageId "expected").withData "callText" "b()"
        |>.withData "" "" |>.withLabel ⟨place, "chain"⟩ |>.withSuggestion ⟨"break", some ⟨place, "\n"⟩⟩,
      bare]
  filesChecked := 2
  filesFixed := 0

theorem fullAndBare_json_lossless : fullAndBare.FitsWords ∧
    Report.ofJson? fullAndBare.toJson = some fullAndBare ∧
      (∀ j : Json, j.SameValue fullAndBare.toJson → Report.ofJson? j = some fullAndBare) ∧
      (∀ r : Report, r.FitsWords → r.toJson.SameValue fullAndBare.toJson → r = fullAndBare) ∧
      Report.ofJson? (fullAndBare.toJson.without "files_fixed") = some fullAndBare ∧
      ∀ v ∈ fullAndBare.violations, v.MayOmit := by
  have hplace : Location.FitsWords ⟨⟨"src/ä.js"⟩, 1, 2, 18446744073709551615, 0⟩ :=
    ⟨by decide, by decide, by decide, by decide⟩
  have hwords : fullAndBare.FitsWords := by
    refine ⟨fun v hv => ?_, by decide, by decide⟩
    rcases List.mem_cons.mp hv with rfl | hv
    · refine ⟨hplace, ?_, ?_⟩
      · rintro r ⟨⟩
        exact hplace
      · intro label hlabel
        obtain rfl := List.mem_singleton.mp hlabel
        exact hplace
    · obtain rfl := List.mem_singleton.mp hv
      exact ⟨hplace, nofun, nofun⟩
  exact ⟨hwords, json_lossless fullAndBare hwords⟩

end Report

end CallChain
