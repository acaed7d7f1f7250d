/-!
The values that a message is filled with, by name. There is one value to a name, and names are kept in
ascending order.
-/
namespace CallChain

structure Bindings where
  entries : List (String × String)
  ascending : entries.Pairwise fun a b => a.1 < b.1

namespace Bindings

def empty : Bindings := ⟨[], .nil⟩

def insertEntry (key value : String) : List (String × String) → List (String × String)
  | [] => [(key, value)]
  | (k, v) :: rest =>
    if key < k then (key, value) :: (k, v) :: rest
    else if key = k then (key, value) :: rest
    else (k, v) :: insertEntry key value rest

theorem mem_insertEntry {key value : String} {entries : List (String × String)}
    {e : String × String} (h : e ∈ insertEntry key value entries) :
    e = (key, value) ∨ e ∈ entries := by
  fun_induction insertEntry key value entries with
  | case1 => simpa using h
  | case2 => simpa using h
  | case3 v rest _ => simp at h ⊢; grind
  | case4 k v rest _ _ ih => simp at h ⊢; grind

theorem insertEntry_ascending (key value : String) {entries : List (String × String)}
    (h : entries.Pairwise fun a b => a.1 < b.1) :
    (insertEntry key value entries).Pairwise fun a b => a.1 < b.1 := by
  fun_induction insertEntry key value entries with
  | case1 => simp
  | case2 k v rest hlt =>
    refine List.pairwise_cons.mpr ⟨fun e he => ?_, h⟩
    rcases List.mem_cons.mp he with rfl | he
    · exact hlt
    · exact String.lt_trans hlt ((List.pairwise_cons.mp h).1 e he)
  | case3 v rest _ =>
    obtain ⟨first, rest⟩ := List.pairwise_cons.mp h
    exact List.pairwise_cons.mpr ⟨first, rest⟩
  | case4 k v rest hlt hne ih =>
    obtain ⟨first, hrest⟩ := List.pairwise_cons.mp h
    refine List.pairwise_cons.mpr ⟨fun e he => ?_, ih hrest⟩
    rcases mem_insertEntry he with rfl | he
    · have hle := String.not_lt.mp hlt
      exact Decidable.byContradiction fun hn => hne (String.le_antisymm (String.not_lt.mp hn) hle)
    · exact first e he

/-- Sets the value of a name. -/
def insert (b : Bindings) (key value : String) : Bindings :=
  ⟨insertEntry key value b.entries, insertEntry_ascending key value b.ascending⟩

def get? (b : Bindings) (key : String) : Option String := b.entries.lookup key

theorem lookup_insertEntry (key value name : String) (entries : List (String × String)) :
    (insertEntry key value entries).lookup name =
      if name = key then some value else entries.lookup name := by
  by_cases h : name = key
  · subst h
    rw [if_pos rfl]
    fun_induction insertEntry name value entries with
    | case1 => simp
    | case2 => simp
    | case3 => simp
    | case4 k v rest _ hne ih => simp only [List.lookup_cons, beq_eq_false_iff_ne.mpr hne, ih]
  · rw [if_neg h]
    have hne := beq_eq_false_iff_ne.mpr h
    fun_induction insertEntry key value entries with
    | case1 => simp only [List.lookup_cons, hne, List.lookup_nil]
    | case2 => simp only [List.lookup_cons, hne]
    | case3 => simp only [List.lookup_cons, hne]
    | case4 k v rest _ _ ih => simp only [List.lookup_cons, ih]

theorem get?_insert (b : Bindings) (key value name : String) :
    (b.insert key value).get? name = if name = key then some value else b.get? name :=
  lookup_insertEntry key value name b.entries

def isEmpty (b : Bindings) : Bool := b.entries.isEmpty

def ofList (entries : List (String × String)) : Bindings :=
  entries.foldl (fun b (key, value) => b.insert key value) empty

end Bindings

end CallChain
