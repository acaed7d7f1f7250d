import Mathlib
import CallChain.Text.Bytes

/-!
# Cutting a text at byte offsets

A cut at a byte offset succeeds exactly where the offset is the length of some leading part of the text,
and it gives that part and what stands behind it. Every other fact about offsets is drawn from these.
-/
namespace CallChain.Text

@[simp] theorem byteLength_nil : byteLength [] = 0 := rfl

@[simp] theorem byteLength_cons (c : Char) (cs : List Char) :
    byteLength (c :: cs) = c.utf8Size + byteLength cs := rfl

@[simp] theorem byteLength_append (as bs : List Char) :
    byteLength (as ++ bs) = byteLength as + byteLength bs := by
  induction as with
  | nil => simp
  | cons c as ih => simp [ih, Nat.add_assoc]

theorem byteLength_pos {cs : List Char} (h : cs ≠ []) : 0 < byteLength cs := by
  obtain ⟨c, cs, rfl⟩ := List.exists_cons_of_ne_nil h
  have hc := c.utf8Size_pos
  rw [byteLength_cons]
  omega

theorem byteLength_of_ascii {cs : List Char} (h : ∀ c ∈ cs, c.utf8Size = 1) :
    byteLength cs = cs.length := by
  induction cs with
  | nil => rfl
  | cons c cs ih =>
    rw [byteLength_cons, ih fun d hd => h d (List.mem_cons_of_mem c hd), h c List.mem_cons_self,
      List.length_cons]
    omega

/-- A shorter leading part of a text is a leading part of every longer one. -/
theorem leading_of_byteLength_le {as bs cs ds : List Char} (h : as ++ bs = cs ++ ds)
    (hl : byteLength as ≤ byteLength cs) : ∃ mid, cs = as ++ mid ∧ bs = mid ++ ds := by
  rcases List.append_eq_append_iff.mp h with ⟨mid, hc, hb⟩ | ⟨mid, ha, hd⟩
  · exact ⟨mid, hc, hb⟩
  · have hm : mid = [] := by
      by_contra hne
      have hp := byteLength_pos hne
      rw [ha, byteLength_append] at hl
      omega
    subst hm
    exact ⟨[], by simpa using ha.symm, by simpa using hd.symm⟩

/-- A leading part of a text is known by its length. -/
theorem dropBytes?_append (before rest : List Char) :
    dropBytes? (byteLength before) (before ++ rest) = some rest := by
  induction before with
  | nil => simp [dropBytes?]
  | cons c before ih =>
    obtain ⟨n, hn⟩ := Nat.exists_eq_add_one.mpr (byteLength_pos (List.cons_ne_nil c before))
    rw [hn, List.cons_append, dropBytes?]
    rw [byteLength_cons] at hn
    rw [if_pos (by omega), show n + 1 - c.utf8Size = byteLength before from by omega, ih]

theorem takeBytes?_append (before rest : List Char) :
    takeBytes? (byteLength before) (before ++ rest) = some before := by
  induction before with
  | nil => simp [takeBytes?]
  | cons c before ih =>
    obtain ⟨n, hn⟩ := Nat.exists_eq_add_one.mpr (byteLength_pos (List.cons_ne_nil c before))
    rw [hn, List.cons_append, takeBytes?]
    rw [byteLength_cons] at hn
    rw [if_pos (by omega), show n + 1 - c.utf8Size = byteLength before from by omega, ih]
    rfl

theorem exists_before_of_dropBytes? {n : Nat} {cs rest : List Char} (h : dropBytes? n cs = some rest) :
    ∃ before, cs = before ++ rest ∧ byteLength before = n := by
  fun_induction dropBytes? n cs with
  | case1 cs => exact ⟨[], by simpa using h, rfl⟩
  | case2 => cases h
  | case3 n c cs hle ih =>
    obtain ⟨before, rfl, hb⟩ := ih h
    exact ⟨c :: before, rfl, by rw [byteLength_cons]; omega⟩
  | case4 => cases h

theorem dropBytes?_eq_some_iff {n : Nat} {cs rest : List Char} :
    dropBytes? n cs = some rest ↔ ∃ before, cs = before ++ rest ∧ byteLength before = n := by
  constructor
  · exact exists_before_of_dropBytes?
  · rintro ⟨before, rfl, rfl⟩
    exact dropBytes?_append before rest

theorem exists_rest_of_takeBytes? {n : Nat} {cs before : List Char} (h : takeBytes? n cs = some before) :
    ∃ rest, cs = before ++ rest ∧ byteLength before = n := by
  fun_induction takeBytes? n cs generalizing before with
  | case1 cs => exact ⟨cs, by simp_all⟩
  | case2 => cases h
  | case3 n c cs hle ih =>
    obtain ⟨before, hb, rfl⟩ := Option.map_eq_some_iff.mp h
    obtain ⟨rest, rfl, hn⟩ := ih hb
    exact ⟨rest, rfl, by rw [byteLength_cons]; omega⟩
  | case4 => cases h

theorem isBoundary_iff {n : Nat} {cs : List Char} :
    isBoundary n cs = true ↔ ∃ before rest, cs = before ++ rest ∧ byteLength before = n := by
  rw [isBoundary, Option.isSome_iff_exists]
  constructor
  · rintro ⟨rest, h⟩
    obtain ⟨before, h⟩ := exists_before_of_dropBytes? h
    exact ⟨before, rest, h⟩
  · rintro ⟨before, rest, h⟩
    exact ⟨rest, dropBytes?_eq_some_iff.mpr ⟨before, h⟩⟩

theorem le_byteLength_of_isBoundary {n : Nat} {cs : List Char} (h : isBoundary n cs = true) :
    n ≤ byteLength cs := by
  obtain ⟨before, rest, rfl, rfl⟩ := isBoundary_iff.mp h
  rw [byteLength_append]
  omega

/-- What stands between two offsets is the middle of a split of the text at both. -/
theorem slice?_eq_some_iff {start stop : Nat} {cs mid : List Char} :
    slice? start stop cs = some mid ↔
      ∃ before rest, cs = before ++ (mid ++ rest) ∧ byteLength before = start ∧
        start + byteLength mid = stop := by
  unfold slice?
  constructor
  · intro h
    split at h
    · obtain ⟨tail, hd, ht⟩ := Option.bind_eq_some_iff.mp h
      obtain ⟨before, rfl, hb⟩ := exists_before_of_dropBytes? hd
      obtain ⟨rest, rfl, hm⟩ := exists_rest_of_takeBytes? ht
      exact ⟨before, rest, rfl, hb, by omega⟩
    · cases h
  · rintro ⟨before, rest, rfl, rfl, rfl⟩
    rw [if_pos (by omega), dropBytes?_append, Nat.add_sub_cancel_left]
    exact takeBytes?_append mid rest

/-! ### The bytes of a text -/

theorem size_utf8Encode (cs : List Char) : cs.utf8Encode.size = byteLength cs := by
  induction cs with
  | nil => simp
  | cons c cs ih =>
    rw [List.utf8Encode_cons, ByteArray.size_append, ih, byteLength_cons, List.utf8Encode_singleton,
      List.size_toByteArray, String.length_utf8EncodeChar]

theorem byteLength_toList (s : String) : byteLength s.toList = s.utf8ByteSize := by
  rw [← size_utf8Encode, String.utf8Encode_toList, String.size_toByteArray]

/-- The offsets at which a text can be cut are the valid positions in its bytes. -/
theorem isBoundary_toList_iff {n : Nat} {s : String} :
    isBoundary n s.toList = true ↔ String.Pos.Raw.IsValid s ⟨n⟩ := by
  rw [isBoundary_iff, String.Pos.Raw.isValid_iff_exists_append]
  constructor
  · rintro ⟨before, rest, hs, rfl⟩
    refine ⟨String.ofList before, String.ofList rest, ?_, ?_⟩
    · rw [← String.toList_inj, hs, String.toList_append, String.toList_ofList, String.toList_ofList]
    · rw [String.Pos.Raw.ext_iff, String.byteIdx_rawEndPos, ← byteLength_toList, String.toList_ofList]
  · rintro ⟨before, rest, rfl, hn⟩
    refine ⟨before.toList, rest.toList, String.toList_append, ?_⟩
    rw [byteLength_toList, ← String.byteIdx_rawEndPos, ← hn]

end CallChain.Text
