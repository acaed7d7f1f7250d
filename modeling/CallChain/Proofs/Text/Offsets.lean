import CallChain.Proofs.Text.Lines

/-!
# The line that a byte stands on

A line of a text is what stands between two line feeds. `StandsOn` says which line a byte belongs to, by
the bytes before and behind that line and not by its number; a byte inside a character belongs to one as
well. Counting line feeds gives that line's number, and the text split into lines has it at that number.
-/
namespace CallChain.Text

/-- Number of the line of byte `o`: one more than the line feeds among the bytes before it. -/
def lineOfByte (o : Nat) (s : String) : Nat :=
  (s.toByteArray.data.toList.take o).count ('\n'.toUInt8) + 1

/-- Lines, each with the line feed that ends it. -/
def closedLines (above : List (List Char)) : List Char := above.flatMap (· ++ ['\n'])

/-- Byte `o` of the text stands on `line`, or is the line feed that ends it. The lines `above` come before
it, and behind it comes `rest`, which is empty or begins with that line feed. -/
structure StandsOn (o : Nat) (cs : List Char) (above : List (List Char)) (line rest : List Char) :
    Prop where
  text : cs = closedLines above ++ (line ++ rest)
  abovePlain : ∀ l ∈ above, '\n' ∉ l
  plain : '\n' ∉ line
  closed : rest = [] ∨ ∃ r, rest = '\n' :: r
  start : byteLength (closedLines above) ≤ o
  stop : o ≤ byteLength (closedLines above) + byteLength line
  inside : o < byteLength cs

/-- A line without the carriage return at its end. -/
def dropReturn (line : List Char) : List Char :=
  if line.getLast? = some '\r' then line.dropLast else line

theorem closedLines_cons (l : List Char) (above : List (List Char)) :
    closedLines (l :: above) = l ++ '\n' :: closedLines above := by
  rw [closedLines, List.flatMap_cons, List.append_assoc, List.singleton_append, closedLines]

theorem closeLine_reverse (line : List Char) : closeLine line.reverse = dropReturn line := by
  cases line using List.reverseRecOn with
  | nil => rfl
  | append_singleton line c =>
    rw [List.reverse_append, List.reverse_singleton, List.singleton_append, dropReturn,
      List.getLast?_concat, List.dropLast_concat]
    unfold closeLine
    split
    · next heq =>
      obtain ⟨rfl, rfl⟩ := List.cons.inj heq
      rw [if_pos rfl, List.reverse_reverse]
    · next hother =>
      have hc : c ≠ '\r' := fun hc => hother _ (by rw [hc])
      rw [if_neg fun h => hc (Option.some.inj h), List.reverse_cons, List.reverse_reverse]

/-! ### Every byte stands on a line -/

theorem standsOn_below {l cs : List Char} {o : Nat} {above : List (List Char)} {line rest : List Char}
    (hl : '\n' ∉ l) (h : StandsOn o cs above line rest) :
    StandsOn (byteLength (l ++ ['\n']) + o) (l ++ '\n' :: cs) (l :: above) line rest := by
  have hstart := h.start
  have hstop := h.stop
  have hinside := h.inside
  refine ⟨?_, List.forall_mem_cons.mpr ⟨hl, h.abovePlain⟩, h.plain, h.closed, ?_, ?_, ?_⟩
  · rw [h.text, closedLines_cons, List.append_assoc, List.cons_append]
  all_goals
    simp only [closedLines_cons, byteLength_append, byteLength_cons, byteLength_nil] at *
    omega

theorem exists_standsOn {o : Nat} {cs : List Char} (h : o < byteLength cs) :
    ∃ above line rest, StandsOn o cs above line rest := by
  by_cases hfeed : '\n' ∈ cs
  · obtain ⟨line, tail, rfl, hl⟩ := List.eq_append_cons_of_mem hfeed
    by_cases ho : o ≤ byteLength line
    · exact ⟨[], line, '\n' :: tail, ⟨rfl, by simp, hl, Or.inr ⟨tail, rfl⟩, Nat.zero_le o,
        by simpa [closedLines] using ho, h⟩⟩
    · have hbytes : byteLength (line ++ ['\n']) ≤ o := by
        rw [byteLength_append, byteLength_cons, byteLength_nil, show '\n'.utf8Size = 1 from rfl]
        omega
      obtain ⟨o, rfl⟩ := Nat.exists_eq_add_of_le hbytes
      have hshorter : tail.length < (line ++ '\n' :: tail).length := by
        rw [List.length_append, List.length_cons]
        omega
      have hinside : o < byteLength tail := by
        simp only [byteLength_append, byteLength_cons, byteLength_nil] at h
        omega
      obtain ⟨above, shown, rest, hstands⟩ := exists_standsOn hinside
      exact ⟨line :: above, shown, rest, standsOn_below hl hstands⟩
  · refine ⟨[], cs, [], ⟨by simp [closedLines], by simp, hfeed, Or.inl rfl, Nat.zero_le o, ?_, h⟩⟩
    simpa [closedLines] using h.le
  termination_by cs.length

/-! ### Its number and its place among the lines -/

theorem feed_ne_ofNat {n : Nat} (hn : n < 256) (h : n ≠ 10) : '\n'.toUInt8 ≠ UInt8.ofNat n := by
  intro heq
  have hnat := congrArg UInt8.toNat heq
  rw [UInt8.toNat_ofNat_of_lt' hn] at hnat
  exact h hnat.symm

/-- A line feed is no part of another character. -/
theorem feed_not_mem_utf8EncodeChar {c : Char} (hc : c ≠ '\n') :
    '\n'.toUInt8 ∉ String.utf8EncodeChar c := by
  have hval : c.val.toNat ≠ 10 := fun h => hc (Char.toNat_inj.mp h)
  unfold String.utf8EncodeChar
  dsimp only
  split
  · rw [List.mem_singleton]
    exact feed_ne_ofNat (by omega) hval
  -- All bytes of a longer character are above those of ASCII.
  · split
    · simp only [List.mem_cons, List.not_mem_nil, or_false, not_or]
      exact ⟨feed_ne_ofNat (by omega) (by omega), feed_ne_ofNat (by omega) (by omega)⟩
    · split
      · simp only [List.mem_cons, List.not_mem_nil, or_false, not_or]
        exact ⟨feed_ne_ofNat (by omega) (by omega), feed_ne_ofNat (by omega) (by omega),
          feed_ne_ofNat (by omega) (by omega)⟩
      · simp only [List.mem_cons, List.not_mem_nil, or_false, not_or]
        exact ⟨feed_ne_ofNat (by omega) (by omega), feed_ne_ofNat (by omega) (by omega),
          feed_ne_ofNat (by omega) (by omega), feed_ne_ofNat (by omega) (by omega)⟩

theorem count_utf8EncodeChar (c : Char) :
    (String.utf8EncodeChar c).count '\n'.toUInt8 = [c].count '\n' := by
  by_cases hc : c = '\n'
  · rw [hc]
    decide
  · have hnot : '\n' ∉ [c] := fun h => hc (List.mem_singleton.mp h).symm
    rw [List.count_eq_zero.mpr (feed_not_mem_utf8EncodeChar hc), List.count_eq_zero.mpr hnot]

theorem count_flatMap_utf8EncodeChar (cs : List Char) :
    (cs.flatMap String.utf8EncodeChar).count ('\n'.toUInt8) = cs.count '\n' := by
  induction cs with
  | nil => rfl
  | cons c cs ih =>
    rw [List.flatMap_cons, List.count_append, count_utf8EncodeChar, ih, ← List.count_append,
      List.singleton_append]

theorem length_flatMap_utf8EncodeChar (cs : List Char) :
    (cs.flatMap String.utf8EncodeChar).length = byteLength cs := by
  induction cs with
  | nil => rfl
  | cons c cs ih =>
    rw [List.flatMap_cons, List.length_append, String.length_utf8EncodeChar, ih, byteLength_cons]

theorem lineOfByte_eq (o : Nat) (s : String) :
    lineOfByte o s =
      ((s.toList.flatMap String.utf8EncodeChar).take o).count ('\n'.toUInt8) + 1 := by
  rw [lineOfByte, ← String.utf8Encode_toList, List.utf8Encode, List.data_toByteArray]

theorem count_closedLines {above : List (List Char)} (h : ∀ l ∈ above, '\n' ∉ l) :
    (closedLines above).count '\n' = above.length := by
  induction above with
  | nil => rfl
  | cons l above ih =>
    rw [List.forall_mem_cons] at h
    rw [closedLines_cons, List.count_append, List.count_cons_self, List.count_eq_zero.mpr h.1, ih h.2,
      List.length_cons]
    omega

theorem lines_closedLines {above : List (List Char)} (habove : ∀ l ∈ above, '\n' ∉ l) (tail : List Char) :
    lines (closedLines above ++ tail) = above.map dropReturn ++ lines tail := by
  induction above with
  | nil => rfl
  | cons l above ih =>
    rw [List.forall_mem_cons] at habove
    rw [closedLines_cons, List.append_assoc, List.cons_append, lines_of_feed habove.1, ih habove.2,
      closeLine_reverse, List.map_cons, List.cons_append]

namespace StandsOn

variable {o : Nat} {s : String} {cs : List Char} {above : List (List Char)} {line rest : List Char}

theorem lineOfByte_eq (h : StandsOn o s.toList above line rest) :
    lineOfByte o s = above.length + 1 := by
  obtain ⟨k, rfl⟩ := Nat.exists_eq_add_of_le h.start
  have hk : k ≤ (line.flatMap String.utf8EncodeChar).length := by
    have hstop := h.stop
    rw [length_flatMap_utf8EncodeChar]
    omega
  have hline : ((line.flatMap String.utf8EncodeChar).take k).count '\n'.toUInt8 = 0 := by
    have hle := (List.take_sublist k (line.flatMap String.utf8EncodeChar)).count_le '\n'.toUInt8
    rw [count_flatMap_utf8EncodeChar, List.count_eq_zero.mpr h.plain] at hle
    omega
  rw [Text.lineOfByte_eq, h.text, List.flatMap_append, List.flatMap_append,
    ← length_flatMap_utf8EncodeChar, List.take_length_add_append, List.take_append_of_le_length hk,
    List.count_append, count_flatMap_utf8EncodeChar, hline, count_closedLines h.abovePlain]

theorem exists_lines (h : StandsOn o cs above line rest) :
    ∃ below, lines cs = above.map dropReturn ++ shownLine line rest :: below := by
  rw [h.text, lines_closedLines h.abovePlain]
  rcases h.closed with rfl | ⟨r, rfl⟩
  · -- The byte lies in the text, so that a last line without a line feed is not empty.
    have hne : line ≠ [] := by
      rintro rfl
      have hstart := h.start
      have hinside := h.inside
      rw [h.text, List.append_nil, List.append_nil] at hinside
      omega
    refine ⟨[], ?_⟩
    rw [List.append_nil, lines_of_plain h.plain, if_neg (mt List.isEmpty_iff.mp hne)]
    rfl
  · refine ⟨lines r, ?_⟩
    rw [lines_of_feed h.plain]
    rfl

theorem lineOfByte_le (h : StandsOn o s.toList above line rest) :
    lineOfByte o s ≤ (lines s.toList).length := by
  obtain ⟨below, hlines⟩ := h.exists_lines
  rw [h.lineOfByte_eq, hlines, List.length_append, List.length_map, List.length_cons]
  omega

/-- The line with the number of the byte is the one that the byte stands on. -/
theorem line?_here (h : StandsOn o cs above line rest) :
    line? (above.length + 1) cs = some (shownLine line rest) := by
  obtain ⟨below, hlines⟩ := h.exists_lines
  rw [line?, if_neg (Nat.succ_ne_zero _), Nat.add_sub_cancel, hlines]
  simp

theorem line?_above (h : StandsOn o cs above line rest) :
    line? above.length cs = above.getLast?.map dropReturn := by
  obtain ⟨below, hlines⟩ := h.exists_lines
  cases above using List.reverseRecOn with
  | nil => rfl
  | append_singleton above last =>
    rw [line?, List.length_append, List.length_singleton, if_neg (Nat.succ_ne_zero _),
      Nat.add_sub_cancel, hlines, List.getLast?_concat]
    simp

end StandsOn

theorem shownLine_eq (line rest : List Char) :
    shownLine line rest = if rest.isEmpty then line else dropReturn line := by
  rw [shownLine, closeLine_reverse]

/-- Where the text can be cut, the two ways to count agree. -/
theorem lineOfByte_eq_lineAt {o : Nat} {s : String} (h : isBoundary o s.toList = true) :
    lineOfByte o s = lineAt o s.toList := by
  obtain ⟨before, rest, hs, rfl⟩ := isBoundary_iff.mp h
  rw [Text.lineOfByte_eq, hs, lineAt_append, List.flatMap_append, ← length_flatMap_utf8EncodeChar,
    List.take_left, count_flatMap_utf8EncodeChar]

end CallChain.Text
