import Mathlib
import CallChain.Text.Blank
import CallChain.Text.Search

/-!
# Trimming and splitting

Trimming takes the blanks from the ends of a text and stops at the first character that is none. So a
phrase with no blank at its ends stays where it stands, and blanks before or behind it make no difference.
-/
namespace CallChain.Text

variable {cs gap rest phrase : List Char} {c mark : Char}

/-- Nothing but blanks. -/
def Blank (cs : List Char) : Prop := ∀ c ∈ cs, isBlank c = true

/-- Not empty, and with a blank at neither end. -/
structure Solid (cs : List Char) : Prop where
  nonempty : cs ≠ []
  head : ∀ c ∈ cs.head?, isBlank c = false
  last : ∀ c ∈ cs.getLast?, isBlank c = false

instance (cs : List Char) : Decidable (Blank cs) :=
  decidable_of_iff (cs.all isBlank = true) List.all_eq_true

theorem solid_iff : Solid cs ↔ cs ≠ [] ∧ cs.head?.all (!isBlank ·) = true ∧
    cs.getLast?.all (!isBlank ·) = true := by
  simp only [Option.all_eq_true, Bool.not_eq_true']
  exact ⟨fun h => ⟨h.nonempty, h.head, h.last⟩, fun ⟨hne, hhead, hlast⟩ => ⟨hne, hhead, hlast⟩⟩

instance (cs : List Char) : Decidable (Solid cs) := decidable_of_iff' _ solid_iff

theorem not_mem_of_blank (h : Blank cs) (hc : isBlank c = false) : c ∉ cs := by
  intro hmem
  rw [h c hmem] at hc
  cases hc

/-! ### Trimming -/

theorem trimStart_blank_append (h : Blank gap) (cs : List Char) :
    trimStart (gap ++ cs) = trimStart cs :=
  List.dropWhile_append_of_pos h

theorem trimStart_cons (hc : isBlank c = false) (cs : List Char) : trimStart (c :: cs) = c :: cs :=
  List.dropWhile_cons_of_neg (by rw [hc]; exact Bool.false_ne_true)

theorem trimStart_append_cons (hc : isBlank c = false) (cs rest : List Char) :
    trimStart (cs ++ c :: rest) = trimStart cs ++ c :: rest := by
  rw [trimStart, List.dropWhile_append]
  split
  · next hempty =>
    rw [trimStart, List.isEmpty_iff.mp hempty, List.nil_append]
    exact trimStart_cons hc rest
  · rfl

/-- What is trimmed from the front is blank. -/
theorem exists_blank_append_trimStart (cs : List Char) :
    ∃ gap, Blank gap ∧ cs = gap ++ trimStart cs :=
  ⟨cs.takeWhile isBlank, fun _ => List.mem_takeWhile_imp, List.takeWhile_append_dropWhile.symm⟩

theorem trimEnd_append_blank (h : Blank gap) (cs : List Char) : trimEnd (cs ++ gap) = trimEnd cs := by
  have hturned : Blank gap.reverse := fun c hc => h c (List.mem_reverse.mp hc)
  rw [trimEnd, List.reverse_append, List.dropWhile_append_of_pos hturned, trimEnd]

theorem trimEnd_append_cons (hc : isBlank c = false) (cs rest : List Char) :
    trimEnd (cs ++ c :: rest) = cs ++ c :: trimEnd rest := by
  have hturned : (cs ++ c :: rest).reverse = rest.reverse ++ c :: cs.reverse := by simp
  have hcut := trimStart_append_cons hc rest.reverse cs.reverse
  rw [trimStart, trimStart] at hcut
  rw [trimEnd, hturned, hcut, trimEnd]
  simp

/-- What is trimmed from the end is blank. -/
theorem exists_trimEnd_append_blank (cs : List Char) : ∃ gap, Blank gap ∧ cs = trimEnd cs ++ gap :=
  ⟨cs.rtakeWhile isBlank, fun _ => List.mem_rtakeWhile_imp,
    List.rdropWhile_append_rtakeWhile.symm⟩

theorem trimEnd_of_blank (h : Blank gap) : trimEnd gap = [] :=
  trimEnd_append_blank h []

theorem trim_blank_append (h : Blank gap) (cs : List Char) : trim (gap ++ cs) = trim cs := by
  rw [trim, trimStart_blank_append h, trim]

theorem trim_append_blank (h : Blank gap) (cs : List Char) : trim (cs ++ gap) = trim cs := by
  rw [trim, trimStart, List.dropWhile_append]
  split
  · next hempty =>
    -- All is blank, and trimming from the front leaves nothing.
    have hgap : gap.dropWhile isBlank = [] := List.dropWhile_eq_nil_iff.mpr h
    rw [trim, trimStart, List.isEmpty_iff.mp hempty, hgap]
  · rw [trimEnd_append_blank h, trim, trimStart]

@[simp] theorem trim_trimEnd (cs : List Char) : trim (trimEnd cs) = trim cs := by
  obtain ⟨gap, hgap, hcs⟩ := exists_trimEnd_append_blank cs
  rw [← trim_append_blank hgap, ← hcs]

/-- Trimming stops at a phrase with no blank at its ends. -/
theorem trim_phrase (h : Solid phrase) (hgap : Blank gap) (rest : List Char) :
    trim (gap ++ (phrase ++ rest)) = phrase ++ trimEnd rest := by
  obtain ⟨c, tail, rfl⟩ := List.exists_cons_of_ne_nil h.nonempty
  have hstart : trimStart (c :: tail ++ rest) = c :: tail ++ rest := trimStart_cons (h.head c rfl) _
  rw [trim_blank_append hgap, trim, hstart]
  obtain ⟨init, d, heq⟩ := (List.eq_nil_or_concat (c :: tail)).resolve_left h.nonempty
  rw [List.concat_eq_append] at heq
  have hd : isBlank d = false := h.last d (by rw [heq]; simp)
  rw [heq, List.append_assoc, List.append_assoc, List.singleton_append, List.singleton_append,
    trimEnd_append_cons hd]

theorem trim_between {before after : List Char} (h : Solid phrase) (hbefore : Blank before)
    (hafter : Blank after) : trim (before ++ (phrase ++ after)) = phrase := by
  rw [trim_phrase h hbefore, trimEnd_of_blank hafter, List.append_nil]

/-- A phrase behind a gap is found when the text is trimmed, with what follows it. -/
theorem isPrefixOf?_trim (h : Solid phrase) (hgap : Blank gap) (rest : List Char) :
    phrase.isPrefixOf? (trim (gap ++ (phrase ++ rest))) = some (trimEnd rest) := by
  rw [trim_phrase h hgap]
  exact List.isPrefixOf?_eq_some_iff_append_eq.mpr rfl

/-! ### Splitting -/

theorem splitAt_of_not_mem (h : mark ∉ cs) : splitAt mark cs = [cs] := by
  induction cs with
  | nil => rfl
  | cons c cs ih =>
    rw [List.mem_cons, not_or] at h
    rw [splitAt, if_neg (Ne.symm h.1), ih h.2]

theorem splitAt_append_cons (h : mark ∉ cs) (rest : List Char) :
    splitAt mark (cs ++ mark :: rest) = cs :: splitAt mark rest := by
  induction cs with
  | nil => rw [List.nil_append, splitAt, if_pos rfl]
  | cons c cs ih =>
    rw [List.mem_cons, not_or] at h
    rw [List.cons_append, splitAt, if_neg (Ne.symm h.1), ih h.2]

theorem join_cons_cons (glue piece next : List Char) (pieces : List (List Char)) :
    join glue (piece :: next :: pieces) = piece ++ (glue ++ join glue (next :: pieces)) :=
  List.append_assoc piece glue _

/-- Pieces that were joined are found again. -/
theorem splitAt_join {pieces : List (List Char)} (hne : pieces ≠ [])
    (h : ∀ piece ∈ pieces, mark ∉ piece) : splitAt mark (join [mark] pieces) = pieces := by
  induction pieces with
  | nil => exact absurd rfl hne
  | cons piece pieces ih =>
    rw [List.forall_mem_cons] at h
    cases pieces with
    | nil => exact splitAt_of_not_mem h.1
    | cons next pieces =>
      rw [join_cons_cons, List.singleton_append, splitAt_append_cons h.1,
        ih (List.cons_ne_nil _ _) h.2]

theorem not_mem_join {pieces : List (List Char)} (hc : c ≠ mark)
    (h : ∀ piece ∈ pieces, c ∉ piece) : c ∉ join [mark] pieces := by
  induction pieces with
  | nil => exact List.not_mem_nil
  | cons piece pieces ih =>
    rw [List.forall_mem_cons] at h
    cases pieces with
    | nil => exact h.1
    | cons next pieces =>
      rw [join_cons_cons, List.singleton_append, List.mem_append, List.mem_cons]
      rintro (hmem | rfl | hmem)
      · exact h.1 hmem
      · exact hc rfl
      · exact ih h.2 hmem

/-- Two characters at the end of a text are its last two. -/
theorem pair_suffix_concat {a b c : Char} {cs : List Char} (h : [a, b] <:+ cs ++ [c]) :
    cs.getLast? = some a ∧ b = c := by
  obtain ⟨front, hfront⟩ := h
  have hcut : (front ++ [a]) ++ [b] = cs ++ [c] := by
    rw [List.append_assoc]
    exact hfront
  obtain ⟨hinit, hlast⟩ := List.append_inj' hcut rfl
  rw [← hinit, List.getLast?_concat]
  exact ⟨rfl, List.singleton_inj.mp hlast⟩

end CallChain.Text
