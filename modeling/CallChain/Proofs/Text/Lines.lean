import CallChain.Proofs.Text.Boundary
import CallChain.Span
import CallChain.Text.Lines

/-!
# Lines and the offsets on them

The line of a byte offset is found by counting line feeds, the text of a line by splitting at them. Both
views are tied to one cut of the text around a line: `line?_eq_some_iff` says that the lines of a text are
exactly the middles of such cuts, and `LineCut.lineAt_lt_iff` which offsets lie before the line.
-/
namespace CallChain.Text

/-- Number of the line that byte `n` stands on. A line feed stands on the line that it ends. -/
def lineAt (n : Nat) (cs : List Char) : Nat := ((takeBytes? n cs).getD []).count '\n' + 1

/-- Line and column of byte `n`; the column counts the bytes behind the last line feed. -/
def positionAt (n : Nat) (cs : List Char) : Position where
  line := lineAt n cs
  column := byteLength (((takeBytes? n cs).getD []).reverse.takeWhile (· ≠ '\n'))

theorem lineAt_append (before rest : List Char) :
    lineAt (byteLength before) (before ++ rest) = before.count '\n' + 1 := by
  rw [lineAt, takeBytes?_append, Option.getD_some]

theorem lineAt_mono {m n : Nat} {cs : List Char} (hm : isBoundary m cs = true)
    (hn : isBoundary n cs = true) (h : m ≤ n) : lineAt m cs ≤ lineAt n cs := by
  obtain ⟨as, bs, rfl, rfl⟩ := isBoundary_iff.mp hm
  obtain ⟨longer, ds, he, rfl⟩ := isBoundary_iff.mp hn
  obtain ⟨mid, rfl, rfl⟩ := leading_of_byteLength_le he h
  rw [lineAt_append, ← List.append_assoc, lineAt_append, List.count_append]
  omega

theorem linesFrom_of_plain {line : List Char} (h : '\n' ∉ line) (held : List Char) :
    linesFrom held line =
      if (held.reverse ++ line).isEmpty then [] else [held.reverse ++ line] := by
  induction line generalizing held with
  | nil => simp [linesFrom]
  | cons c line ih =>
    rw [List.mem_cons, not_or] at h
    obtain ⟨hc, hl⟩ := h
    rw [linesFrom, if_neg (Ne.symm hc), ih hl]
    simp

theorem linesFrom_of_feed {line : List Char} (h : '\n' ∉ line) (held rest : List Char) :
    linesFrom held (line ++ '\n' :: rest) =
      closeLine (line.reverse ++ held) :: linesFrom [] rest := by
  induction line generalizing held with
  | nil => simp [linesFrom]
  | cons c line ih =>
    rw [List.mem_cons, not_or] at h
    obtain ⟨hc, hl⟩ := h
    rw [List.cons_append, linesFrom, if_neg (Ne.symm hc), ih hl]
    simp

theorem lines_of_plain {line : List Char} (h : '\n' ∉ line) :
    lines line = if line.isEmpty then [] else [line] := by
  simpa [lines] using linesFrom_of_plain h []

theorem lines_of_feed {line : List Char} (h : '\n' ∉ line) (rest : List Char) :
    lines (line ++ '\n' :: rest) = closeLine line.reverse :: lines rest := by
  simpa [lines] using linesFrom_of_feed h [] rest

/-- A text cut around its line with number `n`. The last line of a text may lack its line feed, but
then it is not empty. -/
structure LineCut (n : Nat) (cs before line rest : List Char) : Prop where
  text : cs = before ++ (line ++ rest)
  plain : '\n' ∉ line
  number : before.count '\n' + 1 = n
  opened : ∀ c, before.getLast? = some c → c = '\n'
  closed : (rest = [] ∧ line ≠ []) ∨ ∃ r, rest = '\n' :: r

/-- A line as it is read: a carriage return before its line feed is dropped. -/
def shownLine (line rest : List Char) : List Char :=
  if rest.isEmpty then line else closeLine line.reverse

theorem lineCut_below {n : Nat} {line tail b l r : List Char} (hl : '\n' ∉ line)
    (h : LineCut n tail b l r) : LineCut (n + 1) (line ++ '\n' :: tail) (line ++ '\n' :: b) l r := by
  refine ⟨?_, h.plain, ?_, ?_, h.closed⟩
  · rw [h.text, List.append_assoc, List.cons_append]
  · rw [List.count_append, List.count_cons_self, List.count_eq_zero.mpr hl, ← h.number]
    omega
  · intro c hc
    rw [List.getLast?_append, List.getLast?_cons, Option.some_or, Option.some.injEq] at hc
    cases hb : b.getLast? with
    | none => rw [← hc, hb, Option.getD_none]
    | some d => rw [← hc, hb, Option.getD_some, h.opened d hb]

theorem exists_cut_of_getElem? {k : Nat} {cs shown : List Char} (h : (lines cs)[k]? = some shown) :
    ∃ before line rest, LineCut (k + 1) cs before line rest ∧ shown = shownLine line rest := by
  induction k generalizing cs with
  | zero =>
    by_cases hf : '\n' ∈ cs
    · obtain ⟨line, tail, rfl, hl⟩ := List.eq_append_cons_of_mem hf
      rw [lines_of_feed hl] at h
      refine ⟨[], line, '\n' :: tail, ⟨rfl, hl, rfl, by simp, Or.inr ⟨tail, rfl⟩⟩, ?_⟩
      simpa [shownLine] using h.symm
    · rw [lines_of_plain hf] at h
      split at h
      · simp at h
      · next hne =>
        have hcs : cs ≠ [] := fun he => hne (List.isEmpty_iff.mpr he)
        refine ⟨[], cs, [], ⟨by simp, hf, rfl, by simp, Or.inl ⟨rfl, hcs⟩⟩, ?_⟩
        simpa [shownLine] using h.symm
  | succ k ih =>
    by_cases hf : '\n' ∈ cs
    · obtain ⟨line, tail, rfl, hl⟩ := List.eq_append_cons_of_mem hf
      rw [lines_of_feed hl, List.getElem?_cons_succ] at h
      obtain ⟨b, l, r, hcut, hs⟩ := ih h
      exact ⟨line ++ '\n' :: b, l, r, lineCut_below hl hcut, hs⟩
    · rw [lines_of_plain hf] at h
      split at h <;> simp at h

theorem getElem?_lines_of_cut {k : Nat} {cs before line rest : List Char}
    (h : LineCut (k + 1) cs before line rest) : (lines cs)[k]? = some (shownLine line rest) := by
  induction k generalizing cs before with
  | zero =>
    have hb : before = [] := by
      by_contra hne
      have hlast := List.getLast?_eq_some_getLast hne
      have hmem := List.mem_of_getLast? hlast
      rw [h.opened _ hlast] at hmem
      have hpos := List.count_pos_iff.mpr hmem
      have hn := h.number
      omega
    rw [h.text, hb, List.nil_append]
    rcases h.closed with ⟨rfl, hne⟩ | ⟨r, rfl⟩
    · simp [lines_of_plain h.plain, hne, shownLine]
    · simp [lines_of_feed h.plain, shownLine]
  | succ k ih =>
    have hn := h.number
    have hf : '\n' ∈ before := List.count_pos_iff.mp (by omega)
    obtain ⟨first, b, rfl, hl⟩ := List.eq_append_cons_of_mem hf
    rw [List.count_append, List.count_cons_self, List.count_eq_zero.mpr hl] at hn
    have hopen : ∀ c, b.getLast? = some c → c = '\n' := by
      intro c hc
      apply h.opened
      rw [List.getLast?_append, List.getLast?_cons, hc]
      rfl
    rw [h.text, List.append_assoc, List.cons_append, lines_of_feed hl, List.getElem?_cons_succ]
    exact ih ⟨rfl, h.plain, by omega, hopen, h.closed⟩

/-- The lines of a text are the middles of its cuts. -/
theorem line?_eq_some_iff {n : Nat} {cs shown : List Char} :
    line? n cs = some shown ↔
      ∃ before line rest, LineCut n cs before line rest ∧ shown = shownLine line rest := by
  cases n with
  | zero =>
    constructor
    · intro h
      simp [line?] at h
    · rintro ⟨before, line, rest, h, -⟩
      have hn := h.number
      omega
  | succ k =>
    rw [line?, if_neg (Nat.succ_ne_zero k), Nat.add_sub_cancel]
    constructor
    · exact exists_cut_of_getElem?
    · rintro ⟨before, line, rest, h, rfl⟩
      exact getElem?_lines_of_cut h

theorem mem_of_mem_closeLine {c : Char} {held : List Char} (h : c ∈ closeLine held) : c ∈ held := by
  unfold closeLine at h
  split at h
  · exact List.mem_cons_of_mem _ (List.mem_reverse.mp h)
  · exact List.mem_reverse.mp h

theorem mem_of_mem_line? {n : Nat} {c : Char} {cs shown : List Char} (h : line? n cs = some shown)
    (hc : c ∈ shown) : c ∈ cs := by
  obtain ⟨before, line, rest, hcut, rfl⟩ := line?_eq_some_iff.mp h
  have hline : c ∈ line := by
    unfold shownLine at hc
    split at hc
    · exact hc
    · exact List.mem_reverse.mp (mem_of_mem_closeLine hc)
  rw [hcut.text]
  exact List.mem_append_right _ (List.mem_append_left _ hline)

namespace LineCut

variable {n m : Nat} {cs before line rest : List Char}

/-- The offsets on earlier lines are those before the line's first byte. -/
theorem lineAt_lt_iff (h : LineCut n cs before line rest) (hm : isBoundary m cs = true) :
    lineAt m cs < n ↔ m < byteLength before := by
  obtain ⟨as, bs, hcs, rfl⟩ := isBoundary_iff.mp hm
  have hn := h.number
  have htext := h.text
  rw [hcs] at htext
  rw [hcs, lineAt_append]
  constructor
  · intro hlt
    by_contra hge
    obtain ⟨mid, rfl, -⟩ := leading_of_byteLength_le htext.symm (Nat.not_lt.mp hge)
    rw [List.count_append] at hlt
    omega
  · intro hlt
    obtain ⟨mid, hb, -⟩ := leading_of_byteLength_le htext hlt.le
    have hmid : '\n' ∈ mid := by
      have hne : mid ≠ [] := by
        rintro rfl
        rw [hb, List.append_nil] at hlt
        omega
      have hlast := List.getLast?_eq_some_getLast hne
      rw [← h.opened _ (by rw [hb, List.getLast?_append, hlast]; rfl)]
      exact List.mem_of_getLast? hlast
    have hpos := List.count_pos_iff.mpr hmid
    rw [hb, List.count_append] at hn
    omega

/-- The offsets from the line's first byte to its end stand on it. -/
theorem lineAt_eq (h : LineCut n cs before line rest) (hm : isBoundary m cs = true)
    (hlo : byteLength before ≤ m) (hhi : m ≤ byteLength before + byteLength line) :
    lineAt m cs = n := by
  have hge : ¬ lineAt m cs < n := by
    rw [h.lineAt_lt_iff hm]
    omega
  obtain ⟨as, bs, hcs, rfl⟩ := isBoundary_iff.mp hm
  have htext := h.text
  rw [hcs, ← List.append_assoc] at htext
  obtain ⟨mid, hmid, -⟩ := leading_of_byteLength_le htext (by rw [byteLength_append]; exact hhi)
  have hcount := congrArg (List.count '\n') hmid
  rw [List.count_append, List.count_append, List.count_eq_zero.mpr h.plain] at hcount
  have hn := h.number
  rw [hcs, lineAt_append] at hge ⊢
  omega

/-- Those from its first byte to its end, and no others, stand on the line. -/
theorem lineAt_eq_iff (h : LineCut n cs before line rest) (hm : isBoundary m cs = true) :
    lineAt m cs = n ↔ byteLength before ≤ m ∧ m ≤ byteLength before + byteLength line := by
  refine ⟨fun heq => ⟨?_, ?_⟩, fun hin => h.lineAt_eq hm hin.1 hin.2⟩
  · by_contra hlt
    have := (h.lineAt_lt_iff hm).mpr (Nat.not_le.mp hlt)
    omega
  · by_contra hgt
    obtain ⟨as, bs, hcs, rfl⟩ := isBoundary_iff.mp hm
    have htext := h.text
    rw [hcs, ← List.append_assoc] at htext
    obtain ⟨mid, rfl, hmid⟩ := leading_of_byteLength_le htext.symm
      (by rw [byteLength_append]; omega)
    -- What stands between the line and the offset begins with the line's feed.
    rcases h.closed with ⟨rfl, -⟩ | ⟨r, rfl⟩
    · obtain ⟨rfl, -⟩ := List.append_eq_nil_iff.mp hmid.symm
      simp at hgt
    · cases mid with
      | nil => simp at hgt
      | cons c mid =>
        obtain rfl : '\n' = c := (List.cons.inj hmid).1
        rw [hcs, lineAt_append, List.count_append, List.count_append, List.count_cons_self] at heq
        have hn := h.number
        omega

end LineCut

end CallChain.Text
