import CallChain.Proofs.Text.Lines

/-!
# Breaking a text before given bytes

`breakBefore` puts one line feed before each of some bytes. It moves an offset by the number of places
before it, both in bytes and in lines, and each line ends as it did, behind the last place on it.
-/
namespace CallChain.Text

/-- The text, of which the first byte has offset `offset`, with a line feed before each of its bytes in
`places`; what would come behind the text is left out. -/
def leadFrom (places : List Nat) (offset : Nat) : List Char → List Char
  | [] => []
  | c :: cs =>
    (if offset ∈ places then ['\n', c] else [c]) ++ leadFrom places (offset + c.utf8Size) cs

/-- The text with one line feed before each byte in `places`, its end included. -/
def breakFrom (places : List Nat) (offset : Nat) (cs : List Char) : List Char :=
  leadFrom places offset cs ++ if offset + byteLength cs ∈ places then ['\n'] else []

def breakBefore (places : List Nat) (cs : List Char) : List Char := breakFrom places 0 cs

theorem leadFrom_append (places : List Nat) (offset : Nat) (as bs : List Char) :
    leadFrom places offset (as ++ bs) =
      leadFrom places offset as ++ leadFrom places (offset + byteLength as) bs := by
  induction as generalizing offset with
  | nil => rfl
  | cons c as ih =>
    rw [List.cons_append, leadFrom, leadFrom, ih, byteLength_cons, List.append_assoc, Nat.add_assoc]

theorem breakFrom_append (places : List Nat) (offset : Nat) (as bs : List Char) :
    breakFrom places offset (as ++ bs) =
      leadFrom places offset as ++ breakFrom places (offset + byteLength as) bs := by
  rw [breakFrom, breakFrom, leadFrom_append, byteLength_append, List.append_assoc, Nat.add_assoc]

theorem breakBefore_append (places : List Nat) (before rest : List Char) :
    breakBefore places (before ++ rest) =
      leadFrom places 0 before ++ breakFrom places (byteLength before) rest := by
  rw [breakBefore, breakFrom_append, Nat.zero_add]

/-- Only the places inside the text matter. -/
theorem leadFrom_congr {places others : List Nat} {offset : Nat} {cs : List Char}
    (h : ∀ q, offset ≤ q → q < offset + byteLength cs → (q ∈ places ↔ q ∈ others)) :
    leadFrom places offset cs = leadFrom others offset cs := by
  induction cs generalizing offset with
  | nil => rfl
  | cons c cs ih =>
    have hc := c.utf8Size_pos
    rw [byteLength_cons] at h
    have hfirst : offset ∈ places ↔ offset ∈ others := h offset le_rfl (by omega)
    have hrest := @ih (offset + c.utf8Size) fun q hlo hhi => h q (by omega) (by omega)
    simp only [leadFrom, hfirst, hrest]

theorem leadFrom_eq_self {places : List Nat} {offset : Nat} {cs : List Char}
    (h : ∀ q ∈ places, q < offset ∨ offset + byteLength cs ≤ q) : leadFrom places offset cs = cs := by
  induction cs generalizing offset with
  | nil => rfl
  | cons c cs ih =>
    have hc := c.utf8Size_pos
    have hnot : offset ∉ places := by
      intro hmem
      have hq := h offset hmem
      rw [byteLength_cons] at hq
      omega
    rw [leadFrom, if_neg hnot, ih]
    · rfl
    · intro q hq
      have hq' := h q hq
      rw [byteLength_cons] at hq'
      omega

@[simp] theorem breakBefore_nil (cs : List Char) : breakBefore [] cs = cs := by
  rw [breakBefore, breakFrom, leadFrom_eq_self (by simp)]
  simp

/-- The line feed before the first byte comes first. -/
theorem breakFrom_eq_feed_append (places : List Nat) (offset : Nat) (cs : List Char) :
    breakFrom places offset cs = (if offset ∈ places then ['\n'] else []) ++
      breakFrom (places.filter (· ≠ offset)) offset cs := by
  cases cs with
  | nil => simp [breakFrom, leadFrom]
  | cons c cs =>
    have hc := c.utf8Size_pos
    have hlater : leadFrom places (offset + c.utf8Size) cs =
        leadFrom (places.filter (· ≠ offset)) (offset + c.utf8Size) cs := by
      apply leadFrom_congr
      intro q hlo _
      have hne : q ≠ offset := by omega
      simp [hne]
    have hend : offset + byteLength (c :: cs) ≠ offset := by
      rw [byteLength_cons]
      omega
    rw [breakFrom, breakFrom, leadFrom, leadFrom, hlater]
    simp only [List.mem_filter, hend, decide_true, and_true, ne_eq, not_true_eq_false, decide_false,
      Bool.false_eq_true, and_false, if_false, not_false_eq_true]
    split <;> simp

/-- One more place, behind the text that holds all others. -/
theorem breakBefore_concat {places : List Nat} {before : List Char}
    (h : ∀ q ∈ places, q < byteLength before) (c : Char) (rest : List Char) :
    breakBefore (places ++ [byteLength before]) (before ++ c :: rest) =
      breakBefore places before ++ '\n' :: c :: rest := by
  have hle : ∀ q ∈ places ++ [byteLength before], q ≤ byteLength before := by
    intro q hq
    rcases List.mem_append.mp hq with hq | hq
    · exact (h q hq).le
    · exact (List.mem_singleton.mp hq).le
  have hbefore : leadFrom (places ++ [byteLength before]) 0 before = breakBefore places before := by
    have hend : byteLength before ∉ places := fun hmem => Nat.lt_irrefl _ (h _ hmem)
    rw [breakBefore, breakFrom, Nat.zero_add, if_neg hend, List.append_nil]
    apply leadFrom_congr
    intro q _ hq
    have hne : q ≠ byteLength before := by omega
    simp [hne]
  have hbehind : breakFrom (places ++ [byteLength before]) (byteLength before) (c :: rest) =
      '\n' :: c :: rest := by
    have hc := c.utf8Size_pos
    have hend : byteLength before + byteLength (c :: rest) ∉ places ++ [byteLength before] := by
      intro hmem
      have hq := hle _ hmem
      rw [byteLength_cons] at hq
      omega
    have hself : leadFrom (places ++ [byteLength before]) (byteLength before + c.utf8Size) rest = rest := by
      apply leadFrom_eq_self
      intro q hq
      have hq := hle q hq
      omega
    rw [breakFrom, if_neg hend, List.append_nil, leadFrom, if_pos (by simp), hself]
    rfl
  rw [breakBefore_append, hbefore, hbehind]

/-- Only the set of places matters. -/
theorem breakBefore_congr {places others : List Nat} (h : ∀ q, q ∈ places ↔ q ∈ others)
    (cs : List Char) : breakBefore places cs = breakBefore others cs := by
  have hlead : ∀ offset, leadFrom places offset cs = leadFrom others offset cs := by
    induction cs with
    | nil => exact fun _ => rfl
    | cons c cs ih =>
      intro offset
      simp only [leadFrom, h, ih]
  simp only [breakBefore, breakFrom, h, hlead]

theorem getLast?_leadFrom {places : List Nat} {offset : Nat} {cs : List Char} (h : cs ≠ []) :
    (leadFrom places offset cs).getLast? = cs.getLast? := by
  rcases List.eq_nil_or_concat cs with rfl | ⟨as, c, rfl⟩
  · exact absurd rfl h
  · rw [List.concat_eq_append, leadFrom_append, leadFrom, leadFrom]
    split <;> simp

theorem countP_lt_step {places : List Nat} {n m : Nat}
    (h : ∀ q ∈ places, q < m ↔ q < n ∨ q = n) :
    places.countP (· < m) = places.countP (· < n) + places.count n := by
  induction places with
  | nil => rfl
  | cons q places ih =>
    have hq := h q List.mem_cons_self
    have hrest := ih fun p hp => h p (List.mem_cons_of_mem q hp)
    simp only [List.countP_cons, List.count_cons, hrest, decide_eq_true_eq, beq_iff_eq]
    split <;> split <;> split <;> omega

theorem countP_lt_mono (places : List Nat) {m n : Nat} (h : m ≤ n) :
    places.countP (· < m) ≤ places.countP (· < n) := by
  apply List.countP_mono_left
  intro q _ hq
  simp only [decide_eq_true_eq] at hq ⊢
  omega

/-- A place between two offsets counts for the later one only. -/
theorem countP_lt_strict {places : List Nat} {m n p : Nat} (hp : p ∈ places) (hm : m ≤ p)
    (hn : p < n) : places.countP (· < m) < places.countP (· < n) := by
  have hle := countP_lt_mono places hm
  have hstep : places.countP (· < p + 1) = places.countP (· < p) + places.count p :=
    countP_lt_step fun q _ => by omega
  have hpos := List.count_pos_iff.mpr hp
  have hlast := countP_lt_mono places (show p + 1 ≤ n from hn)
  omega

/-- A text cut around what its line with number `n` has behind the last place on it; if there is none, that
is the whole line. -/
structure PieceCut (places : List Nat) (n : Nat) (cs before front piece rest : List Char) : Prop where
  cut : LineCut n cs before (front ++ piece) rest
  ends : rest = [] → piece ≠ []
  starts : front = [] ∨ byteLength (before ++ front) ∈ places
  last : ∀ q ∈ places, lineAt q cs = n → q ≤ byteLength (before ++ front)

/-- What line `n` shows behind the last place on it, or all that it shows if there is none. -/
def LastPiece (places : List Nat) (n : Nat) (cs shown : List Char) : Prop :=
  ∃ before front piece rest, PieceCut places n cs before front piece rest ∧
    shown = shownLine piece rest

theorem lastPiece_of_free {places : List Nat} {n : Nat} {cs shown : List Char}
    (hfree : ∀ q ∈ places, lineAt q cs ≠ n) (hline : line? n cs = some shown) :
    LastPiece places n cs shown := by
  obtain ⟨before, line, rest, hcut, hshown⟩ := line?_eq_some_iff.mp hline
  refine ⟨before, [], line, rest, ⟨hcut, fun hrest => ?_, Or.inl rfl, fun q hq heq => ?_⟩, hshown⟩
  · rcases hcut.closed with ⟨-, hne⟩ | ⟨r, hr⟩
    · exact hne
    · rw [hrest] at hr
      cases hr
  · exact absurd heq (hfree q hq)

/-- Different places, each of them the start of a character of the text or its end. -/
structure Places (places : List Nat) (cs : List Char) : Prop where
  nodup : places.Nodup
  boundary : ∀ q ∈ places, isBoundary q cs = true

theorem boundary_not_inside {q : Nat} {before rest : List Char} {c : Char}
    (h : isBoundary q (before ++ c :: rest) = true) (hq : byteLength before < q) :
    byteLength before + c.utf8Size ≤ q := by
  obtain ⟨as, bs, htext, rfl⟩ := isBoundary_iff.mp h
  obtain ⟨mid, rfl, htail⟩ := leading_of_byteLength_le htext hq.le
  cases mid with
  | nil => simp at hq
  | cons d mid =>
    rw [List.cons_append, List.cons.injEq] at htail
    rw [byteLength_append, byteLength_cons, htail.1]
    omega

namespace Places

variable {places : List Nat} {cs before rest : List Char}

theorem count_eq (h : Places places cs) (q : Nat) :
    places.count q = if q ∈ places then 1 else 0 := by
  split
  · exact List.count_eq_one_of_mem h.nodup ‹_›
  · exact List.count_eq_zero_of_not_mem ‹_›

/-- What is put before a leading part: as many line feeds as there are places in it. -/
theorem leadFrom_spec (h : Places places (before ++ rest)) :
    byteLength (leadFrom places 0 before) =
        byteLength before + places.countP (· < byteLength before) ∧
      (leadFrom places 0 before).count '\n' =
        before.count '\n' + places.countP (· < byteLength before) := by
  -- From the end, since one more character brings in at most one place, its own offset.
  induction before using List.reverseRecOn generalizing rest with
  | nil => simp [leadFrom]
  | append_singleton before c ih =>
    rw [List.append_assoc, List.singleton_append] at h
    obtain ⟨hbytes, hlines⟩ := ih h
    have hstep : places.countP (· < byteLength before + c.utf8Size) =
        places.countP (· < byteLength before) + places.count (byteLength before) := by
      apply countP_lt_step
      intro q hq
      have hc := c.utf8Size_pos
      have hinside := boundary_not_inside (h.boundary q hq)
      omega
    have hcount := h.count_eq (byteLength before)
    rw [leadFrom_append, Nat.zero_add, leadFrom, leadFrom, List.append_nil, byteLength_append,
      byteLength_append, byteLength_cons, byteLength_nil, Nat.add_zero, hstep, hcount, hbytes,
      List.count_append, List.count_append, hlines]
    split
    · have hfeed : '\n'.utf8Size = 1 := by decide
      simp only [byteLength_cons, byteLength_nil, hfeed, List.count_cons_self]
      omega
    · simp only [byteLength_cons, byteLength_nil]
      omega

/-- The line of a moved offset: one further for each place before it. -/
theorem lineAt_breakBefore (h : Places places cs) {n : Nat} (hn : isBoundary n cs = true) :
    lineAt (n + places.countP (· < n)) (breakBefore places cs) =
      lineAt n cs + places.countP (· < n) := by
  obtain ⟨before, rest, rfl, rfl⟩ := isBoundary_iff.mp hn
  obtain ⟨hbytes, hlines⟩ := h.leadFrom_spec
  rw [breakBefore_append, ← hbytes, lineAt_append, hlines, lineAt_append]
  omega

/-- If no place stands on the line of an offset, the places before the offset are those on earlier lines. -/
theorem countP_lt_of_free (h : Places places cs) {n : Nat} (hn : isBoundary n cs = true)
    (hfree : ∀ q ∈ places, lineAt q cs ≠ lineAt n cs) :
    places.countP (· < n) = places.countP (lineAt · cs < lineAt n cs) := by
  apply List.countP_congr
  intro q hq
  have hne := hfree q hq
  simp only [decide_eq_true_eq]
  constructor
  · intro hlt
    have hmono := lineAt_mono (h.boundary q hq) hn hlt.le
    omega
  · intro hlt
    by_contra hge
    have hmono := lineAt_mono hn (h.boundary q hq) (Nat.not_lt.mp hge)
    omega

end Places

namespace PieceCut

variable {places : List Nat} {n : Nat} {cs before front piece rest : List Char}
  (h : PieceCut places n cs before front piece rest) (hp : Places places cs)
include h

theorem text : cs = (before ++ front) ++ (piece ++ rest) := by
  rw [h.cut.text, List.append_assoc, List.append_assoc]

include hp

/-- The places on the lines up to the piece are those up to its start. -/
theorem countP_lineAt : places.countP (lineAt · cs ≤ n) =
    places.countP (· < byteLength (before ++ front)) +
      if byteLength (before ++ front) ∈ places then 1 else 0 := by
  rw [← hp.count_eq, ← countP_lt_step (m := byteLength (before ++ front) + 1) fun q _ => by omega]
  apply List.countP_congr
  intro q hq
  have hb := hp.boundary q hq
  have hlast := h.last q hq
  rw [h.cut.lineAt_eq_iff hb] at hlast
  rw [decide_eq_true_eq, decide_eq_true_eq, Nat.le_iff_lt_or_eq, h.cut.lineAt_lt_iff hb,
    h.cut.lineAt_eq_iff hb]
  simp only [byteLength_append] at hlast ⊢
  omega

/-- No other place stands on the line from the start of the piece to its end. -/
theorem outside {q : Nat} (hq : q ∈ places.filter (· ≠ byteLength (before ++ front))) :
    q < byteLength (before ++ front) ∨ byteLength (before ++ front) + byteLength piece < q := by
  obtain ⟨hq, hne⟩ := List.mem_filter.mp hq
  have hlast := h.last q hq
  rw [h.cut.lineAt_eq_iff (hp.boundary q hq)] at hlast
  simp only [byteLength_append, decide_eq_true_eq] at hlast hne ⊢
  omega

/-- In the broken text the piece stands behind a line feed or the start of its line, and what comes next
begins as it did. -/
theorem breakBefore_eq : ∃ after,
    breakBefore places cs = (leadFrom places 0 (before ++ front) ++
      if byteLength (before ++ front) ∈ places then ['\n'] else []) ++ (piece ++ after) ∧
    (rest = [] ∧ after = [] ∨ ∃ r r', rest = '\n' :: r ∧ after = '\n' :: r') := by
  let others := places.filter (· ≠ byteLength (before ++ front))
  have hpiece : leadFrom others (byteLength (before ++ front)) piece = piece :=
    leadFrom_eq_self fun q hq => (h.outside hp hq).imp_right Nat.le_of_lt
  have hend : byteLength (before ++ front) + byteLength piece ∉ others := by
    intro hq
    have := h.outside hp hq
    omega
  refine ⟨breakFrom others (byteLength (before ++ front) + byteLength piece) rest, ?_, ?_⟩
  · rw [h.text, breakBefore_append, breakFrom_eq_feed_append, breakFrom_append, hpiece,
      List.append_assoc]
  · rcases h.cut.closed with ⟨rfl, -⟩ | ⟨r, rfl⟩
    · exact Or.inl ⟨rfl, by rw [breakFrom, leadFrom, byteLength_nil, Nat.add_zero, if_neg hend]; rfl⟩
    · exact Or.inr ⟨r, _, rfl, by rw [breakFrom, leadFrom, if_neg hend]; rfl⟩

end PieceCut

/-- The last piece of each line is a line of the broken text, further down by the number of places on the
lines up to it. -/
theorem Places.line?_of_lastPiece {places : List Nat} {n : Nat} {cs shown : List Char}
    (h : Places places cs) (hlast : LastPiece places n cs shown) :
    line? (n + places.countP (lineAt · cs ≤ n)) (breakBefore places cs) = some shown := by
  obtain ⟨before, front, piece, rest, hpiece, rfl⟩ := hlast
  obtain ⟨after, htext, hclosed⟩ := hpiece.breakBefore_eq h
  obtain ⟨-, hlines⟩ := Places.leadFrom_spec (hpiece.text ▸ h)
  have hplain := List.count_eq_zero.mpr hpiece.cut.plain
  rw [List.count_append, Nat.add_eq_zero_iff] at hplain
  apply line?_eq_some_iff.mpr
  refine ⟨_, piece, after, ⟨htext, ?_, ?_, ?_, ?_⟩, ?_⟩
  · exact fun hmem => hpiece.cut.plain (List.mem_append_right _ hmem)
  · have hnumber := hpiece.cut.number
    rw [hpiece.countP_lineAt h, List.count_append, hlines, List.count_append, hplain.1]
    split <;> simp only [List.count_cons_self, List.count_nil] <;> omega
  · intro c hc
    split at hc
    · simpa using hc.symm
    · next hnot =>
      obtain rfl := hpiece.starts.resolve_right hnot
      rw [List.append_nil, List.append_nil] at hc
      by_cases hb : before = []
      · rw [hb, leadFrom] at hc
        cases hc
      · rw [getLast?_leadFrom hb] at hc
        exact hpiece.cut.opened c hc
  · rcases hclosed with ⟨hrest, rfl⟩ | ⟨r, r', -, rfl⟩
    · exact Or.inl ⟨rfl, hpiece.ends hrest⟩
    · exact Or.inr ⟨r', rfl⟩
  · rcases hclosed with ⟨rfl, rfl⟩ | ⟨r, r', rfl, rfl⟩
    · rfl
    · rfl

/-- A line that another one follows ends in a line feed. -/
theorem exists_cut_before {n : Nat} {cs next : List Char} (hn : n ≠ 0)
    (hnext : line? (n + 1) cs = some next) :
    ∃ before line r, LineCut n cs before line ('\n' :: r) := by
  obtain ⟨k, rfl⟩ := Nat.exists_eq_succ_of_ne_zero hn
  obtain ⟨before', line', rest', hcut', -⟩ := line?_eq_some_iff.mp hnext
  obtain ⟨shown, hshown⟩ : ∃ shown, (lines cs)[k]? = some shown := by
    rw [line?, if_neg (Nat.succ_ne_zero _), Nat.add_sub_cancel] at hnext
    obtain ⟨hlt, -⟩ := List.getElem?_eq_some_iff.mp hnext
    exact ⟨_, List.getElem?_eq_getElem (Nat.lt_of_succ_lt hlt)⟩
  obtain ⟨before, line, rest, hcut, -⟩ := exists_cut_of_getElem? hshown
  rcases hcut.closed with ⟨rfl, -⟩ | ⟨r, rfl⟩
  · have hfew := congrArg (List.count '\n') hcut.text
    have hmany := congrArg (List.count '\n') hcut'.text
    simp only [List.count_append, List.count_eq_zero.mpr hcut.plain, List.count_nil] at hfew hmany
    have hnumber := hcut.number
    have hnumber' := hcut'.number
    omega
  · exact ⟨before, line, r, hcut⟩

theorem Places.exists_lastPiece {places : List Nat} {n : Nat} {cs next : List Char}
    (h : Places places cs) (hn : n ≠ 0) (hnext : line? (n + 1) cs = some next) :
    ∃ shown, LastPiece places n cs shown := by
  obtain ⟨before, line, r, hcut⟩ := exists_cut_before hn hnext
  cases hmax : (places.filter (lineAt · cs = n)).max? with
  | none =>
    have hfree : ∀ q ∈ places, lineAt q cs ≠ n := by
      simpa using List.filter_eq_nil_iff.mp (List.max?_eq_none_iff.mp hmax)
    exact ⟨_, lastPiece_of_free hfree (line?_eq_some_iff.mpr ⟨before, line, _, hcut, rfl⟩)⟩
  | some q =>
    obtain ⟨hmem, hmost⟩ := List.max?_eq_some_iff.mp hmax
    obtain ⟨hq, hline⟩ := List.mem_filter.mp hmem
    obtain ⟨hlo, hhi⟩ := (hcut.lineAt_eq_iff (h.boundary q hq)).mp (of_decide_eq_true hline)
    -- The last place cuts the line in two.
    obtain ⟨as, bs, hcs, rfl⟩ := isBoundary_iff.mp (h.boundary q hq)
    obtain ⟨front, rfl, hfront⟩ := leading_of_byteLength_le (hcut.text.symm.trans hcs) hlo
    obtain ⟨piece, rfl, -⟩ := leading_of_byteLength_le hfront.symm (by
      rw [byteLength_append] at hhi
      omega)
    refine ⟨_, before, front, piece, '\n' :: r, ⟨hcut, by simp, Or.inr hq, fun p hp hline => ?_⟩, rfl⟩
    exact hmost p (List.mem_filter.mpr ⟨hp, decide_eq_true hline⟩)

end CallChain.Text
