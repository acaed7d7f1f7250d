import CallChain.Proofs.Text.Breaks

/-!
# Texts with line feeds put in

`spread` puts any number of line feeds before the characters of a text, so that breaking a spread text
spreads it further. How far a byte moves by that is told by `behind`, and how far the end of what stands
before it by `before`: the line feeds before a byte come between the two. `feedsFrom` finds the line feeds
of a spread text again.
-/
namespace CallChain.Text

/-- Where the byte at `p` stands behind the line feeds before it. -/
def behind (feeds : List Nat) (p : Nat) : Nat := p + feeds.countP (· ≤ p)

/-- Where what ended at `e` ends before the line feeds there. -/
def before (feeds : List Nat) (e : Nat) : Nat := e + feeds.countP (· < e)

section Order

variable (feeds : List Nat) {p q e : Nat}

theorem countP_le_mono (h : p ≤ q) : feeds.countP (· ≤ p) ≤ feeds.countP (· ≤ q) := by
  apply List.countP_mono_left
  intro r _ hr
  simp only [decide_eq_true_eq] at hr ⊢
  omega

theorem countP_le_eq (p : Nat) : feeds.countP (· ≤ p) = feeds.countP (· < p + 1) := by
  simp only [Nat.lt_succ_iff]

/-- The line feeds before a byte stand between what ends there and the byte. -/
theorem before_add_count (p : Nat) : before feeds p + feeds.count p = behind feeds p := by
  have hstep : feeds.countP (· < p + 1) = feeds.countP (· < p) + feeds.count p :=
    countP_lt_step fun q _ => by omega
  rw [before, behind, countP_le_eq, hstep, Nat.add_assoc]

theorem before_succ (p : Nat) : before feeds (p + 1) = behind feeds p + 1 := by
  rw [before, behind, countP_le_eq]
  omega

theorem behind_le_behind_iff : behind feeds p ≤ behind feeds q ↔ p ≤ q := by
  have hup := @countP_le_mono feeds p q
  have hdown := @countP_le_mono feeds q p
  unfold behind
  omega

theorem behind_lt_behind_iff : behind feeds p < behind feeds q ↔ p < q := by
  rw [← Nat.not_le, behind_le_behind_iff, Nat.not_le]

theorem behind_lt_before_iff : behind feeds p < before feeds e ↔ p < e := by
  have hup := @countP_lt_mono feeds (p + 1) e
  have hdown := @countP_lt_mono feeds e (p + 1)
  unfold behind before
  rw [countP_le_eq]
  omega

theorem before_le_behind_iff : before feeds e ≤ behind feeds p ↔ e ≤ p := by
  rw [← Nat.not_lt, behind_lt_before_iff, Nat.not_lt]

theorem behind_injective : Function.Injective (behind feeds) := by
  intro p q h
  have hle := (behind_le_behind_iff feeds).mp h.le
  have hge := (behind_le_behind_iff feeds).mp h.ge
  omega

/-- More line feeds, at places behind the first ones, move a byte as all of them at once do. -/
theorem behind_behind (origins : List Nat) (p : Nat) :
    behind (origins.map (behind feeds)) (behind feeds p) = behind (feeds ++ origins) p := by
  have hcount : (origins.map (behind feeds)).countP (· ≤ behind feeds p) =
      origins.countP (· ≤ p) := by
    rw [List.countP_map]
    simp only [Function.comp_def, behind_le_behind_iff]
  rw [behind, hcount, behind, behind, List.countP_append, Nat.add_assoc]

theorem before_before (origins : List Nat) (e : Nat) :
    before (origins.map (behind feeds)) (before feeds e) = before (feeds ++ origins) e := by
  have hcount : (origins.map (behind feeds)).countP (· < before feeds e) =
      origins.countP (· < e) := by
    rw [List.countP_map]
    simp only [Function.comp_def, behind_lt_before_iff]
  rw [before, hcount, before, before, List.countP_append, Nat.add_assoc]

end Order

/-- A text of one-byte characters, of which the first has offset `offset`, with a line feed before a
character for each time that its offset is in `feeds`. -/
def spreadFrom (feeds : List Nat) (offset : Nat) : List Char → List Char
  | [] => []
  | c :: cs => List.replicate (feeds.count offset) '\n' ++ c :: spreadFrom feeds (offset + 1) cs

def spread (feeds : List Nat) (cs : List Char) : List Char := spreadFrom feeds 0 cs

theorem spreadFrom_congr {feeds others : List Nat} {offset : Nat} {cs : List Char}
    (h : ∀ q, offset ≤ q → feeds.count q = others.count q) :
    spreadFrom feeds offset cs = spreadFrom others offset cs := by
  induction cs generalizing offset with
  | nil => rfl
  | cons c cs ih => rw [spreadFrom, spreadFrom, h offset le_rfl, ih fun q hq => h q (by omega)]

theorem utf8Size_of_mem_spreadFrom {feeds : List Nat} {offset : Nat} {cs : List Char}
    (h : ∀ c ∈ cs, c.utf8Size = 1) : ∀ c ∈ spreadFrom feeds offset cs, c.utf8Size = 1 := by
  induction cs generalizing offset with
  | nil => exact h
  | cons d cs ih =>
    rw [List.forall_mem_cons] at h
    intro c hc
    rw [spreadFrom, List.mem_append, List.mem_replicate, List.mem_cons] at hc
    rcases hc with ⟨-, rfl⟩ | rfl | hc
    · rfl
    · exact h.1
    · exact ih h.2 c hc

theorem length_spreadFrom (feeds : List Nat) (offset : Nat) (cs : List Char) :
    (spreadFrom feeds offset cs).length + feeds.countP (· < offset) =
      cs.length + feeds.countP (· < offset + cs.length) := by
  induction cs generalizing offset with
  | nil => simp [spreadFrom]
  | cons c cs ih =>
    have hrest := ih (offset + 1)
    have hstep := before_add_count feeds offset
    rw [behind, before, countP_le_eq] at hstep
    rw [spreadFrom, List.length_append, List.length_replicate, List.length_cons, List.length_cons,
      show offset + (cs.length + 1) = offset + 1 + cs.length by omega]
    omega

theorem length_spread (feeds : List Nat) (cs : List Char) :
    (spread feeds cs).length = before feeds cs.length := by
  have h := length_spreadFrom feeds 0 cs
  simpa [before, spread] using h

/-- Breaking a spread text spreads it further. -/
theorem breakFrom_spreadFrom (feeds origins : List Nat) (hn : origins.Nodup) {offset : Nat}
    {cs : List Char} (hascii : ∀ c ∈ cs, c.utf8Size = 1)
    (hin : ∀ q ∈ origins, q < offset + cs.length) :
    breakFrom (origins.map (behind feeds)) (before feeds offset) (spreadFrom feeds offset cs) =
      spreadFrom (feeds ++ origins) offset cs := by
  induction cs generalizing offset with
  | nil =>
    have hnot : before feeds offset ∉ origins.map (behind feeds) := by
      intro hmem
      obtain ⟨q, hq, heq⟩ := List.mem_map.mp hmem
      have hlt := (behind_lt_before_iff feeds).mpr (hin q hq)
      rw [List.length_nil, Nat.add_zero] at hlt
      omega
    simp [breakFrom, leadFrom, spreadFrom, hnot]
  | cons c cs ih =>
    rw [List.forall_mem_cons] at hascii
    have hfeeds : byteLength (List.replicate (feeds.count offset) '\n') = feeds.count offset := by
      rw [byteLength_of_ascii fun d hd => by rw [List.eq_of_mem_replicate hd]; rfl,
        List.length_replicate]
    have hstep := before_add_count feeds offset
    -- No place stands among the line feeds that are there already.
    have hold : leadFrom (origins.map (behind feeds)) (before feeds offset)
        (List.replicate (feeds.count offset) '\n') = List.replicate (feeds.count offset) '\n' := by
      apply leadFrom_eq_self
      intro r hr
      obtain ⟨q, -, rfl⟩ := List.mem_map.mp hr
      rw [hfeeds, hstep, behind_lt_before_iff, behind_le_behind_iff]
      omega
    have hrest := @ih (offset + 1) hascii.2 fun q hq => by
      have hlt := hin q hq
      rw [List.length_cons] at hlt
      omega
    have hmem : behind feeds offset ∈ origins.map (behind feeds) ↔ offset ∈ origins :=
      List.mem_map_of_injective (behind_injective feeds)
    have hcount : (feeds ++ origins).count offset =
        feeds.count offset + if offset ∈ origins then 1 else 0 := by
      rw [List.count_append, List.Nodup.count hn]
    rw [spreadFrom, spreadFrom, breakFrom_append, hold, hfeeds, hstep, ← List.singleton_append,
      breakFrom_append, leadFrom, leadFrom, byteLength_cons, byteLength_nil, hascii.1, ← before_succ, hrest,
      hcount, List.append_nil]
    simp only [hmem]
    split
    · rw [List.replicate_succ']
      simp
    · simp

theorem breakBefore_spread (feeds : List Nat) {origins : List Nat} (hn : origins.Nodup)
    {cs : List Char} (hascii : ∀ c ∈ cs, c.utf8Size = 1) (hin : ∀ q ∈ origins, q < cs.length) :
    breakBefore (origins.map (behind feeds)) (spread feeds cs) = spread (feeds ++ origins) cs := by
  have h := @breakFrom_spreadFrom feeds origins hn 0 cs hascii (by simpa using hin)
  have hzero : before feeds 0 = 0 := by simp [before]
  rwa [hzero] at h

/-- The line feeds before the offsets in `ops` that make a text a copy of another, if it is one. -/
def feedsFrom (ops : List Nat) (offset : Nat) : List Char → List Char → Option (List Nat)
  | [], [] => some []
  | _ :: _, [] => none
  | [], _ :: _ => none
  | c :: cs, d :: copy =>
    if d = '\n' ∧ offset ∈ ops then (feedsFrom ops offset (c :: cs) copy).map (offset :: ·)
    else if d = c then feedsFrom ops (offset + 1) cs copy
    else none

variable {ops : List Nat}

theorem eq_spreadFrom_of_feedsFrom {offset : Nat} {cs copy : List Char} {feeds : List Nat}
    (h : feedsFrom ops offset cs copy = some feeds) :
    copy = spreadFrom feeds offset cs ∧ ∀ p ∈ feeds, p ∈ ops ∧ offset ≤ p := by
  fun_induction feedsFrom ops offset cs copy generalizing feeds with
  | case1 =>
    cases h
    exact ⟨rfl, by simp⟩
  | case2 => cases h
  | case3 => cases h
  | case4 offset c cs d copy hfeed ih =>
    obtain ⟨later, hlater, rfl⟩ := Option.map_eq_some_iff.mp h
    obtain ⟨hcopy, hmem⟩ := ih hlater
    have hrest : spreadFrom (offset :: later) (offset + 1) cs = spreadFrom later (offset + 1) cs :=
      spreadFrom_congr fun q hq => List.count_cons_of_ne (by omega)
    refine ⟨?_, List.forall_mem_cons.mpr ⟨⟨hfeed.2, le_rfl⟩, hmem⟩⟩
    rw [hcopy, hfeed.1, spreadFrom, spreadFrom, hrest, List.count_cons_self, List.replicate_succ,
      List.cons_append]
  | case5 offset cs d copy hnot ih =>
    obtain ⟨hcopy, hmem⟩ := ih h
    have hzero : feeds.count offset = 0 := by
      apply List.count_eq_zero.mpr
      intro hoffset
      have := (hmem offset hoffset).2
      omega
    refine ⟨?_, fun p hp => ⟨(hmem p hp).1, Nat.le_of_succ_le (hmem p hp).2⟩⟩
    rw [hcopy, spreadFrom, hzero]
    rfl
  | case6 => cases h

/-- Line feeds before an offset in `ops` are passed over one by one. -/
theorem feedsFrom_replicate {offset n : Nat} {c : Char} {cs rest : List Char}
    (hops : n ≠ 0 → offset ∈ ops) (hplain : offset ∈ ops → c ≠ '\n') :
    feedsFrom ops offset (c :: cs) (List.replicate n '\n' ++ c :: rest) =
      (feedsFrom ops (offset + 1) cs rest).map (List.replicate n offset ++ ·) := by
  induction n with
  | zero =>
    have hnot : ¬ (c = '\n' ∧ offset ∈ ops) := fun h => hplain h.2 h.1
    rw [List.replicate_zero, List.nil_append, feedsFrom, if_neg hnot, if_pos rfl]
    simp
  | succ n ih =>
    have hmem := hops (Nat.succ_ne_zero n)
    rw [List.replicate_succ, List.cons_append, feedsFrom, if_pos ⟨rfl, hmem⟩, ih fun _ => hmem,
      Option.map_map]
    rfl

theorem exists_feedsFrom_spreadFrom {offset : Nat} {cs : List Char} {feeds : List Nat}
    (hops : ∀ p ∈ feeds, p ∈ ops)
    (hplain : ∀ i c, cs[i]? = some c → offset + i ∈ ops → c ≠ '\n') :
    ∃ found, feedsFrom ops offset cs (spreadFrom feeds offset cs) = some found ∧
      ∀ q, offset ≤ q → q < offset + cs.length → found.count q = feeds.count q := by
  induction cs generalizing offset with
  | nil => exact ⟨[], rfl, fun q hlo hhi => absurd hhi (Nat.not_lt.mpr hlo)⟩
  | cons c cs ih =>
    obtain ⟨later, hlater, hcount⟩ := @ih (offset + 1) fun i d hd hmem =>
      hplain (i + 1) d (by simpa using hd) (by rwa [← Nat.add_assoc, Nat.add_right_comm])
    refine ⟨List.replicate (feeds.count offset) offset ++ later, ?_, fun q hlo hhi => ?_⟩
    · rw [spreadFrom, feedsFrom_replicate, hlater]
      · rfl
      · exact fun hne => hops _ (List.count_pos_iff.mp (Nat.pos_of_ne_zero hne))
      · exact hplain 0 c rfl
    · rw [List.count_append, List.count_replicate]
      rcases Nat.eq_or_lt_of_le hlo with rfl | hlt
      · have hnone : later.count offset = 0 := by
          apply List.count_eq_zero.mpr
          intro hoffset
          have := ((eq_spreadFrom_of_feedsFrom hlater).2 offset hoffset).2
          omega
        simp [hnone]
      · have hne : (offset == q) = false := by simpa using Nat.ne_of_lt hlt
        rw [hne, hcount q hlt (by rw [List.length_cons] at hhi; omega)]
        simp

/-- In a text of one-byte characters each offset is a boundary. -/
theorem isBoundary_of_ascii {cs : List Char} (h : ∀ c ∈ cs, c.utf8Size = 1) {n : Nat}
    (hn : n ≤ cs.length) : isBoundary n cs = true := by
  refine isBoundary_iff.mpr ⟨cs.take n, cs.drop n, by simp, ?_⟩
  rw [byteLength_of_ascii fun c hc => h c (List.mem_of_mem_take hc), List.length_take]
  omega

end CallChain.Text
