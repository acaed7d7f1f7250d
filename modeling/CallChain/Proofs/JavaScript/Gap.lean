import CallChain.Proofs.JavaScript.Place

/-!
# The gaps between tokens

Passing characters never leads back. The gap at a place is what the blanks and the comments at its front
take together: behind each of them it goes on to the same end.
-/
namespace CallChain.JavaScript

variable {cs : List Char} {c : Char} {k : Nat}

/-- The scan counts from where it starts. -/
theorem gapFrom_add (gap : Gap) (pos good n : Nat) (cs : List Char) :
    gapFrom gap (pos + n) (good + n) cs = gapFrom gap pos good cs + n := by
  induction cs generalizing gap pos good with
  | nil => rfl
  | cons c cs ih =>
    have hpos : pos + n + 1 = pos + 1 + n := by omega
    cases gap <;> simp only [gapFrom, hpos, ih] <;> grind

theorem gapFrom_blank_eq (n : Nat) (cs : List Char) : gapFrom .blank n n cs = n + gapLength cs := by
  have hadd := gapFrom_add .blank 0 0 n cs
  rw [Nat.zero_add] at hadd
  rw [hadd, Nat.add_comm]
  rfl

theorem gapLength_cons (h : isSpace c = true) : gapLength (c :: cs) = 1 + gapLength cs := by
  rw [gapLength, gapFrom, if_pos h]
  exact gapFrom_blank_eq 1 cs

/-- Blanks at the front belong to the gap. -/
theorem gapLength_eq_spaceLength_add (cs : List Char) :
    gapLength cs = spaceLength cs + gapLength (cs.drop (spaceLength cs)) := by
  induction cs with
  | nil => rfl
  | cons c cs ih =>
    cases h : isSpace c with
    | false => simp [spaceLength, h]
    | true =>
      have hlength : spaceLength (c :: cs) = spaceLength cs + 1 := by simp [spaceLength, h]
      rw [gapLength_cons h, ih, hlength, List.drop_succ_cons]
      omega

theorem isSpace_of_endsLineComment (h : endsLineComment c = true) : isSpace c = true := by
  simp only [endsLineComment, isLineEnd, Bool.or_eq_true, beq_iff_eq] at h
  rcases h with ((rfl | rfl) | rfl) | rfl <;> decide

theorem gapFrom_lineComment (n : Nat) (cs : List Char) :
    gapFrom .lineComment n n cs = n + (cs.takeWhile fun c => !endsLineComment c).length +
      gapLength (cs.drop (cs.takeWhile fun c => !endsLineComment c).length) := by
  induction cs generalizing n with
  | nil => rfl
  | cons c cs ih =>
    cases h : endsLineComment c with
    | true =>
      rw [gapFrom, if_pos h, gapFrom_blank_eq]
      simp only [List.takeWhile_cons, h, Bool.not_true, Bool.false_eq_true, if_false, List.length_nil,
        List.drop_zero, gapLength_cons (isSpace_of_endsLineComment h)]
      omega
    | false =>
      rw [gapFrom, if_neg (by simp [h]), ih]
      simp only [List.takeWhile_cons, h, Bool.not_false, if_true, List.length_cons, List.drop_succ_cons]
      omega

theorem exists_succ_of_blockCommentLength? (h : blockCommentLength? (c :: cs) = some k) :
    ∃ j, k = j + 1 := by
  cases cs with
  | nil => cases h
  | cons d cs =>
    rw [blockCommentLength?] at h
    split at h
    · exact ⟨1, (Option.some.inj h).symm⟩
    · obtain ⟨j, -, rfl⟩ := Option.map_eq_some_iff.mp h
      exact ⟨j, rfl⟩

theorem blockCommentLength?_cons_of_ne (h : c ≠ '*') :
    blockCommentLength? (c :: cs) = (blockCommentLength? cs).map (· + 1) := by
  cases cs with
  | nil => rfl
  | cons d cs => rw [blockCommentLength?, if_neg (by simp [h])]

/-- The scan inside a block comment ends where the comment does, also right behind a star of it. -/
theorem gapFrom_blockComment (pos good : Nat) (cs : List Char) :
    (∀ k, blockCommentLength? cs = some k →
      gapFrom .blockComment pos good cs = pos + k + gapLength (cs.drop k)) ∧
    (∀ k, blockCommentLength? ('*' :: cs) = some (k + 1) →
      gapFrom .star pos good cs = pos + k + gapLength (cs.drop k)) := by
  induction cs generalizing pos with
  | nil => simp [blockCommentLength?]
  | cons c cs ih =>
    obtain ⟨hblock, hstar⟩ := ih (pos + 1)
    have hfirst : ∀ k, blockCommentLength? (c :: cs) = some k →
        gapFrom .blockComment pos good (c :: cs) = pos + k + gapLength ((c :: cs).drop k) := by
      intro k hk
      obtain ⟨k, rfl⟩ := exists_succ_of_blockCommentLength? hk
      rw [gapFrom, List.drop_succ_cons]
      split
      · next hc =>
        rw [hc] at hk
        rw [hstar k hk]
        omega
      · next hc =>
        rw [blockCommentLength?_cons_of_ne hc] at hk
        rw [hblock k (by simpa using hk)]
        omega
    refine ⟨hfirst, fun k hk => ?_⟩
    by_cases hc : c = '/'
    · subst hc
      obtain rfl : k = 1 := by simpa [blockCommentLength?, eq_comm] using hk
      rw [gapFrom, if_pos rfl, gapFrom_blank_eq]
      rfl
    · have hk' : blockCommentLength? (c :: cs) = some k := by
        simpa [blockCommentLength?, hc] using hk
      rw [← hfirst k hk']
      simp only [gapFrom, if_neg hc]

theorem gapLength_of_comment (h : commentLength? cs = some k) :
    gapLength cs = k + gapLength (cs.drop k) := by
  unfold commentLength? at h
  split at h
  · next rest =>
    obtain rfl := Option.some.inj h
    have hdrop : ∀ n, ('/' :: '/' :: rest).drop (2 + n) = rest.drop n := fun n => by
      rw [Nat.add_comm, List.drop_succ_cons, List.drop_succ_cons]
    rw [hdrop, ← gapFrom_lineComment]
    rfl
  · next rest =>
    obtain ⟨n, hn, rfl⟩ := Option.map_eq_some_iff.mp h
    have hdrop : ('/' :: '*' :: rest).drop (2 + n) = rest.drop n := by
      rw [Nat.add_comm, List.drop_succ_cons, List.drop_succ_cons]
    rw [hdrop, ← (gapFrom_blockComment 2 0 rest).1 n hn]
    rfl
  · cases h

namespace Place

theorem offset_le_step (p : Place) : p.offset ≤ p.step.offset := by
  unfold step
  split
  · exact Nat.le_refl _
  · split <;> simp

theorem offset_le_skip (n : Nat) (p : Place) : p.offset ≤ (p.skip n).offset := by
  induction n generalizing p with
  | zero => exact Nat.le_refl _
  | succ n ih => exact p.offset_le_step.trans (ih p.step)

theorem offset_le_afterGap (p : Place) : p.offset ≤ p.afterGap.offset := p.offset_le_skip _

grind_pattern offset_le_afterGap => p.afterGap

theorem rest_skip (n : Nat) (p : Place) : (p.skip n).rest = p.rest.drop n := by
  induction n generalizing p with
  | zero => rfl
  | succ n ih =>
    rw [skip, ih]
    cases h : p.rest with
    | nil => simp [step, h]
    | cons c cs =>
      rw [List.drop_succ_cons, step, h]
      dsimp only
      split <;> rfl

theorem skip_add (m n : Nat) (p : Place) : p.skip (m + n) = (p.skip m).skip n := by
  induction m generalizing p with
  | zero => rw [Nat.zero_add]; rfl
  | succ m ih => rw [Nat.add_right_comm, skip, ih]; rfl

/-- The gap goes on behind a comment in it. -/
theorem afterGap_skip_comment (p : Place)
    (h : commentLength? (p.skip (spaceLength p.rest)).rest = some k) :
    ((p.skip (spaceLength p.rest)).skip k).afterGap = p.afterGap := by
  rw [rest_skip] at h
  have hgap := gapLength_eq_spaceLength_add p.rest
  have hcomment := gapLength_of_comment h
  rw [afterGap, afterGap, hgap, hcomment, skip_add, skip_add, rest_skip, rest_skip]

end Place

end CallChain.JavaScript
