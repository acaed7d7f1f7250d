import CallChain.Proofs.JavaScript.Reading.Placement.Statement
import CallChain.Proofs.JavaScript.Reading.Spans

/-!
# Where programs are read

The comments between two statements lie in the gap between them. With that every tree that is read as a
program is sound throughout.
-/
namespace CallChain.JavaScript

variable {text : List Char}

namespace Grammar

open Concrete

variable {p q : Place} {nodes : List Concrete} {n depth : Nat}

/-- Each unrolling of the grammar finds its phrases behind the gap. -/
theorem unrolled_findsPhrases (depth n : Nat) :
    FindsPhrases { phrase := unrolled depth, limit := n } := by
  induction depth generalizing n with
  | zero =>
    intro phrase p c q h
    simp only [unrolled, fail_eq_ok] at h
  | succ depth ih =>
    intro phrase p c q h
    cases phrase with
    | statement => exact statement_ok (ih depth) h
    | expression => exact expressionAt_ok (ih depth) h
    | expressions => exact expressions_ok (ih depth) h
    | operand level => exact expressionAt_ok (ih depth) h
    | unary => exact unary_ok (ih depth) h
    | pattern => exact pattern_ok (ih depth) h
    | block inExpression => exact block_ok (ih depth) h
    | element => exact markupElement_ok (ih depth) h

theorem commentsAhead_row (n : Nat) (p : Place) :
    Row p.offset (commentsAhead n p) p.afterGap.offset := by
  induction n generalizing p with
  | zero => exact row_nil.mpr p.offset_le_afterGap
  | succ n ih =>
    unfold commentsAhead
    dsimp only
    split
    · exact row_nil.mpr p.offset_le_afterGap
    · next k hcomment =>
      have hstart := p.offset_le_skip (spaceLength p.rest)
      have hstop := (p.skip (spaceLength p.rest)).offset_le_skip k
      have hrest := ih ((p.skip (spaceLength p.rest)).skip k)
      rw [p.afterGap_skip_comment hcomment] at hrest
      have hname : IsLeafName "comment" := by decide
      exact row_cons.mpr ⟨placed_leaf hname hstart hstop (Nat.le_refl _) rfl, hrest⟩

theorem hashBang_ok (h : hashBang p = .ok (nodes, q)) : Row p.offset nodes q.offset := by
  simp only [hashBang, bind_eq_ok] at h
  obtain ⟨rest, m, hrest, h⟩ := h
  rw [eq_ok_iff] at h
  obtain ⟨x, hx, h⟩ := h
  split at hx <;> subst hx <;> simp only [bind_eq_ok, pure_eq_ok] at h <;> grind

theorem programBody_ok (h : programBody depth n p = .ok (nodes, q)) :
    Row p.offset nodes q.afterGap.offset := by
  induction n generalizing p nodes with
  | zero => simp only [programBody, fail_eq_ok] at h
  | succ n ih =>
    simp only [programBody, bind_eq_ok, ite_eq_ok, get_eq_ok, pure_eq_ok] at h
    obtain ⟨_, _, ⟨rfl, rfl⟩, ⟨-, rfl, rfl⟩ | ⟨-, first, m, hfirst, more, m', hmore, rfl, rfl⟩⟩ := h
    · exact commentsAhead_row depth p
    · have hcomments := commentsAhead_row depth p
      obtain ⟨hplaced, -⟩ := unrolled_findsPhrases depth depth .statement _ _ _ hfirst
      have hrow := ih hmore
      grind

end Grammar

theorem Place.LiesOn.offset_le {p : Place} (h : p.LiesOn text) :
    p.offset ≤ ((Place.start text).skip text.length).offset := by
  obtain ⟨before, rest, rfl, rfl⟩ := h
  have hskip := Place.skip_after [] (before ++ rest) []
  rw [List.append_nil] at hskip
  change _ ≤ ((Place.after [] (before ++ rest)).skip _).offset
  rw [hskip]
  simp [Place.after, Text.byteLength_append]

/-- The root of a program is no comment. -/
theorem extra_of_program {tree : Concrete} (h : Grammar.program text = .ok tree) :
    tree.label.extra = false := by
  obtain ⟨_, _, _, _, -, -, rfl⟩ := Grammar.exists_run_of_program h
  rfl

/-- What is read as a program is sound, with all that is in it. -/
theorem sound_of_program {tree : Concrete} (h : Grammar.program text = .ok tree) :
    tree.Throughout Concrete.Sound := by
  obtain ⟨first, m, body, q, hfirst, hbody, rfl⟩ := Grammar.exists_run_of_program h
  have hstart : (Place.start text).LiesOn text := ⟨[], text, rfl, rfl⟩
  have hp := ReadInvariant.place_skip (I := keepsToText text) hstart (spaceLength text)
  have hm := (Grammar.reads_iff.mp Grammar.hashBang_reads _ _ _ hp hfirst).1
  have hq := (Grammar.reads_iff.mp (Grammar.programBody_reads _ _) _ _ _ hm hbody).1
  have hle := Place.LiesOn.offset_le (ReadInvariant.place_afterGap (I := keepsToText text) hq)
  have hrow := (Grammar.hashBang_ok hfirst).append (Nat.le_refl _) (Grammar.programBody_ok hbody)
  exact Concrete.throughout_of_lined (hrow.mono (Nat.le_refl _) hle).1
    (Concrete.fieldsInOrder_of_bare hrow.2)
    (Concrete.followsGrammar_of_isFreeName (show Concrete.IsFreeName "program" by decide) rfl)

end CallChain.JavaScript
