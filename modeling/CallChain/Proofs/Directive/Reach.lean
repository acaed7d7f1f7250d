import CallChain.FileContext
import CallChain.Proofs.Directive
import CallChain.Proofs.JavaScript.Reading.Spans
import CallChain.Proofs.Text.Offsets
import CallChain.Proofs.Text.Trim

/-!
# Allow comments and the lines of a tree

A tree counts line feeds, the search for allow comments splits the text into lines. Both come to the same
line for every byte of a text, and what the search finds there depends on that line and the one before it
alone. A carriage return at the end of a line is a blank and makes no difference to the comment on it.
-/
namespace CallChain

open CallChain.Text

namespace Directive

/-- A blank behind a line makes no difference to the comment on it. -/
theorem ofLine?_concat_blank {c : Char} (hc : isBlank c = true) (line : List Char) :
    ofLine? (line ++ [c]) = ofLine? line := by
  have hblank : Blank [c] := fun d hd => List.mem_singleton.mp hd ▸ hc
  have hslash : c ≠ '/' := by
    rintro rfl
    cases hc
  cases hsplit : splitFirst? ['/', '/'] line with
  | some cut =>
    obtain ⟨before, rest⟩ := cut
    have hcut := firstCut_of_splitFirst? (by decide) hsplit
    have hlonger : splitFirst? ['/', '/'] (line ++ [c]) = some (before, rest ++ [c]) := by
      refine splitFirst?_of_firstCut (by decide) ⟨?_, hcut.first⟩
      rw [hcut.text, List.append_assoc, List.append_assoc]
    rw [ofLine?, ofLine?, hlonger, hsplit, Option.bind_eq_bind, Option.bind_some, Option.bind_eq_bind,
      Option.bind_some]
    dsimp only
    rw [trim_append_blank hblank]
  | none =>
    have hlonger : splitFirst? ['/', '/'] (line ++ [c]) = none := by
      by_contra hsome
      obtain ⟨⟨before, rest⟩, hcut⟩ := Option.ne_none_iff_exists'.mp hsome
      have htext := (firstCut_of_splitFirst? (by decide) hcut).text
      rcases List.infix_concat_iff.mp ⟨before, rest, by rw [htext, List.append_assoc]⟩ with
        hsuffix | hinfix
      · exact hslash (pair_suffix_concat hsuffix).2.symm
      · obtain ⟨before, rest, hfirst⟩ := exists_firstCut (by decide) hinfix
        rw [splitFirst?_of_firstCut (by decide) hfirst] at hsplit
        cases hsplit
    rw [ofLine?, ofLine?, hlonger, hsplit]

theorem ofLine?_dropReturn (line : List Char) : ofLine? (dropReturn line) = ofLine? line := by
  unfold dropReturn
  split
  · next hlast =>
    obtain ⟨init, rfl⟩ := List.getLast?_eq_some_iff.mp hlast
    rw [List.dropLast_concat, ofLine?_concat_blank (by decide)]
  · rfl

theorem ofLine?_shownLine (line rest : List Char) :
    ofLine? (shownLine line rest) = ofLine? (dropReturn line) := by
  rw [shownLine_eq]
  split
  · rw [ofLine?_dropReturn]
  · rfl

/-- The line holds an allow comment that names the rule or all rules. -/
def Allows (line : List Char) (rule : String) : Prop :=
  ∃ directive, ofLine? line = some directive ∧ (rule ∈ directive.rules ∨ "all" ∈ directive.rules)

theorem isSome_filter_names_iff {line : List Char} {rule : String} :
    ((ofLine? line).filter (names · rule)).isSome = true ↔ Allows line rule := by
  rw [Option.isSome_iff_exists]
  simp only [Option.filter_eq_some_iff, names, Bool.or_eq_true, List.contains_iff_mem]
  rfl

end Directive

namespace Allowance

open CallChain.Directive (ofLine? names Allows)

/-- The answer for a line, with the line before it if there is one. -/
def ofLines (before : Option (List Char)) (line : List Char) (rule : String) : Allowance :=
  match ((before.bind ofLine?).filter (names · rule)).or ((ofLine? line).filter (names · rule)) with
  | some directive => allowed directive.reason
  | none => denied

variable {o : Nat} {content : String} {above : List (List Char)} {line rest : List Char}

/-- The search reads the line of the byte and the line before it, and nothing else. -/
theorem find_eq_ofLines (h : StandsOn o content.toList above line rest) (rule : String) :
    find content (lineOfByte o content) rule =
      ofLines (above.getLast?.map dropReturn) (dropReturn line) rule := by
  have hhere : Directive.onLine? content.toList (above.length + 1) rule =
      (ofLine? (dropReturn line)).filter (names · rule) := by
    rw [Directive.onLine?, h.line?_here, Option.bind_some, Directive.ofLine?_shownLine]
  have habove : Directive.onLine? content.toList above.length rule =
      ((above.getLast?.map dropReturn).bind ofLine?).filter (names · rule) := by
    rw [Directive.onLine?, h.line?_above]
  rw [h.lineOfByte_eq, find, Nat.add_sub_cancel, hhere, habove]
  rfl

theorem isAllowed_ofLines_iff {before : Option (List Char)} {rule : String} :
    (ofLines before line rule).isAllowed = true ↔
      Allows line rule ∨ ∃ l, before = some l ∧ Allows l rule := by
  have hsome : (ofLines before line rule).isAllowed = true ↔
      (((before.bind ofLine?).filter (names · rule)).or
        ((ofLine? line).filter (names · rule))).isSome = true := by
    unfold ofLines
    split
    · next hfound => simp [hfound, isAllowed]
    · next hfound => simp [hfound, isAllowed]
  rw [hsome, Option.isSome_or, Bool.or_eq_true, Directive.isSome_filter_names_iff, or_comm]
  refine or_congr_right ?_
  cases before with
  | none => simp
  | some l =>
    rw [Option.bind_some, Directive.isSome_filter_names_iff]
    simp

/-- Every byte stands on a line. Its number is at most that of the lines, and it is the line that a tree
gives to a token there. A rule is let pass at that number if and only if the line or the one before it
allows it; in two texts with these lines in common, the answers are the same, with their reasons. The line
with that number is the line of the byte, without a carriage return before its line feed. -/
theorem find_at_byte (content : String) (o : Nat) (ho : o < content.utf8ByteSize) (rule : String) :
    (∃ above line rest, StandsOn o content.toList above line rest) ∧
    ∀ above line rest, StandsOn o content.toList above line rest →
      lineOfByte o content = above.length + 1 ∧
      lineOfByte o content ≤ (lines content.toList).length ∧
      ((find content (lineOfByte o content) rule).isAllowed = true ↔
        Allows (dropReturn line) rule ∨
          ∃ last, above.getLast? = some last ∧ Allows (dropReturn last) rule) ∧
      (∀ content' o' above' line' rest', StandsOn o' content'.toList above' line' rest' →
        dropReturn line' = dropReturn line →
        above'.getLast?.map dropReturn = above.getLast?.map dropReturn →
        find content' (lineOfByte o' content') rule = find content (lineOfByte o content) rule) ∧
      (∀ ctx : FileContext, ctx.content = content → ctx.line? (lineOfByte o content) =
        some (String.ofList (if rest.isEmpty then line else dropReturn line))) ∧
      ∀ tree, JavaScript.parse content = .ok tree → ∀ t ∈ tree.tokens, t.span.start = o →
        t.span.startPos.line = lineOfByte o content := by
  rw [← byteLength_toList] at ho
  refine ⟨exists_standsOn ho, fun above line rest h => ⟨h.lineOfByte_eq, h.lineOfByte_le, ?_, ?_, ?_, ?_⟩⟩
  · rw [find_eq_ofLines h, isAllowed_ofLines_iff]
    simp only [Option.map_eq_some_iff, exists_exists_and_eq_and]
  · intro content' o' above' line' rest' h' hline habove
    rw [find_eq_ofLines h', find_eq_ofLines h, hline, habove]
  · rintro ctx rfl
    rw [FileContext.line?, h.lineOfByte_eq, h.line?_here, shownLine_eq, Option.map_some]
  · rintro tree hparse t ht rfl
    have hlies := JavaScript.parse_liesOn hparse t ht
    rw [lineOfByte_eq_lineAt hlies.start]
    exact congrArg Position.line hlies.startPos

/-- An allow comment before a line break of two characters, and a last line that ends in a carriage
return. -/
def returnAtEnd : String := "// chain-lint: allow(all)\r\nab\r"

theorem standsOn_returnAtEnd :
    StandsOn 28 returnAtEnd.toList ["// chain-lint: allow(all)\r".toList] "ab\r".toList [] :=
  ⟨by decide, by decide, by decide, Or.inl rfl, by decide, by decide, by decide⟩

theorem find_at_byte_returnAtEnd :
    28 < returnAtEnd.utf8ByteSize ∧
    StandsOn 28 returnAtEnd.toList ["// chain-lint: allow(all)\r".toList] "ab\r".toList [] ∧
    lineOfByte 28 returnAtEnd = 2 ∧
    (find returnAtEnd 2 "method-chaining").isAllowed = true ∧
    (FileContext.make ⟨"a.js"⟩ returnAtEnd ⟨"."⟩).line? 2 = some "ab\r" := by
  have hsize : 28 < returnAtEnd.utf8ByteSize := by decide
  obtain ⟨hnumber, -, hallowed, -, hline, -⟩ :=
    (find_at_byte returnAtEnd 28 hsize "method-chaining").2 _ _ _ standsOn_returnAtEnd
  rw [hnumber] at hallowed hline
  refine ⟨hsize, standsOn_returnAtEnd, hnumber, hallowed.mpr (Or.inr ⟨_, rfl, ?_⟩), hline _ rfl⟩
  exact ⟨⟨["all"], none⟩, by decide, Or.inr (List.mem_singleton.mpr rfl)⟩

/-- A carriage return that no line feed follows ends no line, and is not dropped. -/
theorem last_return_kept :
    let ctx := FileContext.make ⟨"a.js"⟩ "a\r" ⟨"."⟩
    StandsOn 0 ctx.content.toList [] "a\r".toList [] ∧ lineOfByte 0 ctx.content = 1 ∧
      ctx.line? (lineOfByte 0 ctx.content) = some "a\r" ∧
      ctx.line? (lineOfByte 0 ctx.content) ≠ some (String.ofList (dropReturn "a\r".toList)) := by
  intro ctx
  have hstands : StandsOn 0 ctx.content.toList [] "a\r".toList [] :=
    ⟨by decide, by decide, by decide, Or.inl rfl, by decide, by decide, by decide⟩
  have hnumber := hstands.lineOfByte_eq
  rw [hnumber]
  exact ⟨hstands, rfl, by decide, by decide⟩

end Allowance

end CallChain
