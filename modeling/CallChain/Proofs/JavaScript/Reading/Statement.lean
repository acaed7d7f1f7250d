import CallChain.JavaScript.Reader
import CallChain.Proofs.JavaScript.Reading.Expression

/-!
# What the reading of statements and programs keeps

Imports, exports and statements, given that the phrases inside them keep it; then every unrolling of the
grammar, by induction on its depth, and the statements of a whole program.
-/
set_option mvcgen.warning false

namespace CallChain.JavaScript.Grammar

open Std.Do

variable {I : ReadInvariant}

@[spec] theorem nextIsNamedFunction_looks : Looks I nextIsNamedFunction := by
  mvcgen [nextIsNamedFunction] <;> simp_all

@[spec] theorem nextIsNamedClass_looks : Looks I nextIsNamedClass := by
  mvcgen [nextIsNamedClass] <;> simp_all

@[spec] theorem nextIsLet_looks : Looks I nextIsLet := by
  mvcgen [nextIsLet] <;> simp_all

@[spec] theorem nextIsLabel_looks : Looks I nextIsLabel := by
  mvcgen [nextIsLabel] <;> simp_all

@[spec] theorem nextIsImportValue_looks : Looks I nextIsImportValue := by
  mvcgen [nextIsImportValue] <;> simp_all

@[spec] theorem loopOperator_reads : ReadsTree I loopOperator := by
  have hword (word : String) : ReadsKind I word (keyword word) := keyword_reads word
  mvcgen [-keyword_reads, loopOperator, hword] <;> simp_all

@[spec] theorem jumpStatement_reads (word : String) {kind : String} (hkind : isPlain kind = true) :
    ReadsTree I (jumpStatement word kind) := by
  mvcgen [jumpStatement] <;> simp_all

@[spec] theorem debuggerStatement_reads : ReadsTree I debuggerStatement := by
  mvcgen [debuggerStatement] <;> simp_all

@[spec] theorem quoted_reads (s : Scope) : ReadsTree I (quoted s) := by
  mvcgen [quoted] <;> simp_all

@[spec] theorem exportName_reads (s : Scope) : ReadsTree I (exportName s) := by
  mvcgen [exportName] <;> simp_all

@[spec] theorem fromClause_reads (s : Scope) : ReadsTrees I (fromClause s) := by
  mvcgen [fromClause] <;> simp_all

@[spec] theorem specifier_reads (s : Scope) {kind : String} (hkind : isPlain kind = true) :
    ReadsTree I (specifier s kind) := by
  mvcgen [specifier] <;> simp_all

@[spec] theorem specifiers_reads (s : Scope) {kind itemKind : String} (hkind : isPlain kind = true)
    (hitem : isPlain itemKind = true) : ReadsTree I (specifiers s kind itemKind) := by
  mvcgen [specifiers] <;> simp_all

@[spec] theorem starAs_reads (s : Scope) {kind : String} (hkind : isPlain kind = true) :
    ReadsTree I (starAs s kind) := by
  mvcgen [starAs] <;> simp_all

@[spec] theorem importedNames_reads (s : Scope) : ReadsTree I (importedNames s) := by
  mvcgen [importedNames] <;> simp_all

@[spec] theorem importClause_reads (s : Scope) : ReadsTree I (importClause s) := by
  mvcgen [importClause] <;> simp_all

@[spec] theorem importStatement_reads (s : Scope) {attributes : Parser Concrete}
    (hattributes : ReadsTree I attributes) : ReadsTree I (importStatement s attributes) := by
  mvcgen [importStatement, hattributes] <;> simp_all

section Phrases

variable {s : Scope} (hs : Upholds I s)
include hs

@[spec] theorem exportDefault_reads {word : Concrete} (hword : I.tree word) :
    ReadsTree I (exportDefault s word) := by
  mvcgen [exportDefault] <;> simp_all

@[spec] theorem exportStatement_reads : ReadsTree I (exportStatement s) := by
  mvcgen [exportStatement] <;> simp_all

@[spec] theorem statementsUntil_reads (ends : List Char → Bool) :
    ReadsTrees I (statementsUntil s ends) := by
  mvcgen [statementsUntil] <;> simp_all

@[spec] theorem block_reads (inExpression : Bool) : ReadsTree I (block s inExpression) := by
  mvcgen [block] <;> simp_all

@[spec] theorem declarator_reads : ReadsTree I (declarator s) := by
  mvcgen [declarator] <;> simp_all

@[spec] theorem declaration_reads (word : String) {kind : String} (hkind : isPlain kind = true) :
    ReadsTree I (declaration s word kind) := by
  mvcgen [declaration] <;> simp_all

@[spec] theorem ifStatement_reads : ReadsTree I (ifStatement s) := by
  mvcgen [ifStatement] <;> simp_all +zetaDelta

@[spec] theorem itemsHead_reads : ReadsTrees I (itemsHead s) := by
  mvcgen [itemsHead] <;> simp_all

@[spec] theorem headPart_reads : ReadsTrees I (headPart s) := by
  mvcgen [headPart] <;> simp_all

@[spec] theorem countingHead_reads : ReadsTrees I (countingHead s) := by
  mvcgen [countingHead] <;> simp_all

@[spec] theorem forStatement_reads : ReadsTree I (forStatement s) := by
  -- The head over items is tried outside the reader, so its run is followed by hand.
  have hitems := reads_iff.mp (itemsHead_reads hs)
  have hover : isPlain "for_in_statement" = true := by decide
  have hcounting : isPlain "for_statement" = true := by decide
  mvcgen [forStatement] <;> grind [ReadInvariant.tree_construct, ReadInvariant.trees_cons,
    ReadInvariant.trees_append, ReadInvariant.trees_nil]

@[spec] theorem whileStatement_reads : ReadsTree I (whileStatement s) := by
  mvcgen [whileStatement] <;> simp_all

@[spec] theorem doStatement_reads : ReadsTree I (doStatement s) := by
  mvcgen [doStatement] <;> simp_all +zetaDelta

@[spec] theorem switchCase_reads : ReadsTree I (switchCase s) := by
  mvcgen [switchCase] <;> simp_all +zetaDelta

@[spec] theorem switchStatement_reads : ReadsTree I (switchStatement s) := by
  mvcgen [switchStatement] <;> simp_all

@[spec] theorem catchClause_reads : ReadsTree I (catchClause s) := by
  mvcgen [catchClause] <;> simp_all

@[spec] theorem tryStatement_reads : ReadsTree I (tryStatement s) := by
  mvcgen [tryStatement] <;> simp_all

@[spec] theorem withStatement_reads : ReadsTree I (withStatement s) := by
  mvcgen [withStatement] <;> simp_all

@[spec] theorem valueStatement_reads (word : String) {kind : String} (hkind : isPlain kind = true)
    (bare : Bool) : ReadsTree I (valueStatement s word kind bare) := by
  mvcgen [valueStatement] <;> simp_all

@[spec] theorem expressionStatement_reads : ReadsTree I (expressionStatement s) := by
  mvcgen [expressionStatement] <;> simp_all

@[spec] theorem labeledOrExpression_reads : ReadsTree I (labeledOrExpression s) := by
  mvcgen [labeledOrExpression] <;> simp_all

@[spec] theorem wordStatement_reads (word : String) : ReadsTree I (wordStatement s word) := by
  mvcgen [wordStatement] <;> simp_all

@[spec] theorem statement_reads : ReadsTree I (statement s) := by
  mvcgen [statement]
  simp_all

end Phrases

/-- Each unrolling of the grammar keeps what the one before it does. -/
theorem unrolled_reads (depth : Nat) (phrase : Phrase) : ReadsTree I (unrolled depth phrase) := by
  induction depth generalizing phrase with
  | zero => exact fail_reads _
  | succ depth ih =>
    have hs : Upholds I { phrase := unrolled depth, limit := depth } := ⟨ih⟩
    cases phrase with
    | statement => exact statement_reads hs
    | expression => exact expressionAt_reads hs _
    | expressions => exact expressions_reads hs
    | operand level => exact expressionAt_reads hs level
    | unary => exact unary_reads hs
    | pattern => exact pattern_reads hs
    | block inExpression => exact block_reads hs inExpression
    | element => exact markupElement_reads hs

theorem trees_commentsAhead {p : Place} (hp : I.place p) (n : Nat) : I.trees (commentsAhead n p) := by
  induction n generalizing p with
  | zero => exact ReadInvariant.trees_nil
  | succ n ih =>
    have hstart := ReadInvariant.place_skip hp (spaceLength p.rest)
    unfold commentsAhead
    dsimp only
    split
    · exact ReadInvariant.trees_nil
    · next k hcomment =>
      have hstop := ReadInvariant.place_skip hstart k
      exact ReadInvariant.trees_cons.mpr ⟨I.leaf (fun _ => by decide) hstart hstop, ih hstop⟩

@[spec] theorem hashBang_reads : ReadsTrees I hashBang := by mvcgen [hashBang] <;> simp_all

@[spec] theorem programBody_reads (depth n : Nat) : ReadsTrees I (programBody depth n) := by
  induction n with
  | zero => exact fail_reads _
  | succ n ih => mvcgen [programBody, unrolled_reads, ih] <;> simp_all +zetaDelta [trees_commentsAhead]

/-- What is read as a program is a root over nodes that keep the invariant, from one place to another. -/
theorem exists_of_program {text : List Char} {tree : Concrete} (hstart : I.place (.start text))
    (h : program text = .ok tree) :
    ∃ p q children, I.place p ∧ I.place q ∧ I.trees children ∧ tree =
      .node { kind := "program", named := true, extra := false, role := none, span := p.spanTo q }
        children := by
  obtain ⟨first, m, body, _, hfirst, hbody, rfl⟩ := exists_run_of_program h
  have hp := ReadInvariant.place_skip hstart (spaceLength text)
  have hq := ReadInvariant.place_skip hstart text.length
  obtain ⟨hm, hline⟩ := reads_iff.mp hashBang_reads _ _ _ hp hfirst
  obtain ⟨-, hrest⟩ := reads_iff.mp (programBody_reads _ _) _ _ _ hm hbody
  exact ⟨_, _, first ++ body, hp, hq, ReadInvariant.trees_append.mpr ⟨hline, hrest⟩, rfl⟩

end CallChain.JavaScript.Grammar
