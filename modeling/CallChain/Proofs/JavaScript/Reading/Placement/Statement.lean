import CallChain.Proofs.JavaScript.Reading.Statement
import CallChain.Proofs.JavaScript.Reading.Placement.Expression

/-!
# Where statements are read

Imports, exports and statements, given that the phrases inside them are found behind the gap.
-/
namespace CallChain.JavaScript.Grammar

open Concrete

variable {p q : Place} {c : Concrete} {cs : List Concrete} {kind word : String} {lo : Nat} {s : Scope}

section Looks

@[grind →] theorem nextIsLet_ok {r : Bool} (h : nextIsLet p = .ok (r, q)) : q = p := by
  simp only [nextIsLet, bind_eq_ok, ite_eq_ok, get_eq_ok, set_eq_ok, pure_eq_ok] at h
  grind

@[grind →] theorem nextIsLabel_ok {r : Bool} (h : nextIsLabel p = .ok (r, q)) : q = p := by
  simp only [nextIsLabel, bind_eq_ok, ite_eq_ok, get_eq_ok, set_eq_ok, pure_eq_ok] at h
  grind

@[grind →] theorem nextIsImportValue_ok {r : Bool} (h : nextIsImportValue p = .ok (r, q)) : q = p := by
  simp only [nextIsImportValue, bind_eq_ok, get_eq_ok, set_eq_ok, pure_eq_ok] at h
  grind

@[grind →] theorem nextIsNamedFunction_ok {r : Bool} (h : nextIsNamedFunction p = .ok (r, q)) :
    q = p := by
  simp only [nextIsNamedFunction, bind_eq_ok, ite_eq_ok, get_eq_ok, set_eq_ok, pure_eq_ok] at h
  grind

@[grind →] theorem nextIsNamedClass_ok {r : Bool} (h : nextIsNamedClass p = .ok (r, q)) : q = p := by
  simp only [nextIsNamedClass, bind_eq_ok, ite_eq_ok, get_eq_ok, set_eq_ok, pure_eq_ok] at h
  grind

end Looks

@[grind →] theorem loopOperator_ok (h : loopOperator p = .ok (c, q)) : Marks p c q := by
  simp only [loopOperator, bind_eq_ok, ite_eq_ok] at h
  grind

theorem jumpStatement_ok (h : jumpStatement word kind p = .ok (c, q)) (hword : IsLeafName word)
    (hkind : IsFreeName kind) : Finds p c q := by
  simp only [jumpStatement, bind_eq_ok, ite_eq_ok, get_eq_ok, pure_eq_ok] at h
  grind

@[grind →] theorem debuggerStatement_ok (h : debuggerStatement p = .ok (c, q)) : Finds p c q := by
  simp only [debuggerStatement, bind_eq_ok, get_eq_ok, pure_eq_ok] at h
  grind

@[grind →] theorem quoted_ok (h : quoted s p = .ok (c, q)) : Finds p c q := by
  simp only [quoted, bind_eq_ok, ite_eq_ok] at h
  grind

@[grind →] theorem exportName_ok (h : exportName s p = .ok (c, q)) : Finds p c q := by
  simp only [exportName, bind_eq_ok, ite_eq_ok] at h
  grind

@[grind →] theorem fromClause_ok (h : fromClause s p = .ok (cs, q)) : Row p.offset cs q.offset := by
  simp only [fromClause, bind_eq_ok, pure_eq_ok] at h
  grind

theorem specifier_ok (h : specifier s kind p = .ok (c, q)) (hkind : IsFreeName kind) : Finds p c q := by
  simp only [specifier, bind_eq_ok, ite_eq_ok, pure_eq_ok] at h
  grind

grind_pattern specifier_ok => specifier s kind p, Except.ok (c, q)

theorem specifiers_ok {kind' : String} (h : specifiers s kind kind' p = .ok (c, q))
    (hkind : IsFreeName kind) (hkind' : IsFreeName kind') : Finds p c q :=
  listed_ok (by grind) hkind (by decide) (by decide) h

grind_pattern specifiers_ok => specifiers s kind kind' p, Except.ok (c, q)

theorem starAs_ok (h : starAs s kind p = .ok (c, q)) (hkind : IsFreeName kind) : Finds p c q := by
  simp only [starAs, bind_eq_ok, pure_eq_ok] at h
  grind

grind_pattern starAs_ok => starAs s kind p, Except.ok (c, q)

@[grind →] theorem importedNames_ok (h : importedNames s p = .ok (c, q)) : Finds p c q := by
  simp only [importedNames, bind_eq_ok, ite_eq_ok] at h
  grind

@[grind →] theorem importClause_ok (h : importClause s p = .ok (c, q)) : Finds p c q := by
  simp only [importClause, bind_eq_ok, ite_eq_ok, pure_eq_ok] at h
  grind

theorem importStatement_ok {attributes : Parser Concrete}
    (hattributes : ∀ p c q, attributes p = .ok (c, q) → Finds p c q)
    (h : importStatement s attributes p = .ok (c, q)) : Finds p c q := by
  simp only [importStatement, bind_eq_ok, ite_eq_ok, get_eq_ok, pure_eq_ok, List.append_assoc,
    List.cons_append] at h
  obtain ⟨word, m, hword, _, m₁, hdouble, _, m₂, hsingle,
    ⟨-, source, m₃, hsource, _, _, ⟨rfl, rfl⟩, h⟩ |
    ⟨-, clause, m₃, hclause, source, m₄, hsource, _, _, ⟨rfl, rfl⟩, h⟩⟩ := h <;>
  obtain ⟨attributed, m₅, hattributed, ⟨-, mark, m₆, hmark, value, m₇, hvalue, _, _, ⟨rfl, rfl⟩, h⟩ |
    ⟨-, _, _, ⟨rfl, rfl⟩, h⟩⟩ := h
  · have hplaced : Placed m₅.offset (construct "import_attribute" [mark, value]) m₇.offset := by grind
    grind
  · grind
  · have hplaced : Placed m₅.offset (construct "import_attribute" [mark, value]) m₇.offset := by grind
    grind
  · grind

section Phrases

variable (hs : FindsPhrases s)
include hs

theorem exportDefault_ok {mark : Concrete} (h : exportDefault s mark p = .ok (c, q))
    (hmark : Placed lo mark p.offset) : Placed lo c q.offset ∧ IsTree c := by
  simp only [exportDefault, bind_eq_ok, ite_eq_ok, get_eq_ok, pure_eq_ok] at h
  grind

@[grind →] theorem exportStatement_ok (h : exportStatement s p = .ok (c, q)) : Finds p c q := by
  simp only [exportStatement, bind_eq_ok, ite_eq_ok, get_eq_ok, set_eq_ok, pure_eq_ok,
    List.cons_append] at h
  obtain ⟨word, m, hword, plain, m₁, hplain,
    ⟨-, h⟩ | ⟨-, star, m₂, hstar, ⟨-, h⟩ | ⟨-, named, m₃, hnamed, h⟩⟩⟩ := h
  · grind [exportDefault_ok]
  · grind
  · grind

@[grind →] theorem statementsUntil_ok {ends : List Char → Bool}
    (h : statementsUntil s ends p = .ok (cs, q)) : Row p.offset cs q.offset := by
  refine many_ok (fun p r q h => ?_) _ h
  simp only [bind_eq_ok, ite_eq_ok, pure_eq_ok] at h
  grind

theorem block_ok {inExpression : Bool} (h : block s inExpression p = .ok (c, q)) : Finds p c q := by
  simp only [block, openBrace, bind_eq_ok, get_eq_ok, pure_eq_ok] at h
  grind

@[grind →] theorem declarator_ok (h : declarator s p = .ok (c, q)) : Finds p c q := by
  simp only [declarator, bind_eq_ok, pure_eq_ok] at h
  grind

theorem declaration_ok (h : declaration s word kind p = .ok (c, q)) (hword : IsLeafName word)
    (hkind : IsFreeName kind) : Finds p c q := by
  simp only [declaration, bind_eq_ok, get_eq_ok, pure_eq_ok] at h
  obtain ⟨mark, m, hmark, first, m₁, hfirst, more, m₂, hmore, h⟩ := h
  have hrow := many_ok (fun p r q h => by
    simp only [bind_eq_ok, ite_eq_ok, pure_eq_ok] at h
    grind) _ hmore
  grind

grind_pattern declaration_ok => declaration s word kind p, Except.ok (c, q)

@[grind →] theorem ifStatement_ok (h : ifStatement s p = .ok (c, q)) : Finds p c q := by
  simp only [ifStatement, bind_eq_ok, ite_eq_ok, pure_eq_ok, List.cons_append, List.nil_append] at h
  obtain ⟨word, m, hword, condition, m₁, hcondition, consequence, m₂, hconsequence, _, m₃, helse,
    ⟨-, mark, m₄, hmark, alternative, m₅, halternative, rfl, rfl⟩ | ⟨-, rfl, rfl⟩⟩ := h
  · have hclause : Placed m₂.offset (construct "else_clause" [mark, alternative]) m₅.offset :=
      placed_elseClause (by grind) (by grind) (by grind)
    refine ⟨placed_ifElseStatement ?_ ?_ ?_ ?_ ?_ rfl, ?_⟩ <;> grind
  · refine ⟨placed_ifStatement ?_ ?_ ?_ ?_, ?_⟩ <;> grind

@[grind →] theorem itemsHead_ok (h : itemsHead s p = .ok (cs, q)) : Row p.offset cs q.offset := by
  simp only [itemsHead, bind_eq_ok, ite_eq_ok, pure_eq_ok] at h
  grind

@[grind →] theorem headPart_ok (h : headPart s p = .ok (cs, q)) : Row p.offset cs q.offset := by
  simp only [headPart, bind_eq_ok, ite_eq_ok, pure_eq_ok] at h
  grind [stop_construct]

@[grind →] theorem countingHead_ok (h : countingHead s p = .ok (cs, q)) : Row p.offset cs q.offset := by
  simp only [countingHead, bind_eq_ok, ite_eq_ok, pure_eq_ok, List.append_assoc] at h
  grind

@[grind →] theorem forStatement_ok (h : forStatement s p = .ok (c, q)) : Finds p c q := by
  simp only [forStatement, bind_eq_ok, get_eq_ok] at h
  obtain ⟨word, m, hword, waiting, m₁, hwaiting, opening, m₂, hopening, _, _, ⟨rfl, rfl⟩, h⟩ := h
  have hrow := (keyword?_ok hwaiting (by decide)).row
  -- The head of a loop over items is tried at the same place, outside the run.
  cases hitems : itemsHead s m₂ with
  | ok result =>
    simp only [hitems, bind_eq_ok, set_eq_ok, pure_eq_ok, List.append_assoc, List.cons_append] at h
    obtain ⟨_, _, rfl, closing, m₄, hclosing, body, m₅, hbody, rfl, rfl⟩ := h
    have hhead := itemsHead_ok hs hitems
    have htail : Row m₁.offset (opening :: (result.1 ++ [closing, body])) m₅.offset := by grind
    grind
  | error fault =>
    simp only [hitems, bind_eq_ok, pure_eq_ok, List.append_assoc, List.cons_append] at h
    obtain ⟨head, m₃, hhead, closing, m₄, hclosing, body, m₅, hbody, rfl, rfl⟩ := h
    have htail : Row m₁.offset (opening :: (head ++ [closing, body])) m₅.offset := by grind
    grind

@[grind →] theorem whileStatement_ok (h : whileStatement s p = .ok (c, q)) : Finds p c q := by
  simp only [whileStatement, bind_eq_ok, pure_eq_ok] at h
  grind

@[grind →] theorem doStatement_ok (h : doStatement s p = .ok (c, q)) : Finds p c q := by
  simp only [doStatement, bind_eq_ok, ite_eq_ok, get_eq_ok, pure_eq_ok, List.cons_append,
    List.nil_append] at h
  grind

@[grind →] theorem switchCase_ok (h : switchCase s p = .ok (c, q)) : Finds p c q := by
  simp only [switchCase, bind_eq_ok, ite_eq_ok, pure_eq_ok, List.cons_append, List.nil_append] at h
  grind

@[grind →] theorem switchStatement_ok (h : switchStatement s p = .ok (c, q)) : Finds p c q := by
  simp only [switchStatement, openBrace, bind_eq_ok, pure_eq_ok] at h
  obtain ⟨word, m, hword, value, m₁, hvalue, opening, m₂, hopening, cases, m₃, hcases, closing, m₄,
    hclosing, rfl, rfl⟩ := h
  have hrow := many_ok (fun p r q h => by
    simp only [bind_eq_ok, ite_eq_ok, pure_eq_ok] at h
    grind) _ hcases
  have hbody : Placed m₁.offset (construct "switch_body" (opening :: cases ++ [closing])) m₄.offset := by
    grind
  grind

@[grind →] theorem catchClause_ok (h : catchClause s p = .ok (c, q)) : Finds p c q := by
  simp only [catchClause, bind_eq_ok, ite_eq_ok, pure_eq_ok, List.cons_append] at h
  grind

@[grind →] theorem tryStatement_ok (h : tryStatement s p = .ok (c, q)) : Finds p c q := by
  simp only [tryStatement, bind_eq_ok, ite_eq_ok, pure_eq_ok, List.cons_append] at h
  obtain ⟨word, m, hword, body, m₁, hbody, caught, m₂, hcaught,
    ⟨-, clause, m₃, hclause, handler, m₄, ⟨rfl, rfl⟩, h⟩ | ⟨-, handler, m₄, ⟨rfl, rfl⟩, h⟩⟩ := h <;>
  obtain ⟨closed, m₅, hclosed, ⟨-, mark, m₆, hmark, last, m₇, hlast, _, _, ⟨rfl, rfl⟩, rfl, rfl⟩ |
    ⟨-, _, _, ⟨rfl, rfl⟩, rfl, rfl⟩⟩ := h
  · have hplaced : Placed m₅.offset (construct "finally_clause" [mark, last]) m₇.offset := by grind
    grind
  · grind
  · have hplaced : Placed m₅.offset (construct "finally_clause" [mark, last]) m₇.offset := by grind
    grind
  · grind

@[grind →] theorem withStatement_ok (h : withStatement s p = .ok (c, q)) : Finds p c q := by
  simp only [withStatement, bind_eq_ok, pure_eq_ok] at h
  grind

theorem valueStatement_ok {bare : Bool} (h : valueStatement s word kind bare p = .ok (c, q))
    (hword : IsLeafName word) (hkind : IsFreeName kind) : Finds p c q := by
  simp only [valueStatement, bind_eq_ok, ite_eq_ok, get_eq_ok, pure_eq_ok] at h
  grind

@[grind →] theorem expressionStatement_ok (h : expressionStatement s p = .ok (c, q)) : Finds p c q := by
  simp only [expressionStatement, bind_eq_ok, get_eq_ok, pure_eq_ok] at h
  grind [placed_expressionStatement]

@[grind →] theorem labeledOrExpression_ok (h : labeledOrExpression s p = .ok (c, q)) : Finds p c q := by
  simp only [labeledOrExpression, bind_eq_ok, ite_eq_ok, pure_eq_ok] at h
  grind

theorem wordStatement_ok (h : wordStatement s word p = .ok (c, q)) : Finds p c q := by
  unfold wordStatement at h
  rw [eq_ok_iff] at h
  obtain ⟨x, hx, h⟩ := h
  split at hx <;> subst hx <;> try simp only [bind_eq_ok, ite_eq_ok] at h
  all_goals grind [jumpStatement_ok, valueStatement_ok, importStatement_ok]

theorem statement_ok (h : statement s p = .ok (c, q)) : Finds p c q := by
  simp only [statement, bind_eq_ok, get_eq_ok] at h
  obtain ⟨_, _, ⟨rfl, rfl⟩, h⟩ := h
  rw [eq_ok_iff] at h
  obtain ⟨x, hx, h⟩ := h
  split at hx <;> subst hx
  · exact hs.phrase_ok h
  · simp only [bind_eq_ok, pure_eq_ok] at h
    grind
  · simp only [ite_eq_ok, throw_ne_ok, and_false, false_or] at h
    exact wordStatement_ok hs h.2

end Phrases

end CallChain.JavaScript.Grammar
