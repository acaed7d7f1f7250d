import CallChain.Proofs.JavaScript.Reading.Placement.Basic

/-!
# Where tokens and literals are read

What each part of a run reads lies between the places where that part starts and ends, a token and a tree
behind the gap; so does what is made of it.
-/
namespace CallChain.JavaScript.Grammar

open Concrete

variable {α β : Type} {p q : Place} {c : Concrete} {cs : List Concrete} {kind word : String}
  {n : Nat} {s : Scope}

section Looks

@[grind →] theorem upcoming_ok {r : List Char} (h : upcoming p = .ok (r, q)) : q = p := by
  simp only [upcoming, bind_eq_ok, get_eq_ok, pure_eq_ok] at h
  grind

@[grind →] theorem nextIs_ok {r : Bool} (h : nextIs word p = .ok (r, q)) : q = p := by
  simp only [nextIs, bind_eq_ok, pure_eq_ok] at h
  grind

@[grind →] theorem nextIsWord_ok {r : Bool} (h : nextIsWord word p = .ok (r, q)) : q = p := by
  simp only [nextIsWord, bind_eq_ok, pure_eq_ok] at h
  grind

@[grind →] theorem breakAhead_ok {r : Bool} (h : breakAhead p = .ok (r, q)) : q = p := by
  simp only [breakAhead, bind_eq_ok, get_eq_ok, pure_eq_ok] at h
  grind

@[grind →] theorem atEnd_ok {r : Bool} (h : atEnd p = .ok (r, q)) : q = p := by
  simp only [atEnd, bind_eq_ok, get_eq_ok, pure_eq_ok] at h
  grind

end Looks

/-- A leaf of some name is read, right here or behind the gap. -/
theorem leaf_ok {named : Bool} (h : leaf kind named n p = .ok (c, q)) (hkind : IsLeafName kind) :
    Placed p.offset c q.offset ∧ c.isProper = named ∧ c.kind = kind ∧ c.children = [] := by
  cases h
  have hle := p.offset_le_skip n
  exact ⟨placed_leaf hkind (Nat.le_refl _) hle (Nat.le_refl _) rfl, Bool.and_true _, rfl, rfl⟩

grind_pattern leaf_ok => leaf kind named n p, Except.ok (c, q)

theorem leafAhead_ok {named : Bool} (h : leafAhead kind named n p = .ok (c, q))
    (hkind : IsLeafName kind) :
    Placed p.afterGap.offset c q.offset ∧ c.isProper = named ∧ c.kind = kind ∧ c.children = [] :=
  leaf_ok h hkind

grind_pattern leafAhead_ok => leafAhead kind named n p, Except.ok (c, q)

/-- A tree lies behind the gap before it. -/
@[grind =] def Finds (p : Place) (c : Concrete) (q : Place) : Prop :=
  Placed p.afterGap.offset c q.offset ∧ IsTree c

/-- So does a punctuator or a keyword. -/
@[grind =] def Marks (p : Place) (c : Concrete) (q : Place) : Prop :=
  Placed p.afterGap.offset c q.offset ∧ c.isProper = false

theorem token_ok (h : token word p = .ok (c, q)) (hword : IsLeafName word) : Marks p c q := by
  simp only [token, bind_eq_ok, ite_eq_ok, fail_eq_ok] at h
  grind

grind_pattern token_ok => token word p, Except.ok (c, q)

theorem keyword_ok (h : keyword word p = .ok (c, q)) (hword : IsLeafName word) : Marks p c q := by
  simp only [keyword, bind_eq_ok, ite_eq_ok, fail_eq_ok] at h
  grind

grind_pattern keyword_ok => keyword word p, Except.ok (c, q)

/-- A token that may be left out. -/
@[grind =] def MayMark (p : Place) (cs : List Concrete) (q : Place) : Prop :=
  cs = [] ∧ q = p ∨ ∃ c, cs = [c] ∧ Marks p c q

theorem MayMark.row (h : MayMark p cs q) : Row p.offset cs q.offset := by
  grind

theorem MayMark.append {m : Place} {ds : List Concrete} (h : MayMark p cs m)
    (hds : Row m.afterGap.offset ds n) : Row p.afterGap.offset (cs ++ ds) n := by
  grind

-- Only where such a row is asked for; each list of tokens would otherwise start one.
grind_pattern MayMark.append => MayMark p cs m, Row p.afterGap.offset (cs ++ ds) n

theorem token?_ok (h : token? word p = .ok (cs, q)) (hword : IsLeafName word) : MayMark p cs q := by
  simp only [token?, bind_eq_ok, ite_eq_ok, pure_eq_ok] at h
  grind

grind_pattern token?_ok => token? word p, Except.ok (cs, q)

theorem keyword?_ok (h : keyword? word p = .ok (cs, q)) (hword : IsLeafName word) : MayMark p cs q := by
  simp only [keyword?, bind_eq_ok, ite_eq_ok, pure_eq_ok] at h
  grind

grind_pattern keyword?_ok => keyword? word p, Except.ok (cs, q)

theorem name_ok (h : name kind p = .ok (c, q)) (hkind : IsLeafName kind) (hmark : ¬ IsMark kind) :
    Finds p c q := by
  simp only [name, bind_eq_ok, ite_eq_ok, fail_eq_ok] at h
  grind

grind_pattern name_ok => name kind p, Except.ok (c, q)

theorem many_ok {item : Parser (Option (List Concrete))}
    (hitem : ∀ p r q, item p = .ok (r, q) → Row p.offset (r.getD []) q.offset) :
    ∀ n {p cs q}, many item n p = .ok (cs, q) → Row p.offset cs q.offset
  | 0, _, _, _, h => by simp only [many, fail_eq_ok] at h
  | n + 1, p, cs, q, h => by
    have ih := @many_ok item hitem n
    simp only [many, bind_eq_ok] at h
    obtain ⟨_ | nodes, m, hfound, h⟩ := h
    · simp only [pure_eq_ok] at h
      grind
    · simp only [bind_eq_ok, pure_eq_ok] at h
      grind

theorem commaSeparated_ok {item : Parser Concrete} {limit : Nat} {close : String}
    (hitem : ∀ p c q, item p = .ok (c, q) → Placed p.offset c q.offset)
    (h : commaSeparated limit close item p = .ok (cs, q)) : Row p.offset cs q.offset := by
  refine many_ok (fun p r q h => ?_) limit h
  simp only [bind_eq_ok, ite_eq_ok, pure_eq_ok] at h
  grind

@[grind →] theorem closingBrace_ok (h : closingBrace p = .ok (c, q)) : Marks p c q := by
  simp only [closingBrace, closeBrace, bind_eq_ok, ite_eq_ok, get_eq_ok, throw_ne_ok] at h
  grind

theorem offset_le_omittedSemicolon? {inExpression : Bool} {n : Nat}
    (h : omittedSemicolon? inExpression n p = some q) : p.offset ≤ q.offset := by
  fun_induction omittedSemicolon? inExpression n p with
  | case1 => cases h
  | case2 n p hfits =>
    obtain rfl := Option.some.inj h
    exact Nat.le_refl _
  | case3 n p hfits between k hcomment ih =>
    exact (p.offset_le_skip _).trans ((Place.offset_le_skip k _).trans (ih h))
  | case4 => cases h

@[grind →] theorem semicolon_ok {inExpression : Bool} (h : semicolon inExpression p = .ok (cs, q)) :
    Row p.offset cs q.offset ∧ ∀ c ∈ cs, c.isProper = false := by
  simp only [semicolon, bind_eq_ok, ite_eq_ok, get_eq_ok, pure_eq_ok] at h
  obtain ⟨found, m, hnext, h | ⟨-, _, _, ⟨rfl, rfl⟩, h⟩⟩ := h
  · grind
  · cases homitted : omittedSemicolon? inExpression (m.rest.length + 1) m with
    | none => simp only [homitted, fail_eq_ok] at h
    | some q' =>
      have hle := offset_le_omittedSemicolon? homitted
      simp only [homitted, bind_eq_ok, set_eq_ok, pure_eq_ok] at h
      grind

@[grind →] theorem looseSemicolon_ok {inExpression : Bool} {r : Unit}
    (h : looseSemicolon inExpression p = .ok (r, q)) : p.offset ≤ q.offset := by
  simp only [looseSemicolon, bind_eq_ok, get_eq_ok] at h
  obtain ⟨_, m, ⟨rfl, rfl⟩, h⟩ := h
  cases homitted : omittedSemicolon? inExpression (p.rest.length + 1) p with
  | none =>
    simp only [homitted, pure_eq_ok] at h
    grind
  | some q' =>
    have hle := offset_le_omittedSemicolon? homitted
    simp only [homitted, set_eq_ok] at h
    grind

@[grind →] theorem escapeSequence_ok (h : escapeSequence p = .ok (c, q)) :
    Placed p.offset c q.offset := by
  simp only [escapeSequence, bind_eq_ok, get_eq_ok] at h
  obtain ⟨_, _, ⟨rfl, rfl⟩, h⟩ := h
  cases hlength : escapeLength? p.rest with
  | none => simp only [hlength, ite_eq_ok, throw_ne_ok, fail_eq_ok, and_false, or_false] at h
  | some n =>
    simp only [hlength] at h
    grind

/-- The names that are looked for are longer. -/
theorem isLeafName_of_length (h : word.length < 11) : IsLeafName word := by
  refine ⟨?_, ?_, ?_, ?_, ?_, ?_, ?_, ?_⟩ <;>
  · rintro rfl
    revert h
    decide

@[grind →] theorem stringLiteral_ok {quote : Char} (h : stringLiteral n quote p = .ok (c, q)) :
    Finds p c q := by
  have hquote : IsLeafName quote.toString := isLeafName_of_length (by simp)
  simp only [stringLiteral, bind_eq_ok, pure_eq_ok] at h
  obtain ⟨first, m, hfirst, inner, m', hinner, last, _, hlast, rfl, rfl⟩ := h
  have hrow := many_ok (fun p r q h => by
    simp only [bind_eq_ok, get_eq_ok, ite_eq_ok, pure_eq_ok, fail_eq_ok] at h
    grind) _ hinner
  grind

/-- Every phrase of the scope is read behind the gap. -/
def FindsPhrases (s : Scope) : Prop := ∀ phrase p c q, s.phrase phrase p = .ok (c, q) → Finds p c q

@[grind →] theorem FindsPhrases.phrase_ok {phrase : Phrase} (hs : FindsPhrases s)
    (h : s.phrase phrase p = .ok (c, q)) : Finds p c q :=
  hs phrase p c q h

@[grind →] theorem templateLiteral_ok (hs : FindsPhrases s) (h : templateLiteral s p = .ok (c, q)) :
    Finds p c q := by
  simp only [templateLiteral, bind_eq_ok, pure_eq_ok] at h
  obtain ⟨first, m, hfirst, inner, m', hinner, last, _, hlast, rfl, rfl⟩ := h
  have hrow := many_ok (fun p r q h => by
    simp only [bind_eq_ok, get_eq_ok, ite_eq_ok, pure_eq_ok] at h
    obtain ⟨_, _, ⟨rfl, rfl⟩, ⟨-, h⟩ | ⟨-, h⟩⟩ := h
    · grind
    · rw [eq_ok_iff] at h
      obtain ⟨x, hx, h⟩ := h
      split at hx <;> subst hx <;>
        simp only [openBrace, closeBrace, bind_eq_ok, pure_eq_ok, fail_eq_ok] at h <;>
        grind [stop_construct]) _ hinner
  grind

@[grind →] theorem regex_ok (h : regex p = .ok (c, q)) : Finds p c q := by
  simp only [regex, bind_eq_ok, get_eq_ok] at h
  obtain ⟨opening, m, hopening, _, _, ⟨rfl, rfl⟩, h⟩ := h
  cases hlength : regexLength? false m.rest with
  | none => simp only [hlength, ite_eq_ok, throw_ne_ok, fail_eq_ok, and_false, or_false] at h
  | some n =>
    simp only [hlength, bind_eq_ok, get_eq_ok, ite_eq_ok, pure_eq_ok] at h
    grind

@[grind →] theorem number_ok (h : number p = .ok (c, q)) : Finds p c q := by
  simp only [number, bind_eq_ok, ite_eq_ok, fail_eq_ok] at h
  grind

end CallChain.JavaScript.Grammar
