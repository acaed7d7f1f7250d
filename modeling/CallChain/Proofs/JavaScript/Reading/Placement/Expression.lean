import CallChain.Proofs.JavaScript.Reading.Expression
import CallChain.Proofs.JavaScript.Reading.Placement.Token

/-!
# Where expressions are read

Patterns, functions, markup and expressions, given that the phrases inside them are found behind the gap.
-/
namespace CallChain.JavaScript.Grammar

open Concrete

variable {p q : Place} {c left : Concrete} {cs : List Concrete} {kind word : String} {n lo : Nat}
  {s : Scope}

@[grind →] theorem privateName_ok (h : privateName p = .ok (c, q)) : Finds p c q := by
  simp only [privateName, bind_eq_ok] at h
  obtain ⟨rest, m, hrest, h⟩ := h
  rw [eq_ok_iff] at h
  obtain ⟨x, hx, h⟩ := h
  split at hx <;> subst hx <;> simp only [ite_eq_ok, fail_eq_ok] at h
  grind

theorem member_ok {mark : Concrete} {m : Place} (h : appended.member left mark p = .ok (c, q))
    (hleft : Placed lo left m.offset) (htree : IsTree left) (hmark : Placed m.offset mark p.offset)
    (hmark' : ¬ IsTree mark) : Placed lo c q.offset ∧ IsTree c := by
  simp only [appended.member, bind_eq_ok, ite_eq_ok, pure_eq_ok] at h
  grind [placed_member]

section Looks

@[grind →] theorem nextIsAsyncFunction_ok {r : Bool} (h : nextIsAsyncFunction p = .ok (r, q)) :
    q = p := by
  simp only [nextIsAsyncFunction, bind_eq_ok, ite_eq_ok, get_eq_ok, set_eq_ok, pure_eq_ok] at h
  grind

@[grind →] theorem nextIsEquals_ok {r : Bool} (h : nextIsEquals p = .ok (r, q)) : q = p := by
  simp only [nextIsEquals, bind_eq_ok, pure_eq_ok] at h
  grind

end Looks

/-- What stands before a name is read before it, if there is any of it. -/
theorem modifier?_ok {mayFollow : List Char → Bool} (h : modifier? word mayFollow p = .ok (cs, q))
    (hword : IsLeafName word) : MayMark p cs q := by
  simp only [modifier?, bind_eq_ok, ite_eq_ok, get_eq_ok, set_eq_ok, pure_eq_ok] at h
  grind

grind_pattern modifier?_ok => modifier? word mayFollow p, Except.ok (cs, q)

@[grind →] theorem methodModifiers_ok (h : methodModifiers p = .ok (cs, q)) :
    Row p.offset cs q.offset := by
  simp only [methodModifiers, bind_eq_ok, ite_eq_ok, pure_eq_ok] at h
  grind

@[grind →] theorem functionHead_ok {r : List Concrete × Bool × Bool}
    (h : functionHead p = .ok (r, q)) : Row p.afterGap.offset r.1 q.offset := by
  simp only [functionHead, bind_eq_ok, ite_eq_ok, pure_eq_ok, List.append_assoc,
    List.cons_append] at h
  grind

theorem markupWord_ok (h : markupWord kind p = .ok (c, q)) (hkind : IsLeafName kind)
    (hmark : ¬ IsMark kind) : Finds p c q ∧ c.kind = kind ∧ c.children = [] := by
  simp only [markupWord, bind_eq_ok, ite_eq_ok, fail_eq_ok] at h
  grind

grind_pattern markupWord_ok => markupWord kind p, Except.ok (c, q)

theorem dottedName_ok (h : dottedName left n p = .ok (c, q)) (hleft : Placed lo left p.offset)
    (htree : IsTree left) : Placed lo c q.offset ∧ IsTree c := by
  induction n generalizing left p with
  | zero => simp only [dottedName, fail_eq_ok] at h
  | succ n ih =>
    simp only [dottedName, bind_eq_ok, ite_eq_ok, pure_eq_ok] at h
    grind [placed_member]

grind_pattern dottedName_ok => dottedName left n p, Except.ok (c, q), Placed lo left p.offset

theorem namespaced_ok (h : namespaced left kind p = .ok (c, q)) (hkind : IsLeafName kind)
    (hmark : ¬ IsMark kind) (hleft : Placed lo left p.offset) (htree : IsTree left)
    (hchildren : left.children = []) : Placed lo c q.offset ∧ IsTree c := by
  obtain ⟨l, ds⟩ := left
  obtain rfl : ds = [] := hchildren
  have hleaf : Placed lo (node { l with kind } []) p.offset :=
    placed_leaf hkind hleft.start (le_of_throughout hleft.sound) hleft.stop hleft.role
  have htree' : IsTree (node { l with kind } []) := ⟨htree.1, hmark⟩
  simp only [namespaced, label, children, bind_eq_ok, ite_eq_ok, pure_eq_ok] at h
  grind

grind_pattern namespaced_ok => namespaced left kind p, Except.ok (c, q), Placed lo left p.offset

@[grind →] theorem elementName_ok (h : elementName s p = .ok (c, q)) : Finds p c q := by
  simp only [elementName, bind_eq_ok, ite_eq_ok] at h
  grind

@[grind →] theorem markupString_ok {quote : Char} (h : markupString s quote p = .ok (c, q)) :
    Finds p c q := by
  have hquote : IsLeafName quote.toString := isLeafName_of_length (by simp)
  simp only [markupString, bind_eq_ok, pure_eq_ok] at h
  obtain ⟨first, m, hfirst, inner, m', hinner, last, _, hlast, rfl, rfl⟩ := h
  have hrow := many_ok (fun p r q h => by
    simp only [bind_eq_ok, get_eq_ok, ite_eq_ok, pure_eq_ok, fail_eq_ok] at h
    grind) _ hinner
  grind

@[grind →] theorem importValue_ok (h : importValue p = .ok (c, q)) : Finds p c q := by
  simp only [importValue, bind_eq_ok] at h
  obtain ⟨word, m, hword, h⟩ := h
  obtain ⟨hplaced, hproper, hkind, -⟩ := leafAhead_ok hword (by decide)
  have hplain : Placed p.afterGap.offset (node { word.label with named := false } []) m.offset :=
    placed_leaf (show IsLeafName word.kind by rw [hkind]; decide) hplaced.start
      (le_of_throughout hplaced.sound) hplaced.stop hplaced.role
  simp only [bind_eq_ok, ite_eq_ok, pure_eq_ok] at h
  grind

theorem literalOrPattern_ok {literal pattern : Parser Concrete}
    (hliteral : ∀ p c q, literal p = .ok (c, q) → Finds p c q)
    (hpattern : ∀ p c q, pattern p = .ok (c, q) → Finds p c q)
    (h : literalOrPattern literal pattern p = .ok (c, q)) : Finds p c q := by
  replace h := orElse_ok h
  simp only [bind_eq_ok, ite_eq_ok, fail_eq_ok, pure_eq_ok] at h
  grind

/-- Items in brackets. -/
theorem listed_ok {opening closing : String} {item : Parser Concrete}
    (hitem : ∀ p c q, item p = .ok (c, q) → Placed p.offset c q.offset) (hkind : IsFreeName kind)
    (hopening : IsLeafName opening) (hclosing : IsLeafName closing)
    (h : (do
      let first ← token opening
      let items ← commaSeparated n closing item
      let last ← token closing
      return construct kind (first :: items ++ [last]) : Parser Concrete) p = .ok (c, q)) :
    Finds p c q := by
  simp only [bind_eq_ok, pure_eq_ok] at h
  obtain ⟨first, m, hfirst, items, m', hitems, last, _, hlast, rfl, rfl⟩ := h
  have hrow := commaSeparated_ok hitem hitems
  grind

section Operators

theorem length_step_lt (rest : List Char) : (String.ofList (rest.take 2)).length < 11 := by
  rw [String.length_ofList, List.length_take]
  omega

theorem isLeafName_of_assignmentAt? {rest : List Char} (h : Operator.assignmentAt? rest = some word) :
    IsLeafName word := by
  have hall : ∀ word ∈ Operator.assignments, IsLeafName word := by decide
  exact hall word (List.mem_of_find?_eq_some h)

theorem isLeafName_of_at? {rest : List Char} {op : Operator} (h : Operator.at? rest = some op) :
    IsLeafName op.text := by
  have htable : ∀ op ∈ Operator.table, IsLeafName op.text := by decide
  have hwords : ∀ op ∈ Operator.words, IsLeafName op.text := by decide
  unfold Operator.at? at h
  split at h
  · cases h
  · rcases Option.or_eq_some_iff.mp h with h | ⟨-, h⟩
    · exact htable op (List.mem_of_find?_eq_some h)
    · exact hwords op (List.mem_of_find?_eq_some h)

end Operators

section Phrases

variable (hs : FindsPhrases s)
include hs

@[grind →] theorem propertyName_ok (h : propertyName s p = .ok (c, q)) : Finds p c q := by
  simp only [propertyName, bind_eq_ok] at h
  obtain ⟨rest, m, hrest, h⟩ := h
  rw [eq_ok_iff] at h
  obtain ⟨x, hx, h⟩ := h
  split at hx <;> subst hx <;> try simp only [bind_eq_ok, ite_eq_ok, pure_eq_ok] at h
  all_goals grind

theorem withDefault_ok (h : withDefault s kind left p = .ok (c, q)) (hkind : IsFreeName kind)
    (hleft : Placed lo left p.offset) (htree : IsTree left) : Placed lo c q.offset ∧ IsTree c := by
  simp only [withDefault, bind_eq_ok, ite_eq_ok, pure_eq_ok] at h
  grind

grind_pattern withDefault_ok => withDefault s kind left p, Except.ok (c, q), Placed lo left p.offset

@[grind →] theorem restPattern_ok (h : restPattern s p = .ok (c, q)) : Finds p c q := by
  simp only [restPattern, bind_eq_ok, pure_eq_ok] at h
  grind

@[grind →] theorem parameter_ok (h : parameter s p = .ok (c, q)) : Finds p c q := by
  simp only [parameter, bind_eq_ok, ite_eq_ok] at h
  grind

@[grind →] theorem arrayPattern_ok (h : arrayPattern s p = .ok (c, q)) : Finds p c q :=
  listed_ok (by grind) (by decide) (by decide) (by decide) h

@[grind →] theorem propertyPattern_ok (h : propertyPattern s p = .ok (c, q)) : Finds p c q := by
  simp only [propertyPattern, bind_eq_ok, ite_eq_ok, get_eq_ok, set_eq_ok, pure_eq_ok] at h
  grind

@[grind →] theorem objectPattern_ok (h : objectPattern s p = .ok (c, q)) : Finds p c q :=
  listed_ok (by grind) (by decide) (by decide) (by decide) h

@[grind →] theorem binding_ok (h : binding s p = .ok (c, q)) : Finds p c q := by
  simp only [binding, bind_eq_ok] at h
  obtain ⟨rest, m, hrest, h⟩ := h
  rw [eq_ok_iff] at h
  obtain ⟨x, hx, h⟩ := h
  split at hx <;> subst hx <;> grind

@[grind →] theorem formalParameters_ok (h : formalParameters s p = .ok (c, q)) : Finds p c q :=
  listed_ok (by grind) (by decide) (by decide) (by decide) h

@[grind →] theorem functionExpression_ok (h : functionExpression s p = .ok (c, q)) : Finds p c q := by
  simp only [functionExpression, bind_eq_ok, pure_eq_ok] at h
  obtain ⟨⟨head, generator, named⟩, m, hhead, h⟩ := h
  cases generator <;> grind

@[grind →] theorem functionDeclaration_ok (h : functionDeclaration s p = .ok (c, q)) : Finds p c q := by
  simp only [functionDeclaration, bind_eq_ok, ite_eq_ok, fail_eq_ok, pure_eq_ok] at h
  obtain ⟨⟨head, generator, named⟩, m, hhead, h⟩ := h
  cases generator <;> grind

theorem arrowTail_ok (h : arrowTail s cs p = .ok (c, q)) (hcs : Row lo cs p.offset) :
    Placed lo c q.offset ∧ IsTree c := by
  simp only [arrowTail, bind_eq_ok, ite_eq_ok, pure_eq_ok] at h
  grind

grind_pattern arrowTail_ok => arrowTail s cs p, Except.ok (c, q), Placed lo c q.offset

theorem methodTail_ok (h : methodTail s cs p = .ok (c, q)) (hcs : Row lo cs p.offset) :
    Placed lo c q.offset ∧ IsTree c := by
  simp only [methodTail, bind_eq_ok, pure_eq_ok] at h
  grind

grind_pattern methodTail_ok => methodTail s cs p, Except.ok (c, q), Placed lo c q.offset

@[grind →] theorem initializer_ok (h : initializer s p = .ok (cs, q)) : Row p.offset cs q.offset := by
  simp only [initializer, bind_eq_ok, ite_eq_ok, pure_eq_ok] at h
  grind

@[grind →] theorem classMember_ok (h : classMember s p = .ok (cs, q)) : Row p.offset cs q.offset := by
  simp only [classMember, bind_eq_ok, ite_eq_ok, pure_eq_ok, List.append_assoc] at h
  obtain ⟨static, m, hstatic, brace, m', hbrace, ⟨-, body, m₁, hbody, rfl, rfl⟩ |
    ⟨-, modifiers, m₁, hmodifiers, key, m₂, hkey, paren, m₃, hparen, h⟩⟩ := h
  -- A row asks where a node in it ends. For a construct that is told by its own children, so it comes first.
  · have hplaced : Placed p.offset (construct "class_static_block" (static ++ [body])) m₁.offset := by
      grind
    grind
  · have hrow := (modifier?_ok hstatic (by decide)).row
    clear hstatic
    obtain ⟨-, method, m₄, hmethod, h⟩ | ⟨-, value, m₄, hvalue, h⟩ := h
    · have hplaced : Placed p.offset method m₄.offset := by grind
      grind
    · have hplaced : Placed p.offset
          (construct "field_definition" (static ++ (modifiers ++ key :: value))) m₄.offset := by grind
      grind

@[grind →] theorem classBody_ok (h : classBody s p = .ok (c, q)) : Finds p c q := by
  simp only [classBody, bind_eq_ok, pure_eq_ok] at h
  obtain ⟨opening, m, hopening, members, m', hmembers, closing, _, hclosing, rfl, rfl⟩ := h
  have hrow := many_ok (fun p r q h => by
    simp only [bind_eq_ok, ite_eq_ok, pure_eq_ok] at h
    grind) _ hmembers
  simp only [openBrace] at hopening
  grind

@[grind →] theorem classHeritage_ok (h : classHeritage s p = .ok (cs, q)) :
    Row p.offset cs q.offset := by
  simp only [classHeritage, bind_eq_ok, ite_eq_ok, pure_eq_ok] at h
  grind [stop_construct]

@[grind →] theorem classExpression_ok (h : classExpression s p = .ok (c, q)) : Finds p c q := by
  simp only [classExpression, bind_eq_ok, ite_eq_ok, pure_eq_ok, List.append_assoc,
    List.cons_append] at h
  grind

@[grind →] theorem classDeclaration_ok (h : classDeclaration s p = .ok (c, q)) : Finds p c q := by
  simp only [classDeclaration, bind_eq_ok, get_eq_ok, pure_eq_ok] at h
  grind

@[grind →] theorem spreadElement_ok (h : spreadElement s p = .ok (c, q)) : Finds p c q := by
  simp only [spreadElement, bind_eq_ok, pure_eq_ok] at h
  grind

@[grind →] theorem item_ok (h : item s p = .ok (c, q)) : Finds p c q := by
  simp only [item, bind_eq_ok, ite_eq_ok] at h
  grind

@[grind →] theorem arguments_ok (h : arguments s p = .ok (c, q)) : Finds p c q :=
  listed_ok (by grind) (by decide) (by decide) (by decide) h

@[grind →] theorem arrayLiteral_ok (h : arrayLiteral s p = .ok (c, q)) : Finds p c q :=
  listed_ok (by grind) (by decide) (by decide) (by decide) h

/-- A property may start with modifiers, whose gap is not looked at here. -/
@[grind →] theorem property_ok (h : property s p = .ok (c, q)) : Placed p.offset c q.offset := by
  simp only [property, bind_eq_ok, ite_eq_ok, get_eq_ok, set_eq_ok, fail_eq_ok, pure_eq_ok] at h
  grind

@[grind →] theorem objectLiteral_ok (h : objectLiteral s p = .ok (c, q)) : Finds p c q :=
  listed_ok (by grind) (by decide) (by decide) (by decide) h

@[grind →] theorem parenthesized_ok (h : parenthesized s p = .ok (c, q)) : Finds p c q := by
  simp only [parenthesized, bind_eq_ok, pure_eq_ok] at h
  grind [placed_parenthesized]

@[grind →] theorem parenthesizedOrArrow_ok (h : parenthesizedOrArrow s p = .ok (c, q)) :
    Finds p c q := by
  replace h := orElse_ok h
  simp only [bind_eq_ok, ite_eq_ok, fail_eq_ok, pure_eq_ok] at h
  grind

@[grind →] theorem asyncArrowHead?_ok {r : Option (List Concrete)}
    (h : asyncArrowHead? s p = .ok (r, q)) :
    r = none ∧ q = p ∨ ∃ head, r = some head ∧ Row p.afterGap.offset head q.offset := by
  replace h := orElse_ok h
  simp only [bind_eq_ok, ite_eq_ok, fail_eq_ok, pure_eq_ok] at h
  grind

@[grind →] theorem asyncOrName_ok (h : asyncOrName s p = .ok (c, q)) : Finds p c q := by
  simp only [asyncOrName, bind_eq_ok, ite_eq_ok] at h
  obtain ⟨_, m, hfunction, ⟨-, h⟩ | ⟨-, r, m', hhead, h⟩⟩ := h
  · grind
  · cases r <;> grind

@[grind →] theorem nameOrArrow_ok (h : nameOrArrow s p = .ok (c, q)) : Finds p c q := by
  simp only [nameOrArrow, bind_eq_ok, ite_eq_ok, pure_eq_ok] at h
  grind

theorem subscript_ok {marks : List Concrete} {m : Place}
    (h : appended.subscript s left marks p = .ok (c, q)) (hleft : Placed lo left m.offset)
    (htree : IsTree left) (hmarks : Row m.offset marks p.offset)
    (hmarks' : ∀ mark ∈ marks, ¬ IsTree mark) : Placed lo c q.offset ∧ IsTree c := by
  simp only [appended.subscript, bind_eq_ok, pure_eq_ok] at h
  grind [placed_subscript]

theorem appended_ok {ofNew : Bool} (h : appended s ofNew left n p = .ok (c, q))
    (hleft : Placed lo left p.offset) (htree : IsTree left) : Placed lo c q.offset ∧ IsTree c := by
  induction n generalizing left p with
  | zero => simp only [appended, fail_eq_ok] at h
  | succ n ih =>
    simp only [appended, bind_eq_ok, ite_eq_ok, pure_eq_ok] at h
    -- Whatever is appended makes a node that starts where `left` does, and reading goes on behind it.
    obtain ⟨rest, m, hrest,
      ⟨-, ⟨-, rfl, rfl⟩ | ⟨-, mark, m', hmark, behind, m₁, hbehind, h⟩⟩ | ⟨-, h⟩⟩ := h
    · grind
    · obtain rfl := upcoming_ok hrest
      obtain rfl := upcoming_ok hbehind
      obtain ⟨hplaced, -, hkind, -⟩ := leafAhead_ok hmark (by decide)
      have hmark' : ¬ IsTree mark := by grind
      rw [eq_ok_iff] at h
      obtain ⟨x, hx, h⟩ := h
      split at hx <;> subst hx <;> simp only [bind_eq_ok] at h
      · obtain ⟨next, m₂, hnext, h⟩ := h
        obtain ⟨hnext, htree⟩ := subscript_ok hs hnext hleft htree (by grind) (by grind)
        exact ih h hnext htree
      · obtain ⟨args, m₂, hargs, h⟩ := h
        obtain ⟨hargs, hargs'⟩ := arguments_ok hs hargs
        exact ih h (placed_call [mark] (by grind) htree (by grind) hargs') (by grind)
      · obtain ⟨next, m₂, hnext, h⟩ := h
        obtain ⟨hnext, htree⟩ := member_ok hnext hleft htree (by grind) hmark'
        exact ih h hnext htree
    · obtain rfl := upcoming_ok hrest
      rw [eq_ok_iff] at h
      obtain ⟨x, hx, h⟩ := h
      split at hx <;> subst hx <;> simp only [bind_eq_ok, ite_eq_ok, pure_eq_ok] at h
      · obtain ⟨dot, m₁, hdot, next, m₂, hnext, h⟩ := h
        obtain ⟨hdot, hdot'⟩ := token_ok hdot (by decide)
        obtain ⟨hnext, htree⟩ := member_ok hnext hleft htree (by grind) (by grind)
        exact ih h hnext htree
      · obtain ⟨next, m₂, hnext, h⟩ := h
        obtain ⟨hnext, htree⟩ := subscript_ok hs hnext hleft htree (by grind) (by grind)
        exact ih h hnext htree
      · obtain ⟨template, m₂, htemplate, h⟩ := h
        obtain ⟨htemplate, htemplate'⟩ := templateLiteral_ok hs htemplate
        exact ih h (placed_call [] (by grind) htree (by grind) htemplate') (by grind)
      · obtain ⟨-, rfl, rfl⟩ | ⟨-, args, m₂, hargs, h⟩ := h
        · exact ⟨hleft, htree⟩
        obtain ⟨hargs, hargs'⟩ := arguments_ok hs hargs
        exact ih h (placed_call [] (by grind) htree (by grind) hargs') (by grind)
      · grind

theorem primary_ok {nested : Parser Concrete} (hnested : ∀ p c q, nested p = .ok (c, q) → Finds p c q)
    (h : primary s nested p = .ok (c, q)) : Finds p c q := by
  simp only [primary, bind_eq_ok] at h
  obtain ⟨rest, m, hrest, h⟩ := h
  obtain rfl := upcoming_ok hrest
  rw [eq_ok_iff] at h
  obtain ⟨x, hx, h⟩ := h
  split at hx <;> subst hx
  · exact parenthesizedOrArrow_ok hs h
  · exact literalOrPattern_ok (by grind) (by grind) h
  · exact literalOrPattern_ok (by grind) (by grind) h
  · exact templateLiteral_ok hs h
  · exact stringLiteral_ok h
  · exact stringLiteral_ok h
  · exact regex_ok h
  · exact hs.phrase_ok h
  · exact privateName_ok h
  · have hword : ∀ word ∈ constantWords, IsLeafName word ∧ ¬ IsMark word := by decide
    simp only [ite_eq_ok, List.contains_iff_mem] at h
    grind

theorem newExpression_ok (h : newExpression s n p = .ok (c, q)) : Finds p c q := by
  induction n generalizing p c q with
  | zero => simp only [newExpression, fail_eq_ok] at h
  | succ n ih =>
    simp only [newExpression, bind_eq_ok, ite_eq_ok, pure_eq_ok] at h
    obtain ⟨word, m, hword, dotted, m₁, hdotted,
      ⟨-, h⟩ | ⟨-, base, m₂, hbase, built, m₃, hbuilt, h⟩⟩ := h
    · grind
    · obtain ⟨hbase, htree⟩ := primary_ok hs (fun _ _ _ => ih) hbase
      obtain ⟨hbuilt, -⟩ := appended_ok hs hbuilt hbase htree
      grind [placed_newExpression]

@[grind →] theorem operand_ok (h : operand s p = .ok (c, q)) : Finds p c q := by
  simp only [operand, bind_eq_ok] at h
  obtain ⟨base, m, hbase, h⟩ := h
  obtain ⟨hbase, htree⟩ := primary_ok hs (fun _ _ _ => newExpression_ok hs) hbase
  exact appended_ok hs h hbase htree

theorem assigned_ok (h : assigned s left p = .ok (c, q)) (hleft : Placed lo left p.offset)
    (htree : IsTree left) : Placed lo c q.offset ∧ IsTree c := by
  simp only [assigned, bind_eq_ok, ite_eq_ok, pure_eq_ok] at h
  obtain ⟨rest, m, hrest, broken, m₁, hbroken, ⟨-, step, m₂, hstep, rfl, rfl⟩ |
    ⟨-, ⟨-, h⟩ | ⟨-, h⟩⟩⟩ := h
  · have hname := isLeafName_of_length (length_step_lt rest)
    grind
  · grind
  · cases hop : Operator.assignmentAt? rest with
    | none =>
      simp only [hop, pure_eq_ok] at h
      grind
    | some op =>
      have hname := isLeafName_of_assignmentAt? hop
      simp only [hop, bind_eq_ok, ite_eq_ok, pure_eq_ok] at h
      grind

@[grind →] theorem yieldExpression_ok (h : yieldExpression s p = .ok (c, q)) : Finds p c q := by
  simp only [yieldExpression, bind_eq_ok, ite_eq_ok, pure_eq_ok] at h
  grind

theorem marked_ok {mark : String} (hmark : IsLeafName mark) (h : unary.marked s mark p = .ok (c, q)) :
    Finds p c q := by
  simp only [unary.marked, bind_eq_ok, pure_eq_ok] at h
  grind

@[grind →] theorem unary_ok (h : unary s p = .ok (c, q)) : Finds p c q := by
  simp only [unary, bind_eq_ok, ite_eq_ok, pure_eq_ok] at h
  obtain ⟨rest, m, hrest, ⟨-, step, m₁, hstep, operand, m₂, hoperand, rfl, rfl⟩ | ⟨-, h⟩⟩ := h
  · have hname := isLeafName_of_length (length_step_lt rest)
    grind
  · obtain rfl := upcoming_ok hrest
    rw [eq_ok_iff] at h
    obtain ⟨x, hx, h⟩ := h
    split at hx <;> subst hx
    · exact marked_ok hs (by decide) h
    · exact marked_ok hs (by decide) h
    · exact marked_ok hs (by decide) h
    · exact marked_ok hs (by decide) h
    · have hword : ∀ word ∈ prefixWords, IsLeafName word := by decide
      simp only [ite_eq_ok, bind_eq_ok, pure_eq_ok, List.contains_iff_mem] at h
      obtain ⟨hmem, h⟩ | ⟨-, ⟨hawait, h⟩ | ⟨-, ⟨-, h⟩ | ⟨-, left, m', hleft, h⟩⟩⟩ := h
      · have hname := hword _ hmem
        grind
      · rw [hawait] at h
        grind
      · grind
      · obtain ⟨hleft, htree⟩ := operand_ok hs hleft
        exact assigned_ok hs h hleft htree

theorem operators_ok {level : Nat} (h : operators s level left n p = .ok (c, q))
    (hleft : Placed lo left p.offset) (htree : IsTree left) : Placed lo c q.offset ∧ IsTree c := by
  induction n generalizing left p with
  | zero => simp only [operators, fail_eq_ok] at h
  | succ n ih =>
    simp only [operators, bind_eq_ok] at h
    obtain ⟨rest, m, hrest, h⟩ := h
    obtain rfl := upcoming_ok hrest
    cases hop : Operator.at? rest with
    | some op =>
      have hname := isLeafName_of_at? hop
      simp only [hop, bind_eq_ok, ite_eq_ok, pure_eq_ok] at h
      obtain ⟨-, rfl, rfl⟩ | ⟨-, mark, m₁, hmark, right, m₂, hright, h⟩ := h
      · exact ⟨hleft, htree⟩
      · exact ih h (by grind) (by grind)
    | none =>
      simp only [hop, bind_eq_ok, ite_eq_ok, pure_eq_ok] at h
      obtain ⟨-, mark, m₁, hmark, consequence, m₂, hconsequence, colon, m₃, hcolon, alternative, m₄,
        halternative, rfl, rfl⟩ | ⟨-, rfl, rfl⟩ := h
      · have hrow : Row lo [left, mark, consequence, colon, alternative] m₄.offset := by
          simp only [row_cons, row_nil]
          grind
        exact ⟨placed_ternary hrow htree (by grind) (by grind) (by grind) (by grind),
          isTree_construct.mpr (by decide)⟩
      · exact ⟨hleft, htree⟩

theorem expressionAt_ok {level : Nat} (h : expressionAt s level p = .ok (c, q)) : Finds p c q := by
  simp only [expressionAt, bind_eq_ok] at h
  obtain ⟨left, m, hleft, h⟩ := h
  obtain ⟨hleft, htree⟩ := unary_ok hs hleft
  exact operators_ok hs h hleft htree

theorem expressions_ok (h : expressions s p = .ok (c, q)) : Finds p c q := by
  simp only [expressions, bind_eq_ok, ite_eq_ok, pure_eq_ok] at h
  obtain ⟨first, m, hfirst, comma, m₁, hcomma, ⟨-, more, m₂, hmore, h⟩ | ⟨-, h⟩⟩ := h
  · have hrow := many_ok (fun p r q h => by
      simp only [bind_eq_ok, ite_eq_ok, pure_eq_ok] at h
      grind) _ hmore
    grind
  · grind

theorem pattern_ok (h : pattern s p = .ok (c, q)) : Finds p c q := by
  simp only [pattern, bind_eq_ok] at h
  obtain ⟨rest, m, hrest, h⟩ := h
  rw [eq_ok_iff] at h
  obtain ⟨x, hx, h⟩ := h
  split at hx <;> subst hx <;> try simp only [fail_eq_ok] at h
  all_goals grind

/-! ### Markup -/

@[grind →] theorem markupExpression_ok (h : markupExpression s p = .ok (c, q)) : Finds p c q := by
  simp only [markupExpression, openBrace, closeBrace, bind_eq_ok, ite_eq_ok, pure_eq_ok] at h
  grind [stop_construct]

@[grind →] theorem attributeValue_ok (h : attributeValue s p = .ok (c, q)) : Finds p c q := by
  simp only [attributeValue, bind_eq_ok] at h
  obtain ⟨rest, m, hrest, h⟩ := h
  rw [eq_ok_iff] at h
  obtain ⟨x, hx, h⟩ := h
  split at hx <;> subst hx <;> grind

@[grind →] theorem markupAttribute_ok (h : markupAttribute s p = .ok (c, q)) : Finds p c q := by
  simp only [markupAttribute, bind_eq_ok, ite_eq_ok, pure_eq_ok] at h
  grind

@[grind →] theorem markupChild_ok {r : Option (List Concrete)} (h : markupChild s p = .ok (r, q)) :
    Row p.offset (r.getD []) q.offset := by
  simp only [markupChild, bind_eq_ok, get_eq_ok, modify_eq_ok, ite_eq_ok, pure_eq_ok] at h
  obtain ⟨_, _, ⟨rfl, rfl⟩, ⟨-, h⟩ | ⟨-, _, m, hskip, _, _, ⟨rfl, rfl⟩, h⟩⟩ := h
  · grind
  · have hle : p.offset ≤ m.offset := hskip ▸ p.offset_le_skip _
    clear hskip
    rw [eq_ok_iff] at h
    obtain ⟨x, hx, h⟩ := h
    split at hx <;> subst hx <;> simp only [bind_eq_ok, ite_eq_ok, fail_eq_ok, pure_eq_ok] at h <;>
      grind

theorem elementTail_ok (h : elementTail s left p = .ok (c, q)) (hleft : Placed lo left p.offset) :
    Placed lo c q.offset ∧ IsTree c := by
  simp only [elementTail, bind_eq_ok, pure_eq_ok, ite_eq_ok] at h
  obtain ⟨inner, m, hinner, slash, m₁, hslash, bare, m₂, hbare, h⟩ := h
  have hrow := many_ok (fun _ _ _ => markupChild_ok hs) _ hinner
  obtain ⟨title, m₃, htitle, close, m₄, hclose, rfl, rfl⟩ : ∃ title m₃,
      Row m₁.offset title m₃.offset ∧ ∃ close m₄, token ">" m₃ = .ok (close, m₄) ∧
        construct "jsx_element" (left :: inner ++
          [construct "jsx_closing_element" (slash :: title ++ [close])]) = c ∧ m₄ = q := by
    grind
  have hclosing : Placed m.offset (construct "jsx_closing_element" (slash :: title ++ [close]))
      m₄.offset := by grind
  grind

theorem markupElement_ok (h : markupElement s p = .ok (c, q)) : Finds p c q := by
  simp only [markupElement, bind_eq_ok, pure_eq_ok, ite_eq_ok] at h
  obtain ⟨bracket, m, hbracket, _, m₁, hbare, ⟨-, close, m₂, hclose, h⟩ |
    ⟨-, title, m₂, htitle, attributes, m₃, hattributes, h⟩⟩ := h
  · have hopening : Placed p.afterGap.offset (construct "jsx_opening_element" [bracket, close])
        m₂.offset := by grind
    exact elementTail_ok hs h hopening
  · have hrow := many_ok (fun p r q h => by
      simp only [bind_eq_ok, ite_eq_ok, pure_eq_ok] at h
      grind) _ hattributes
    obtain ⟨_, m₄, hslash, ⟨-, h⟩ | ⟨-, close, m₅, hclose, h⟩⟩ := h
    · grind
    · have hopening : Placed p.afterGap.offset
          (construct "jsx_opening_element" (bracket :: title :: attributes ++ [close])) m₅.offset := by
        grind
      exact elementTail_ok hs h hopening

end Phrases

end CallChain.JavaScript.Grammar
