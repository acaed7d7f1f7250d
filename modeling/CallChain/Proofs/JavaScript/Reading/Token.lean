import CallChain.Proofs.JavaScript.Abstraction
import CallChain.Proofs.JavaScript.Reading.Run

/-!
# What reading keeps

A property of places that each step keeps, together with one of nodes that each way of making a node
keeps, is kept by the whole reader. `Reads` says so of one parser; each part of the grammar has a lemma
under its own name, here for tokens and literals. `reads_iff` says it in terms of runs.
-/
set_option mvcgen.warning false

namespace CallChain.JavaScript

open Std.Do

/-- The name of constructs that may have any children. -/
@[simp] def isPlain (kind : String) : Bool :=
  ["optional_chain", "?.", "parenthesized_expression", "call_expression", "if_statement"].all (· ≠ kind)

/-- What is kept while a text is read: a property of the places that the reader comes to and one of the
nodes that it makes there, with what has to be known of them for each way of making one. A `?.` is only
a part of the access that it stands in; calls and `if` statements say what their fields may be. -/
structure ReadInvariant where
  place : Place → Prop
  part : Concrete → Prop
  tree : Concrete → Prop
  step : ∀ {p}, place p → place p.step
  part_of_tree : ∀ {c}, tree c → part c
  mark : ∀ {p q}, place p → place q → part
    (.node { kind := "optional_chain", named := true, extra := false, role := none, span := p.spanTo q } [])
  leaf : ∀ {p q kind named extra}, (named = true → ¬ IsMark kind) → place p → place q →
    tree (.node { kind, named, extra, role := none, span := p.spanTo q } [])
  as : ∀ {c} (role : Role), tree (c.as role) ↔ tree c
  renamed : ∀ {c : Concrete} {kind : String}, isPlain kind = true → tree c →
    tree (.node { c.label with kind } c.children)
  bare : ∀ {c : Concrete}, tree c → tree (.node { c.label with named := false } [])
  construct : ∀ {cs} {kind : String}, isPlain kind = true → cs ≠ [] → (∀ c ∈ cs, part c) →
    tree (Grammar.construct kind cs)
  constructTo : ∀ {cs stop} {kind : String}, isPlain kind = true → cs ≠ [] → (∀ c ∈ cs, part c) →
    place stop → tree (Grammar.constructTo kind cs stop)
  parentheses : ∀ {cs}, cs ≠ [] → (∀ c ∈ cs, tree c) →
    tree (Grammar.construct "parenthesized_expression" cs)
  call : ∀ {cs}, cs ≠ [] → (∀ c ∈ cs, part c) →
    (∀ c ∈ cs, c.label.role = some .arguments → c.kind ≠ "parenthesized_expression") →
    tree (Grammar.construct "call_expression" cs)
  ifStatement : ∀ {cs}, cs ≠ [] → (∀ c ∈ cs, tree c) →
    (∀ c ∈ cs, c.label.role = some .alternative → c.kind ≠ "parenthesized_expression") →
    tree (Grammar.construct "if_statement" cs)

namespace ReadInvariant

variable {I : ReadInvariant} {p q : Place} {c : Concrete} {cs ds : List Concrete}

def trees (I : ReadInvariant) (cs : List Concrete) : Prop := ∀ c ∈ cs, I.tree c

def parts (I : ReadInvariant) (cs : List Concrete) : Prop := ∀ c ∈ cs, I.part c

@[simp] theorem parts_nil : I.parts [] := fun _ hc => by cases hc

@[simp] theorem parts_cons : I.parts (c :: cs) ↔ I.part c ∧ I.parts cs := List.forall_mem_cons

@[simp] theorem parts_append : I.parts (cs ++ ds) ↔ I.parts cs ∧ I.parts ds :=
  List.forall_mem_append

@[simp] theorem part_of_isTree (h : I.tree c) : I.part c := I.part_of_tree h

@[simp] theorem trees_nil : I.trees [] := fun _ hc => by cases hc

@[simp] theorem trees_cons : I.trees (c :: cs) ↔ I.tree c ∧ I.trees cs := List.forall_mem_cons

@[simp] theorem trees_append : I.trees (cs ++ ds) ↔ I.trees cs ∧ I.trees ds :=
  List.forall_mem_append

@[simp] theorem tree_construct {kind : String} (hkind : isPlain kind = true) (hne : cs ≠ [])
    (h : I.trees cs) : I.tree (Grammar.construct kind cs) :=
  I.construct hkind hne fun c hc => I.part_of_tree (h c hc)

@[simp] theorem tree_constructTo {kind : String} (hkind : isPlain kind = true) (hne : cs ≠ [])
    (h : I.trees cs) (hq : I.place q) : I.tree (Grammar.constructTo kind cs q) :=
  I.constructTo hkind hne (fun c hc => I.part_of_tree (h c hc)) hq

theorem tree_access {kind : String} (hkind : isPlain kind = true) (hne : cs ≠ []) (h : I.parts cs) :
    I.tree (Grammar.construct kind cs) := I.construct hkind hne h

@[simp] theorem tree_parentheses (hne : cs ≠ []) (h : I.trees cs) :
    I.tree (Grammar.construct "parenthesized_expression" cs) := I.parentheses hne h

@[simp] theorem tree_renamed {kind : String} (hkind : isPlain kind = true) (h : I.tree c) :
    I.tree (.node { c.label with kind } c.children) := I.renamed hkind h

@[simp] theorem tree_bare (h : I.tree c) : I.tree (.node { c.label with named := false } []) :=
  I.bare h

@[simp] theorem tree_as (role : Role) : I.tree (c.as role) ↔ I.tree c := I.as role

@[simp] theorem tree_call (hne : cs ≠ []) (h : I.parts cs)
    (hlist : ∀ c ∈ cs, c.label.role = some .arguments → c.kind ≠ "parenthesized_expression") :
    I.tree (Grammar.construct "call_expression" cs) := I.call hne h hlist

@[simp] theorem tree_ifStatement (hne : cs ≠ []) (h : I.trees cs)
    (hclause : ∀ c ∈ cs, c.label.role = some .alternative → c.kind ≠ "parenthesized_expression") :
    I.tree (Grammar.construct "if_statement" cs) := I.ifStatement hne h hclause

@[simp] theorem place_skip (h : I.place p) (n : Nat) : I.place (p.skip n) := by
  induction n generalizing p with
  | zero => exact h
  | succ n ih => exact ih (I.step h)

@[simp] theorem place_afterGap (h : I.place p) : I.place p.afterGap := place_skip h _

theorem place_of_omittedSemicolon? {inExpression : Bool} {n : Nat} (h : I.place p)
    (hq : omittedSemicolon? inExpression n p = some q) : I.place q := by
  fun_induction omittedSemicolon? inExpression n p with
  | case1 => cases hq
  | case2 n p hfits =>
    obtain rfl := Option.some.inj hq
    exact h
  | case3 n p hfits between k hcomment ih => exact ih (place_skip (place_skip h _) k) hq
  | case4 => cases hq

end ReadInvariant

@[simp] theorem Concrete.role_as (c : Concrete) (role : Role) : (c.as role).label.role = some role := rfl

@[simp] theorem Concrete.kind_as (c : Concrete) (role : Role) : (c.as role).kind = c.kind := rfl

namespace Grammar

variable {I : ReadInvariant} {p q : Place} {α : Type}

@[simp] theorem kind_construct (kind : String) (cs : List Concrete) :
    (construct kind cs).kind = kind := rfl

/-- From a place with the invariant the parser comes to another one, and what it reads has the
property. -/
abbrev Reads (I : ReadInvariant) (P : α → Prop) (x : Parser α) : Prop :=
  ⦃fun p => ⌜I.place p⌝⦄ x ⦃⇓? r => fun q => ⌜I.place q ∧ P r⌝⦄

/-- The parser finds something out and makes no node. -/
abbrev Looks (I : ReadInvariant) (x : Parser α) : Prop := Reads I (fun _ => True) x

abbrev ReadsTree (I : ReadInvariant) (x : Parser Concrete) : Prop := Reads I I.tree x

/-- A node that goes by this name. -/
abbrev ReadsKind (I : ReadInvariant) (kind : String) (x : Parser Concrete) : Prop :=
  Reads I (fun c => I.tree c ∧ c.kind = kind) x

abbrev ReadsTrees (I : ReadInvariant) (x : Parser (List Concrete)) : Prop := Reads I I.trees x

/-- An item of a list, or none at its end. -/
abbrev ReadsItem (I : ReadInvariant) (x : Parser (Option (List Concrete))) : Prop :=
  Reads I (fun found => ∀ cs, found = some cs → I.trees cs) x

theorem wp_of_ok {x : Parser α} {r : α} (h : x p = .ok (r, q))
    (post : PostCond α (.arg Place (.except Fault .pure))) : wp⟦x⟧ post p = post.1 r q := by
  simp only [WP.wp, PredTrans.apply_pushArg]
  rw [StateT.run, h]
  rfl

/-- The same, said of the runs that end. -/
theorem reads_iff {P : α → Prop} {x : Parser α} :
    Reads I P x ↔ ∀ p r q, I.place p → x p = .ok (r, q) → I.place q ∧ P r := by
  rw [Reads, Triple.iff]
  constructor
  · intro h p r q hp hrun
    have hpost := h p hp
    rw [wp_of_ok hrun] at hpost
    exact hpost
  · intro h p hp
    cases hrun : x p with
    | ok result =>
      rw [wp_of_ok hrun]
      exact h p result.1 result.2 hp hrun
    | error fault =>
      simp only [WP.wp, PredTrans.apply_pushArg]
      rw [StateT.run, hrun]
      trivial

/-- What the parser reads goes by this name. -/
def Yields (kind : String) (x : Parser Concrete) : Prop :=
  ∀ p r q, x p = .ok (r, q) → r.kind = kind

theorem yields_bind {kind : String} {x : Parser α} {f : α → Parser Concrete}
    (h : ∀ a, Yields kind (f a)) : Yields kind (x >>= f) := by
  intro p r q hrun
  obtain ⟨a, m, -, hrest⟩ := bind_eq_ok.mp hrun
  exact h a m r q hrest

theorem yields_pure {kind : String} {c : Concrete} (h : c.kind = kind) : Yields kind (pure c) := by
  intro p r q hrun
  cases hrun
  exact h

theorem yields_leaf (kind : String) (named : Bool) (n : Nat) : Yields kind (leaf kind named n) := by
  intro p r q hrun
  cases hrun
  rfl

theorem yields_fail (kind : String) : Yields kind fail := by
  intro p r q hrun
  cases hrun

theorem ReadsTree.readsKind {kind : String} {x : Parser Concrete} (h : ReadsTree I x)
    (hyields : Yields kind x) : ReadsKind I kind x := by
  rw [ReadsKind, reads_iff]
  intro p r q hp hrun
  obtain ⟨hq, hr⟩ := reads_iff.mp h p r q hp hrun
  exact ⟨hq, hr, hyields p r q hrun⟩

@[spec] theorem upcoming_looks : Looks I upcoming := by mvcgen [upcoming]

@[spec] theorem nextIs_looks (word : String) : Looks I (nextIs word) := by mvcgen [nextIs]

@[spec] theorem nextIsWord_looks (word : String) : Looks I (nextIsWord word) := by
  mvcgen [nextIsWord]

@[spec] theorem breakAhead_looks : Looks I breakAhead := by mvcgen [breakAhead]

@[spec] theorem atEnd_looks : Looks I atEnd := by mvcgen [atEnd]

@[spec high] theorem throw_reads (P : α → Prop) (fault : Fault) :
    Reads I P (throw fault : Parser α) := by
  rw [reads_iff]
  intro p r q _ hrun
  cases hrun

@[spec] theorem fail_reads (P : α → Prop) : Reads I P fail := by mvcgen [fail]

@[spec] theorem orElse_reads {P : α → Prop} {first second : Parser α} (hfirst : Reads I P first)
    (hsecond : Reads I P second) : Reads I P (orElse first second) := by
  rw [reads_iff] at hfirst hsecond ⊢
  intro p r q hp hrun
  rcases orElse_ok hrun with hrun | hrun
  · exact hfirst p r q hp hrun
  · exact hsecond p r q hp hrun

@[spec] theorem leaf_reads {kind : String} {named : Bool} (hkind : named = true → ¬ IsMark kind)
    (n : Nat) : ReadsTree I (leaf kind named n) := by
  rw [ReadsTree, reads_iff]
  intro p r q hp hrun
  cases hrun
  exact ⟨ReadInvariant.place_skip hp n, I.leaf hkind hp (ReadInvariant.place_skip hp n)⟩

@[spec] theorem leafAhead_reads {kind : String} {named : Bool} (hkind : named = true → ¬ IsMark kind)
    (n : Nat) : ReadsTree I (leafAhead kind named n) := by
  mvcgen [leafAhead]
  exact ReadInvariant.place_afterGap ‹_›

/-- `?.` is read as a part of an access. -/
@[spec high] theorem mark_reads :
    Reads I (fun c => I.part c ∧ c.kind = "optional_chain") (leafAhead "optional_chain" true 2) := by
  rw [reads_iff]
  intro p r q hp hrun
  cases hrun
  have hstart := ReadInvariant.place_afterGap hp
  have hstop := ReadInvariant.place_skip hstart 2
  exact ⟨hstop, I.mark hstart hstop, rfl⟩

@[spec] theorem token_reads (word : String) : ReadsTree I (token word) := by
  mvcgen [token] <;> simp_all

@[spec] theorem token?_reads (word : String) : ReadsTrees I (token? word) := by
  mvcgen [token?] <;> simp_all

theorem yields_keyword (word : String) : Yields word (keyword word) := by
  refine yields_bind fun found => ?_
  cases found with
  | true => exact yields_bind fun _ => yields_leaf word false word.length
  | false => exact yields_fail word

@[spec] theorem keyword_reads (word : String) : ReadsKind I word (keyword word) := by
  refine ReadsTree.readsKind ?_ (yields_keyword word)
  mvcgen [keyword] <;> simp_all

@[spec] theorem keyword?_reads (word : String) : ReadsTrees I (keyword? word) := by
  mvcgen [keyword?] <;> simp_all

@[spec] theorem name_reads {kind : String} (hkind : ¬ IsMark kind) : ReadsTree I (name kind) := by
  mvcgen [name] <;> simp_all

@[spec] theorem many_reads {item : Parser (Option (List Concrete))} (hitem : ReadsItem I item)
    (n : Nat) : ReadsTrees I (many item n) := by
  induction n with
  | zero => exact fail_reads _
  | succ n ih => mvcgen [many, hitem, ih] <;> simp_all

@[spec] theorem commaSeparated_reads {item : Parser Concrete} (hitem : ReadsTree I item)
    (limit : Nat) (close : String) : ReadsTrees I (commaSeparated limit close item) := by
  refine many_reads ?_ limit
  mvcgen [hitem] <;> simp_all

@[spec] theorem closingBrace_reads : ReadsTree I closingBrace := by mvcgen [closingBrace]

@[spec] theorem semicolon_reads (inExpression : Bool) : ReadsTrees I (semicolon inExpression) := by
  mvcgen [semicolon] <;> simp_all
  exact ReadInvariant.place_of_omittedSemicolon? ‹_› ‹_›

@[spec] theorem looseSemicolon_looks (inExpression : Bool) :
    Looks I (looseSemicolon inExpression) := by
  mvcgen [looseSemicolon]
  exact ReadInvariant.place_of_omittedSemicolon? ‹_› ‹_›

@[spec] theorem escapeSequence_reads : ReadsTree I escapeSequence := by mvcgen [escapeSequence]

@[spec] theorem stringLiteral_reads (limit : Nat) (quote : Char) :
    ReadsTree I (stringLiteral limit quote) := by
  mvcgen [stringLiteral] <;> simp_all

@[spec] theorem regex_reads : ReadsTree I regex := by mvcgen [regex] <;> simp_all

@[spec] theorem number_reads : ReadsTree I number := by mvcgen [number] <;> simp_all

/-- The phrases that the parts of the grammar ask for keep it. -/
structure Upholds (I : ReadInvariant) (s : Scope) : Prop where
  phrase : ∀ phrase, ReadsTree I (s.phrase phrase)

@[spec] theorem phrase_reads {s : Scope} (hs : Upholds I s) (phrase : Phrase) :
    ReadsTree I (s.phrase phrase) := hs.phrase phrase

theorem templateLiteral_reads {s : Scope} (hs : Upholds I s) :
    ReadsTree I (templateLiteral s) := by
  mvcgen [templateLiteral] <;> simp_all

theorem templateLiteral_readsKind {s : Scope} (hs : Upholds I s) :
    ReadsKind I "template_string" (templateLiteral s) :=
  (templateLiteral_reads hs).readsKind <|
    yields_bind fun _ => yields_bind fun _ => yields_bind fun _ => yields_pure rfl

end Grammar

end CallChain.JavaScript
