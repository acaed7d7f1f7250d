import CallChain.JavaScript.Reader
import CallChain.Proofs.JavaScript.ChainText

/-!
# Reading a chain

A text that is one chain is read as one statement. The links are appended one by one to the part of the
chain that is read, each in two turns, one for the access and one for the call; all else that the grammar
asks about the text, from its first word to the semicolon that is left out, is answered with no.
-/
namespace CallChain.JavaScript.Grammar

/-- The kind of the leaf that a name becomes where it stands as an operand. -/
def operandKind (name : List Char) : String :=
  if constantWords.contains (String.ofList name) then String.ofList name else "identifier"

/-- The access to a member of `left`, which ends where the glue begins. -/
def memberNode (glue before name : List Char) (left : Concrete) : Concrete :=
  construct "member_expression"
    [left.as .object, leafAt "." false (before ++ glue) ['.'],
      (leafAt "property_identifier" true (before ++ glue ++ ['.']) name).as .property]

/-- An empty list of arguments. -/
def argumentsNode (before : List Char) : Concrete :=
  construct "arguments" [leafAt "(" false before ['('], leafAt ")" false (before ++ ['(']) [')']]

def callNode (before : List Char) (callee : Concrete) : Concrete :=
  construct "call_expression" [callee.as .function, (argumentsNode before).as .arguments]

/-- The tree of a chain, with the names of its links from the last to the first. -/
def chainNode (glue base : List Char) : List (List Char) → Concrete
  | [] => leafAt (operandKind base) true [] base
  | name :: earlier =>
    let before := chain glue base earlier
    callNode (before ++ glue ++ ['.'] ++ name)
      (memberNode glue before name (chainNode glue base earlier))

variable {s : Scope} {p : Place} {before rest : List Char}

theorem arguments_run (hlimit : 0 < s.limit) (h : p.afterGap = .after before ('(' :: ')' :: rest)) :
    arguments s p = .ok (argumentsNode before, .after (before ++ ['('] ++ [')']) rest) := by
  have hopen : token "(" p = .ok (leafAt "(" false before ['('], .after (before ++ ['(']) (')' :: rest)) :=
    token_run h
  have hinside : (Place.after (before ++ ['(']) (')' :: rest)).afterGap =
      .after (before ++ ['(']) (')' :: rest) :=
    Place.afterGap_of_opensToken (opensToken_cons (by decide) (by decide))
  have hitems : commaSeparated s.limit ")" (item s) (.after (before ++ ['(']) (')' :: rest)) =
      .ok ([], .after (before ++ ['(']) (')' :: rest)) := by
    obtain ⟨n, hn⟩ := Nat.exists_eq_add_one.mpr hlimit
    rw [commaSeparated, hn, many, run_bind (a := none) (q := .after (before ++ ['(']) (')' :: rest))]
    · rfl
    · rw [run_bind (nextIs_run hinside ")")]
      rfl
  have hclose : token ")" (.after (before ++ ['(']) (')' :: rest)) =
      .ok (leafAt ")" false (before ++ ['(']) [')'], .after (before ++ ['('] ++ [')']) rest) :=
    token_run hinside
  rw [arguments, run_bind hopen, run_bind hitems, run_bind hclose]
  rfl

theorem appended_member {n : Nat} (left : Concrete) {gap name : List Char}
    (h : p.afterGap = .after (before ++ gap) ('.' :: (name ++ '(' :: rest)))
    (hname : isIdentifier name = true) :
    appended s false left (n + 1) p =
      appended s false (memberNode gap before name left) n
        (.after (before ++ gap ++ ['.'] ++ name) ('(' :: rest)) := by
  have hdot : token "." p = .ok (leafAt "." false (before ++ gap) ['.'],
      .after (before ++ gap ++ ['.']) (name ++ '(' :: rest)) := token_run h
  have hkey : (Place.after (before ++ gap ++ ['.']) (name ++ '(' :: rest)).afterGap =
      .after (before ++ gap ++ ['.']) (name ++ '(' :: rest) :=
    Place.afterGap_of_opensToken (opensToken_append hname)
  have hplain : "#".toList.isPrefixOf (name ++ '(' :: rest) = false := by
    obtain ⟨c, cs, rfl, hc, -⟩ := exists_cons_of_isIdentifier hname
    have hne := ne_of_isIdentifierStart hc (d := '#') (by decide)
    simp [List.isPrefixOf, hne.symm]
  have hmember : appended.member left (leafAt "." false (before ++ gap) ['.'])
      (.after (before ++ gap ++ ['.']) (name ++ '(' :: rest)) =
      .ok (memberNode gap before name left, .after (before ++ gap ++ ['.'] ++ name) ('(' :: rest)) := by
    have hends : EndsName ('(' :: rest) := endsName_cons (by decide)
    have hne : name ≠ [] := by
      obtain ⟨c, cs, rfl, -⟩ := exists_cons_of_isIdentifier hname
      exact List.cons_ne_nil c cs
    rw [appended.member, run_bind (nextIs_run hkey "#"), hplain]
    simp only [Bool.false_eq_true, if_false]
    rw [run_bind (name_run hkey hne (nameLength_append hname hends) "property_identifier")]
    rfl
  rw [appended, run_bind (upcoming_run h)]
  have hoptional : Operator.isOptionalChain ('.' :: (name ++ '(' :: rest)) = false := rfl
  rw [hoptional]
  simp only [Bool.false_eq_true, if_false]
  rw [run_bind hdot, run_bind hmember]

theorem appended_call {n : Nat} (left : Concrete) (hlimit : 0 < s.limit) :
    appended s false left (n + 1) (.after before ('(' :: ')' :: rest)) =
      appended s false (callNode before left) n (.after (before ++ ['('] ++ [')']) rest) := by
  have hgap : (Place.after before ('(' :: ')' :: rest)).afterGap = .after before ('(' :: ')' :: rest) :=
    Place.afterGap_of_opensToken (opensToken_cons (by decide) (by decide))
  have hoptional : Operator.isOptionalChain ('(' :: ')' :: rest) = false := rfl
  rw [appended, run_bind (upcoming_run hgap), hoptional]
  simp only [Bool.false_eq_true, if_false]
  rw [run_bind (arguments_run hlimit hgap)]
  rfl

theorem appended_end {n : Nat} (left : Concrete) :
    appended s false left (n + 1) (.after before []) = .ok (left, .after before []) := by
  rw [appended, run_bind (upcoming_run (Place.afterGap_of_opensToken opensToken_nil))]
  rfl

/-- All links that are left are appended to the part of the chain that is read. -/
theorem appended_links {glue : List Char} (base : List Char) (hglue : ∀ c ∈ glue, isSpace c = true)
    (hlimit : 0 < s.limit) {later : List (List Char)} (hlater : ∀ m ∈ later, isIdentifier m = true)
    (earlier : List (List Char)) {n : Nat} (hn : 2 * later.length < n) :
    appended s false (chainNode glue base earlier) n
        (.after (chain glue base earlier) (later.flatMap (link glue))) =
      .ok (chainNode glue base (later.reverse ++ earlier),
        .after (chain glue base (later.reverse ++ earlier)) []) := by
  induction later generalizing earlier n with
  | nil =>
    obtain ⟨n, rfl⟩ := Nat.exists_eq_add_one.mpr hn
    exact appended_end _
  | cons name later ih =>
    rw [List.length_cons] at hn
    obtain ⟨n, rfl⟩ : ∃ k, n = k + 2 := ⟨n - 2, by omega⟩
    have hgap : (Place.after (chain glue base earlier) ((name :: later).flatMap (link glue))).afterGap =
        .after (chain glue base earlier ++ glue)
          ('.' :: (name ++ '(' :: (')' :: later.flatMap (link glue)))) := by
      have htext : (name :: later).flatMap (link glue) =
          glue ++ '.' :: (name ++ '(' :: (')' :: later.flatMap (link glue))) := by simp [link]
      rw [htext]
      exact Place.afterGap_after hglue (opensToken_cons (by decide) (by decide))
    have hchain : chain glue base earlier ++ glue ++ ['.'] ++ name ++ ['('] ++ [')'] =
        chain glue base (name :: earlier) := by simp [chain, link]
    rw [appended_member _ hgap (hlater name List.mem_cons_self), appended_call _ hlimit, hchain,
      List.reverse_cons, List.append_assoc (later.reverse), List.singleton_append]
    exact ih (fun m hm => hlater m (List.mem_cons_of_mem name hm)) (name :: earlier) (n := n)
      (by omega)

/-- Behind the base of a chain, and the glue, the text ends or a dot stands. -/
theorem afterGap_links {glue : List Char} (hglue : ∀ c ∈ glue, isSpace c = true)
    (before : List Char) (names : List (List Char)) :
    ∃ upTo rest, (Place.after before (names.flatMap (link glue))).afterGap = .after upTo rest ∧
      ∀ c, rest.head? = some c → c = '.' := by
  cases names with
  | nil => exact ⟨before, [], Place.afterGap_of_opensToken opensToken_nil, fun c hc => by cases hc⟩
  | cons name names =>
    have htext : (name :: names).flatMap (link glue) =
        glue ++ '.' :: (name ++ ['(', ')'] ++ names.flatMap (link glue)) := by simp [link]
    rw [htext]
    refine ⟨before ++ glue, _,
      Place.afterGap_after hglue (opensToken_cons (by decide) (by decide)), fun c hc => ?_⟩
    exact (Option.some.inj hc).symm

theorem endsName_links {glue : List Char} (hglue : ∀ c ∈ glue, isSpace c = true)
    (names : List (List Char)) : EndsName (names.flatMap (link glue)) := by
  cases names with
  | nil => intro c hc; cases hc
  | cons name names =>
    cases glue with
    | nil => exact endsName_cons (by decide)
    | cons c glue =>
      refine endsName_cons ?_
      rw [isNamePart, hglue c List.mem_cons_self]
      simp

theorem not_isPrefixOf_of_head {text : String} {c : Char} {rest : List Char}
    (htext : text.toList.head? = some c) (hrest : ∀ d, rest.head? = some d → d ≠ c) :
    text.toList.isPrefixOf rest = false := by
  obtain ⟨cs, hcs⟩ := List.head?_eq_some_iff.mp htext
  rw [hcs]
  cases rest with
  | nil => rfl
  | cons d rest => simp [List.isPrefixOf, (hrest d rfl).symm]

theorem append_ne_cons {base rest cs : List Char} {d : Char} (hbase : isIdentifier base = true)
    (hd : isIdentifierStart d = false) : base ++ rest ≠ d :: cs := by
  obtain ⟨c, base, rfl, hc, -⟩ := exists_cons_of_isIdentifier hbase
  intro h
  exact ne_of_isIdentifierStart hc hd (List.cons.inj h).1

theorem head_ne {base rest : List Char} {d : Char} (hbase : isIdentifier base = true)
    (hd : isIdentifierStart d = false) : ∀ c, (base ++ rest).head? = some c → c ≠ d := by
  obtain ⟨c, base, rfl, hc, -⟩ := exists_cons_of_isIdentifier hbase
  intro e he
  obtain rfl := Option.some.inj he
  exact ne_of_isIdentifierStart hc hd

theorem wordStatement_of_not_mem {word : String} (h : word ∉ keywords) (s : Scope) :
    wordStatement s word = labeledOrExpression s := by
  unfold wordStatement
  split
  case h_21 => rfl
  all_goals exact absurd (by decide) h

section Base

variable {glue base : List Char} {names : List (List Char)}
  (hglue : ∀ c ∈ glue, isSpace c = true) (hbase : isIdentifier base = true)
include hglue hbase

omit hglue in
theorem afterGap_base (glue : List Char) (names : List (List Char)) :
    (Place.after [] (base ++ names.flatMap (link glue))).afterGap =
      .after [] (base ++ names.flatMap (link glue)) :=
  Place.afterGap_of_opensToken (opensToken_append hbase)

theorem nameAt_base (names : List (List Char)) : nameAt (base ++ names.flatMap (link glue)) = base :=
  nameAt_append hbase (endsName_links hglue names)

theorem name_base (kind : String) :
    name kind (.after [] (base ++ names.flatMap (link glue))) =
      .ok (leafAt kind true [] base, .after base (names.flatMap (link glue))) := by
  have hne : base ≠ [] := by
    obtain ⟨c, cs, rfl, -⟩ := exists_cons_of_isIdentifier hbase
    exact List.cons_ne_nil c cs
  exact name_run (afterGap_base hbase glue names) hne
    (nameLength_append hbase (endsName_links hglue names)) kind

omit hbase in
/-- What comes behind the base starts with a dot, if there is something. -/
theorem nextIs_behind_base {text : String} {c : Char} (htext : text.toList.head? = some c)
    (hc : c ≠ '.') :
    nextIs text (.after base (names.flatMap (link glue))) =
      .ok (false, .after base (names.flatMap (link glue))) := by
  obtain ⟨upTo, rest, hgap, hrest⟩ := afterGap_links hglue base names
  rw [nextIs_run hgap, not_isPrefixOf_of_head htext]
  intro d hd
  rw [hrest d hd]
  exact hc.symm

theorem nameOrArrow_base (s : Scope) :
    nameOrArrow s (.after [] (base ++ names.flatMap (link glue))) =
      .ok (leafAt "identifier" true [] base, .after base (names.flatMap (link glue))) := by
  rw [nameOrArrow, run_bind (name_base hglue hbase "identifier"),
    run_bind (nextIs_behind_base hglue (c := '=') rfl (by decide))]
  rfl

theorem primary_base (s : Scope) (nested : Parser Concrete)
    (hword : String.ofList base ∉ keywords) :
    primary s nested (.after [] (base ++ names.flatMap (link glue))) =
      .ok (chainNode glue base [], .after base (names.flatMap (link glue))) := by
  have hgap := afterGap_base hbase glue names
  have hne : String.ofList base ≠ "" := by
    obtain ⟨c, cs, rfl, -⟩ := exists_cons_of_isIdentifier hbase
    simp
  have hat := nameAt_base hglue hbase names
  have hother : ∀ {k : String}, k ∈ keywords → String.ofList base ≠ k := fun hk h => hword (h ▸ hk)
  rw [primary, run_bind (upcoming_run hgap)]
  generalize hr : base ++ names.flatMap (link glue) = r at *
  split
  any_goals exact absurd hr (append_ne_cons hbase (by decide))
  rw [hat]
  simp only [hne, hother (k := "function") (by decide), hother (k := "async") (by decide),
    hother (k := "class") (by decide), hother (k := "new") (by decide),
    hother (k := "import") (by decide), if_false]
  rw [← hr] at hgap ⊢
  split
  · next hconstant =>
    rw [← String.length_toList, String.toList_ofList, leafAhead_run hgap, chainNode, operandKind,
      if_pos hconstant]
    rfl
  · next hconstant =>
    rw [nameOrArrow_base hglue hbase, chainNode, operandKind, if_neg hconstant]

/-- The place in front of the chain, and that behind it with the chain's tree. -/
theorem operand_base (hword : String.ofList base ∉ keywords)
    (hnames : ∀ m ∈ names, isIdentifier m = true) {s : Scope} (hlimit : 2 * names.length < s.limit) :
    operand s (.after [] (base ++ names.flatMap (link glue))) =
      .ok (chainNode glue base names.reverse, .after (chain glue base names.reverse) []) := by
  have happended := appended_links (s := s) base hglue (by omega) hnames [] hlimit
  rw [List.append_nil] at happended
  rw [operand, run_bind (primary_base hglue hbase s _ hword)]
  exact happended

omit hglue hbase in
theorem assigned_end (s : Scope) (left : Concrete) (before : List Char) :
    assigned s left (.after before []) = .ok (left, .after before []) := by
  have hgap : (Place.after before []).afterGap = .after before [] :=
    Place.afterGap_of_opensToken opensToken_nil
  have hbreak : breakAhead (.after before []) = .ok (false, .after before []) := by
    change Except.ok (decide ((Place.after before []).line < (Place.after before []).afterGap.line),
      Place.after before []) = _
    rw [hgap]
    simp
  rw [assigned, run_bind (upcoming_run hgap), run_bind hbreak]
  have hequals : (isTarget left && Operator.isEquals []) = false := Bool.and_false _
  simp only [hequals]
  rfl

theorem unary_base (hword : String.ofList base ∉ keywords)
    (hnames : ∀ m ∈ names, isIdentifier m = true) {s : Scope} (hlimit : 2 * names.length < s.limit) :
    unary s (.after [] (base ++ names.flatMap (link glue))) =
      .ok (chainNode glue base names.reverse, .after (chain glue base names.reverse) []) := by
  have hgap := afterGap_base hbase glue names
  have hat := nameAt_base hglue hbase names
  have hother : ∀ {k : String}, k ∈ keywords → String.ofList base ≠ k := fun hk h => hword (h ▸ hk)
  have hoperand := operand_base hglue hbase hword hnames hlimit
  have hstep : Operator.isStep (base ++ names.flatMap (link glue)) = false := by
    rw [Operator.isStep, not_isPrefixOf_of_head (c := '+') rfl (head_ne hbase (by decide)),
      not_isPrefixOf_of_head (c := '-') rfl (head_ne hbase (by decide))]
    rfl
  have hplain : prefixWords.contains (String.ofList base) = false := by
    simp [prefixWords, hother (k := "typeof") (by decide), hother (k := "void") (by decide),
      hother (k := "delete") (by decide)]
  rw [unary, run_bind (upcoming_run hgap), hstep]
  simp only [Bool.false_eq_true, if_false]
  generalize hr : base ++ names.flatMap (link glue) = r at *
  split
  any_goals exact absurd hr (append_ne_cons hbase (by decide))
  rw [hat]
  simp only [hplain, hother (k := "await") (by decide), hother (k := "yield") (by decide),
    Bool.false_eq_true, if_false]
  rw [run_bind hoperand, assigned_end]

omit hglue hbase in
theorem operators_end (s : Scope) (level : Nat) (left : Concrete) (before : List Char) (n : Nat) :
    operators s level left (n + 1) (.after before []) = .ok (left, .after before []) := by
  have hgap : (Place.after before []).afterGap = .after before [] :=
    Place.afterGap_of_opensToken opensToken_nil
  have hnone : Operator.at? [] = none := by decide
  rw [operators, run_bind (upcoming_run hgap), hnone]
  simp only [Operator.isConditional, Bool.and_false, Bool.false_eq_true, if_false]
  rfl

omit hglue hbase in
theorem nextIs_end {text : String} (htext : text.toList ≠ []) (before : List Char) :
    nextIs text (.after before []) = .ok (false, .after before []) := by
  have hgap : (Place.after before []).afterGap = .after before [] :=
    Place.afterGap_of_opensToken opensToken_nil
  obtain ⟨c, cs, hcs⟩ := List.exists_cons_of_ne_nil htext
  rw [nextIs_run hgap, hcs]
  rfl

omit hglue hbase in
theorem semicolon_end (before : List Char) :
    semicolon true (.after before []) = .ok ([], .after before []) := by
  rw [semicolon, run_bind (nextIs_end (by decide) before)]
  rfl

/-- A scope of the grammar, unrolled often enough for the chain. -/
theorem expressions_base (hword : String.ofList base ∉ keywords)
    (hnames : ∀ m ∈ names, isIdentifier m = true) {depth : Nat} (hdepth : 2 * names.length < depth) :
    unrolled (depth + 2) .expressions (.after [] (base ++ names.flatMap (link glue))) =
      .ok (chainNode glue base names.reverse, .after (chain glue base names.reverse) []) := by
  have hexpression : unrolled (depth + 1) .expression (.after [] (base ++ names.flatMap (link glue))) =
      .ok (chainNode glue base names.reverse, .after (chain glue base names.reverse) []) := by
    obtain ⟨n, rfl⟩ : ∃ n, depth = n + 1 := ⟨depth - 1, by omega⟩
    change expressionAt ⟨unrolled (n + 1), n + 1⟩ Operator.conditionalLevel _ = _
    rw [expressionAt, run_bind (unary_base hglue hbase hword hnames hdepth), operators_end]
  change expressions ⟨unrolled (depth + 1), depth + 1⟩ _ = _
  rw [expressions, run_bind hexpression, run_bind (nextIs_end (by decide) _)]
  rfl

/-- The statement that a chain makes up. -/
def statementNode (glue base : List Char) (names : List (List Char)) : Concrete :=
  constructTo "expression_statement" [chainNode glue base names] (.after (chain glue base names) [])

theorem nextIsLabel_base (names : List (List Char)) :
    nextIsLabel (.after [] (base ++ names.flatMap (link glue))) =
      .ok (false, .after [] (base ++ names.flatMap (link glue))) := by
  have hgap := afterGap_base hbase glue names
  have hlength : nameLength (base ++ names.flatMap (link glue)) ≠ 0 := by
    obtain ⟨c, cs, rfl, -⟩ := exists_cons_of_isIdentifier hbase
    rw [nameLength_append hbase (endsName_links hglue names)]
    simp
  rw [nextIsLabel, run_bind (upcoming_run hgap)]
  simp only [hlength, if_false]
  rw [run_get, run_bind (name_base hglue hbase "statement_identifier"),
    run_bind (nextIs_behind_base hglue (c := ':') rfl (by decide))]
  rfl

theorem statement_base (hword : String.ofList base ∉ keywords)
    (hnames : ∀ m ∈ names, isIdentifier m = true) {depth : Nat} (hdepth : 2 * names.length < depth) :
    unrolled (depth + 3) .statement (.after [] (base ++ names.flatMap (link glue))) =
      .ok (statementNode glue base names.reverse, .after (chain glue base names.reverse) []) := by
  have hgap := afterGap_base hbase glue names
  have hat := nameAt_base hglue hbase names
  have hexpressions := expressions_base hglue hbase hword hnames hdepth
  have hlabel := nextIsLabel_base hglue hbase names
  have hstray : isStray (base ++ names.flatMap (link glue)) = false := by
    obtain ⟨c, cs, rfl, hc, -⟩ := exists_cons_of_isIdentifier hbase
    have hne : ∀ {d}, isIdentifierStart d = false → c ≠ d := ne_of_isIdentifierStart hc
    simp [isStray, hne (d := ')') (by decide), hne (d := ']') (by decide),
      hne (d := '\x7d') (by decide)]
  have hsemicolon := semicolon_end (chain glue base names.reverse)
  let s : Scope := ⟨unrolled (depth + 2), depth + 2⟩
  have hstatement : wordStatement s (String.ofList base) (.after [] (base ++ names.flatMap (link glue))) =
      .ok (statementNode glue base names.reverse, .after (chain glue base names.reverse) []) := by
    rw [wordStatement_of_not_mem hword, labeledOrExpression, run_bind hlabel]
    simp only [Bool.false_eq_true, if_false]
    rw [expressionStatement, run_bind (x := s.phrase .expressions) hexpressions, run_bind hsemicolon]
    rfl
  change statement s _ = _
  rw [statement, run_get]
  simp only [hgap]
  have hrest : (Place.after [] (base ++ names.flatMap (link glue))).rest =
      base ++ names.flatMap (link glue) := rfl
  rw [hrest]
  generalize hr : base ++ names.flatMap (link glue) = r at *
  split
  any_goals exact absurd hr (append_ne_cons hbase (by decide))
  rw [hstray, hat]
  exact hstatement

omit hglue hbase in
theorem commentLength?_of_head {cs : List Char} (h : ∀ c, cs.head? = some c → c ≠ '/') :
    commentLength? cs = none := by
  unfold commentLength?
  split
  any_goals exact absurd rfl (h '/' rfl)
  rfl

omit hglue hbase in
/-- No comment stands where no blank and no slash does. -/
theorem commentsAhead_of_opensToken {rest : List Char} (h : OpensToken rest) (n : Nat)
    (before : List Char) : commentsAhead n (.after before rest) = [] := by
  have hspaces : spaceLength rest = 0 := by
    cases rest with
    | nil => rfl
    | cons c rest => simp [spaceLength, (h c rfl).1]
  cases n with
  | zero => rfl
  | succ n =>
    have hplace : (Place.after before rest).skip (spaceLength (Place.after before rest).rest) =
        .after before rest := by
      change Place.skip (spaceLength rest) _ = _
      rw [hspaces]
      rfl
    rw [commentsAhead, hplace]
    have hnone : commentLength? (Place.after before rest).rest = none :=
      commentLength?_of_head fun c hc => (h c hc).2
    simp only [hnone]

theorem programBody_base (hword : String.ofList base ∉ keywords)
    (hnames : ∀ m ∈ names, isIdentifier m = true) {depth : Nat} (hdepth : 2 * names.length < depth)
    (n : Nat) :
    programBody (depth + 3) (n + 2) (.after [] (base ++ names.flatMap (link glue))) =
      .ok ([statementNode glue base names.reverse], .after (chain glue base names.reverse) []) := by
  have hopens : OpensToken (base ++ names.flatMap (link glue)) := opensToken_append hbase
  have hgap := afterGap_base hbase glue names
  have hmore : (Place.after [] (base ++ names.flatMap (link glue))).atEnd = false := by
    obtain ⟨c, cs, rfl, -⟩ := exists_cons_of_isIdentifier hbase
    rw [Place.atEnd, hgap]
    rfl
  have hrest : programBody (depth + 3) (n + 1) (.after (chain glue base names.reverse) []) =
      .ok ([], .after (chain glue base names.reverse) []) := by
    rw [programBody, run_get, commentsAhead_of_opensToken opensToken_nil]
    rfl
  rw [programBody, run_get, commentsAhead_of_opensToken hopens, hmore]
  simp only [Bool.false_eq_true, if_false]
  rw [run_bind (statement_base hglue hbase hword hnames hdepth), run_bind hrest]
  rfl

/-- The tree of a text that is one chain. -/
def programNode (glue base : List Char) (names : List (List Char)) : Concrete :=
  .node
    { kind := "program", named := true, extra := false, role := none
      span := spanOf [] (chain glue base names) }
    [statementNode glue base names]

omit hglue hbase in
/-- Each link takes three characters or more, so that the grammar is unrolled often enough. -/
theorem length_links_le (glue : List Char) (names : List (List Char)) :
    3 * names.length ≤ (names.flatMap (link glue)).length := by
  induction names with
  | nil => simp
  | cons name names ih =>
    simp only [List.flatMap_cons, List.length_append, List.length_cons, link, List.length_nil]
    omega

theorem program_chain (hword : String.ofList base ∉ keywords)
    (hnames : ∀ m ∈ names, isIdentifier m = true) :
    program (chain glue base names.reverse) = .ok (programNode glue base names.reverse) := by
  have hopens : OpensToken (base ++ names.flatMap (link glue)) := opensToken_append hbase
  have hspaces : spaceLength (chain glue base names.reverse) = 0 := by
    rw [chain_reverse]
    obtain ⟨c, cs, rfl, -⟩ := exists_cons_of_isIdentifier hbase
    simp [spaceLength, (hopens c rfl).1]
  have hlength := length_links_le glue names
  obtain ⟨depth, hdepth, hlinks⟩ : ∃ depth, depthFor (chain glue base names.reverse) = depth + 3 ∧
      2 * names.length < depth := by
    rw [chain_reverse, depthFor, List.length_append]
    exact ⟨8 * (base.length + (names.flatMap (link glue)).length + 2) - 3, by omega, by omega⟩
  have hbang : hashBang (.after [] (base ++ names.flatMap (link glue))) =
      .ok ([], .after [] (base ++ names.flatMap (link glue))) := by
    rw [hashBang, run_bind (upcoming_run (Place.afterGap_of_opensToken hopens))]
    generalize hr : base ++ names.flatMap (link glue) = r at *
    split
    · exact absurd hr (append_ne_cons hbase (by decide))
    · rfl
  have hbody := programBody_base hglue hbase hword hnames hlinks (depth + 1)
  have hrun : (do
      let first ← hashBang
      return first ++ (← programBody (depth + 3) (depth + 3)) : Parser (List Concrete)).run
        (Place.start (chain glue base names.reverse)) =
      .ok ([statementNode glue base names.reverse], .after (chain glue base names.reverse) []) := by
    rw [chain_reverse]
    change (hashBang >>= _) (Place.after [] (base ++ names.flatMap (link glue))) = _
    rw [run_bind hbang, run_bind hbody, ← chain_reverse]
    rfl
  have hstop : (Place.start (chain glue base names.reverse)).skip (chain glue base names.reverse).length =
      .after (chain glue base names.reverse) [] := by
    have hskip := Place.skip_after [] (chain glue base names.reverse) []
    rwa [List.append_nil, List.nil_append] at hskip
  rw [program]
  simp only [hspaces, hdepth, Place.skip, hrun, hstop]
  rfl

end Base

end CallChain.JavaScript.Grammar
