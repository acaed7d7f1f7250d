import CallChain.Proofs.JavaScript.LongChain
import CallChain.Proofs.JavaScript.Reading.Spans

/-!
# Allow comments at the end of a line

An allow comment is looked for behind the first two slashes of its line, wherever they stand. A comment
with no slashes before it lets the links on its line and on the next one pass; behind slashes in a string,
a regular expression or another comment it is not seen, and every link there is reported as if it were not
written.
-/
namespace CallChain

open CallChain.Syntax

namespace Directive

/-- The comment that lets long chains pass and gives no reason. -/
def allowChains : List Char := "// chain-lint: allow(method-chaining)".toList

variable {line front behind : List Char}

theorem ofLine?_allowChains {before : List Char}
    (h : Text.FirstCut "//".toList (before ++ allowChains) before behind) :
    ofLine? (before ++ allowChains) = some ⟨[Chain.ruleName], none⟩ := by
  have hcomment : "//".toList ++ " chain-lint: allow(method-chaining)".toList =
      "//".toList ++ behind := List.append_cancel_left h.text
  have hbehind := List.append_cancel_left hcomment
  have hsplit := (Text.splitFirst?_eq_some_iff (by decide)).mpr h
  rw [← hbehind] at hsplit
  change (Text.splitFirst? ['/', '/'] _).bind _ = _
  rw [show ['/', '/'] = "//".toList from rfl, hsplit, Option.bind_some]
  dsimp only
  decide

theorem ofLine?_eq_none (h : Text.FirstCut "//".toList line front behind)
    (hother : ¬ "chain-lint:".toList <+: Text.trim behind) : ofLine? line = none := by
  have hsplit := (Text.splitFirst?_eq_some_iff (by decide)).mpr h
  have hopens : "chain-lint:".toList.isPrefixOf? (Text.trim behind) = none := by
    by_contra hsome
    obtain ⟨rest, hrest⟩ := Option.ne_none_iff_exists'.mp hsome
    exact hother ⟨rest, List.isPrefixOf?_eq_some_iff_append_eq.mp hrest⟩
  change (Text.splitFirst? ['/', '/'] _).bind _ = _
  rw [show ['/', '/'] = "//".toList from rfl, hsplit, Option.bind_some]
  change ("chain-lint:".toList.isPrefixOf? (Text.trim behind)).bind _ = _
  rw [hopens, Option.bind_none]

end Directive

namespace Chain

variable {settings : Settings} {ctx : FileContext} {tree : Arena} {v : Violation}

/-- Where no reason is asked for, the denied findings are reported and nothing else. -/
theorem mem_check_iff (hreason : settings.requireReason = false) :
    v ∈ check settings ctx tree ↔ ∃ f ∈ denied settings.threshold ctx.content tree,
      f.toViolation ctx.relativePath settings.severity = v := by
  simp only [check, List.mem_mergeSort, List.mem_filterMap, denied, List.mem_filter,
    Finding.isDenied, decide_eq_true_eq, Finding.report?, hreason]
  refine exists_congr fun f => ?_
  cases Allowance.find ctx.content f.operator.startPos.line ruleName with
  | denied => simp
  | allowed reason => cases reason <;> simp

/-- A finding starts at its operator. -/
theorem Finding.start_of_of? {threshold : Nat} {s : Source} {m : NodeId} {f : Finding}
    (h : of? threshold s m = some f) : f.span.start = f.operator.start := by
  unfold of? at h
  split at h
  · dsimp only at h
    split at h
    · cases h
    · obtain ⟨operator, -, rfl⟩ := Option.map_eq_some_iff.mp h
      rfl
  · cases h

/-- The operator of an unbroken link is a token of the tree. -/
theorem Unbroken.operator_mem {threshold : Nat} {m top : NodeId} {links : List NodeId}
    {operator : Token} (h : Unbroken threshold tree m links top operator) : operator ∈ tree.tokens := by
  obtain ⟨object, property, optional, -, -, hscan⟩ := h.written
  rw [← Array.mem_toList_iff]
  rcases Option.or_eq_some_iff.mp hscan with hfind | ⟨-, hfind⟩
  · exact List.mem_of_find?_eq_some hfind
  · exact List.mem_of_find?_eq_some hfind

end Chain

namespace Linter

variable {l : Linter} {settings : Chain.Settings} {path : Path} {content : String} {vs : List Violation}
  {frontEnd : FrontEnd} {tree : Arena}

/-- The places of a check's findings are the operators of the links that are too long. -/
theorem exists_mem_check_iff (h : l.OnlyChains settings) (hreason : settings.requireReason = false)
    (hf : l.frontEnd? path = some frontEnd) (hp : frontEnd.parse content = .ok tree)
    (hl : tree.Linked) (hs : tree.Sorted) (hcheck : l.check path content = .ok vs) (place : Nat) :
    (∃ v ∈ vs, v.location.offset = place) ↔ ∃ m links top operator,
      Chain.Overlong settings.threshold content tree m links top operator ∧
        operator.span.start = place := by
  obtain ⟨frontEnd', tree', hf', hp', rfl⟩ := check_eq_ok_iff.mp hcheck
  obtain rfl := Option.some.inj (hf.symm.trans hf')
  obtain rfl := Except.ok.inj (hp.symm.trans hp')
  obtain ⟨g, hg, hkeeps⟩ := exists_map_override (l.config.severity? Chain.ruleName)
  simp only [List.mem_mergeSort, findings_of_onlyChains h, hg, List.mem_map]
  constructor
  · rintro ⟨v, ⟨w, hw, rfl⟩, rfl⟩
    obtain ⟨f, hdenied, rfl⟩ := (Chain.mem_check_iff hreason).mp hw
    obtain ⟨hof, hnot⟩ := Chain.mem_denied_iff.mp hdenied
    obtain ⟨links, top, operator, hunbroken, htells⟩ := Chain.Finding.unbroken_of_of? hl hs hof
    refine ⟨f.link, links, top, operator, ⟨hunbroken, htells.operator ▸ hnot⟩, ?_⟩
    rw [(hkeeps _).2.1, ← htells.operator]
    exact (Chain.Finding.start_of_of? hof).symm
  · rintro ⟨m, links, top, operator, ⟨hunbroken, hnot⟩, rfl⟩
    obtain ⟨f, hof, htells⟩ := Chain.Finding.of?_of_unbroken hl hs hunbroken content.toList
    have hdenied : f ∈ Chain.denied settings.threshold content tree :=
      Chain.mem_denied_iff.mpr ⟨htells.link ▸ hof, htells.operator ▸ hnot⟩
    refine ⟨_, ⟨_, (Chain.mem_check_iff hreason).mpr ⟨f, hdenied, rfl⟩, rfl⟩, ?_⟩
    rw [(hkeeps _).2.1, ← htells.operator]
    exact Chain.Finding.start_of_of? hof

end Linter

namespace JavaScript

open Chain

/-- The operators of a program's links stand on the lines that their tokens tell. -/
theorem operator_line {content : String} {tree : Arena} (hparse : parse content = .ok tree)
    {threshold : Nat} {m top : NodeId} {links : List NodeId} {operator : Token}
    (h : Unbroken threshold tree m links top operator) :
    operator.span.startPos.line = Text.lineAt operator.span.start content.toList :=
  congrArg Position.line (parse_liesOn hparse operator h.operator_mem).startPos

/-- A program with an allow comment at the end of a line. What is reported are operators of links. If the
comment's slashes are the first of the line, none of them stands on that line or the next one. If the first
slashes stand before it and open no directive, the comment has no effect: each link on these lines that
should start on its own line is reported, unless another line's comment lets it pass. -/
theorem check_beside_trailing_allow (l : Linter) (settings : Settings) (h : l.OnlyChains settings)
    (hreason : settings.requireReason = false) (path : Path) (hf : l.frontEnd? path = some frontEnd)
    (content : String) (tree : Arena) (hparse : parse content = .ok tree) (n : Nat)
    (before : List Char)
    (hline : Text.line? n content.toList = some (before ++ Directive.allowChains)) :
    ∃ vs front behind, l.check path content = .ok vs ∧
      Text.FirstCut "//".toList (before ++ Directive.allowChains) front behind ∧
      (∀ v ∈ vs, ∃ m links top operator, Unbroken settings.threshold tree m links top operator ∧
        operator.span.start = v.location.offset) ∧
      (front = before → ∀ v ∈ vs, Text.lineAt v.location.offset content.toList ≠ n ∧
        Text.lineAt v.location.offset content.toList ≠ n + 1) ∧
      (¬ "chain-lint:".toList <+: Text.trim behind → ∀ m links top operator,
        Unbroken settings.threshold tree m links top operator →
        (Text.lineAt operator.span.start content.toList = n ∧ ¬ AllowsOn content (n - 1) ruleName ∨
          Text.lineAt operator.span.start content.toList = n + 1 ∧
            ¬ AllowsOn content (n + 1) ruleName) →
        ∃ v ∈ vs, v.location.offset = operator.span.start) := by
  obtain ⟨vs, hcheck⟩ : ∃ vs, l.check path content = .ok vs :=
    ⟨_, Linter.check_eq_ok_iff.mpr ⟨frontEnd, tree, hf, hparse, rfl⟩⟩
  have hplaces := Linter.exists_mem_check_iff h hreason hf hparse (parse_linked hparse)
    (parse_sorted hparse) hcheck
  obtain ⟨front, behind, hcut⟩ : ∃ front behind,
      Text.FirstCut "//".toList (before ++ Directive.allowChains) front behind :=
    Text.exists_firstCut (by decide)
      ⟨before, " chain-lint: allow(method-chaining)".toList, List.append_assoc ..⟩
  refine ⟨vs, front, behind, hcheck, hcut, fun v hv => ?_, ?_, ?_⟩
  · obtain ⟨m, links, top, operator, hoverlong, hstart⟩ := (hplaces _).mp ⟨v, hv, rfl⟩
    exact ⟨m, links, top, operator, hoverlong.toUnbroken, hstart⟩
  · rintro rfl v hv
    have hallows : AllowsOn content n ruleName :=
      ⟨_, _, hline, Directive.ofLine?_allowChains hcut, Or.inl (List.mem_singleton.mpr rfl)⟩
    obtain ⟨m, links, top, operator, hoverlong, hstart⟩ := (hplaces _).mp ⟨v, hv, rfl⟩
    have hnot := hoverlong.notAllowed
    rw [operator_line hparse hoverlong.toUnbroken, hstart, allowedAt_iff, not_or] at hnot
    refine ⟨fun hsame => hnot.1 (hsame ▸ hallows), fun hnext => ?_⟩
    exact hnot.2 ⟨n, hnext.symm, hallows⟩
  · intro hother m links top operator hunbroken hlines
    have hsilent : ¬ AllowsOn content n ruleName := by
      rintro ⟨text, directive, htext, hread, -⟩
      obtain rfl := Option.some.inj (hline.symm.trans htext)
      rw [Directive.ofLine?_eq_none hcut hother] at hread
      cases hread
    refine (hplaces _).mpr ⟨m, links, top, operator, ⟨hunbroken, ?_⟩, rfl⟩
    rw [operator_line hparse hunbroken, allowedAt_iff, not_or]
    rcases hlines with ⟨hsame, hbefore⟩ | ⟨hnext, hown⟩
    · rw [hsame]
      refine ⟨hsilent, ?_⟩
      rintro ⟨k, rfl, hallows⟩
      exact hbefore hallows
    · rw [hnext]
      refine ⟨hown, ?_⟩
      rintro ⟨k, hk, hallows⟩
      obtain rfl : k = n := Nat.add_right_cancel hk
      exact hsilent hallows

/-- The concrete tree of a text that can be read. -/
def treeOf (content : String) : Concrete := (Grammar.program content.toList).toOption.getD default

/-- Its arena, with the tokens as they stand in the tree. -/
def arenaOf (content : String) : Arena :=
  { ((treeOf content).abstract content.toList).toArena [] with
    tokens := (treeOf content).leafTokens.toArray }

theorem program_eq_treeOf {content : String}
    (hread : (Grammar.program content.toList).toOption.isSome = true) :
    Grammar.program content.toList = .ok (treeOf content) := by
  rw [treeOf]
  cases hrun : Grammar.program content.toList with
  | error fault =>
    rw [hrun] at hread
    cases hread
  | ok tree => rfl

theorem parse_eq_arenaOf {content : String}
    (hread : (Grammar.program content.toList).toOption.isSome = true)
    (hsorted : (arenaOf content).Sorted) : parse content = .ok (arenaOf content) := by
  have hprogram := program_eq_treeOf hread
  generalize htree : treeOf content = tree at hprogram
  have htokens : ((tree.abstract content.toList).toArena tree.leafTokens).tokens =
      tree.leafTokens.toArray := by
    rw [← Array.toList_inj, Tree.tokens_toArena]
    apply List.mergeSort_of_pairwise
    rw [Arena.Sorted, arenaOf, htree] at hsorted
    exact hsorted.imp fun hle => decide_eq_true hle
  have harena : (tree.abstract content.toList).toArena tree.leafTokens = arenaOf content := by
    rw [arenaOf, htree, ← htokens]
    simp only [Tree.toArena, Tree.foldl_pushToken]
    rfl
  unfold parse read
  dsimp only
  rw [hprogram, ← harena, ← tree.tokens_eq]
  rfl

/-- A comment behind slashes in a string. -/
def hiddenAllow : String := "get(\"http://x\").b().c(); // chain-lint: allow(method-chaining)\n"

/-- A comment whose slashes are the first of its line, and a second chain below it. -/
def plainAllow : String :=
  "get(\"x\").b().c(); // chain-lint: allow(method-chaining)\nget(\"y\").b().c();\n"

theorem parse_hiddenAllow : parse hiddenAllow = .ok (arenaOf hiddenAllow) :=
  parse_eq_arenaOf (by decide +kernel) (by decide +kernel)

theorem parse_plainAllow : parse plainAllow = .ok (arenaOf plainAllow) :=
  parse_eq_arenaOf (by decide +kernel) (by decide +kernel)

/-- The dot before `b` in `hiddenAllow` belongs on a new line. -/
theorem exists_unbroken_hiddenAllow : ∃ m links top operator,
    Unbroken 2 (arenaOf hiddenAllow) m links top operator ∧ operator.span.start = 15 := by
  have hfound : 15 ∈ (Finding.all 2 ⟨hiddenAllow.toList, arenaOf hiddenAllow⟩).map
      (·.operator.start) := by decide +kernel
  obtain ⟨f, hf, hstart⟩ := List.mem_map.mp hfound
  obtain ⟨m, -, hof⟩ := List.mem_filterMap.mp hf
  obtain ⟨links, top, operator, hunbroken, htells⟩ := Finding.unbroken_of_of?
    (parse_linked parse_hiddenAllow) (parse_sorted parse_hiddenAllow) hof
  exact ⟨m, links, top, operator, hunbroken, htells.operator ▸ hstart⟩

/-- The comment in `hiddenAllow` is one, as the tokens are the same without it, but the link on its line is
reported; the comment in `plainAllow` silences both lines. -/
theorem check_beside_hidden_and_plain_allow :
    pairLinter.OnlyChains { threshold := 2 } ∧ pairLinter.frontEnd? ⟨"a.js"⟩ = some frontEnd ∧
      Text.line? 1 hiddenAllow.toList =
        some ("get(\"http://x\").b().c(); ".toList ++ Directive.allowChains) ∧
      Text.line? 1 plainAllow.toList =
        some ("get(\"x\").b().c(); ".toList ++ Directive.allowChains) ∧
      (arenaOf hiddenAllow).tokens = (arenaOf "get(\"http://x\").b().c(); \n").tokens ∧
      (∃ vs, pairLinter.check ⟨"a.js"⟩ hiddenAllow = .ok vs ∧ ∃ v ∈ vs, v.location.offset = 15) ∧
      ∃ vs, pairLinter.check ⟨"a.js"⟩ plainAllow = .ok vs ∧ ∀ v ∈ vs,
        Text.lineAt v.location.offset plainAllow.toList ≠ 1 ∧
          Text.lineAt v.location.offset plainAllow.toList ≠ 2 := by
  have honly : pairLinter.OnlyChains { threshold := 2 } := rfl
  have hf : pairLinter.frontEnd? ⟨"a.js"⟩ = some frontEnd := rfl
  have hhidden : Text.line? 1 hiddenAllow.toList =
      some ("get(\"http://x\").b().c(); ".toList ++ Directive.allowChains) := by decide +kernel
  have hplain : Text.line? 1 plainAllow.toList =
      some ("get(\"x\").b().c(); ".toList ++ Directive.allowChains) := by decide +kernel
  refine ⟨honly, hf, hhidden, hplain, by decide +kernel, ?_, ?_⟩
  · obtain ⟨vs, front, behind, hcheck, hcut, -, -, hreported⟩ :=
      check_beside_trailing_allow pairLinter { threshold := 2 } honly rfl ⟨"a.js"⟩ hf hiddenAllow _
        parse_hiddenAllow 1 _ hhidden
    have hbehind : behind = "x\").b().c(); // chain-lint: allow(method-chaining)".toList := by
      have hfirst : (Text.splitFirst? "//".toList
          ("get(\"http://x\").b().c(); ".toList ++ Directive.allowChains)).map Prod.snd = some
            "x\").b().c(); // chain-lint: allow(method-chaining)".toList := by decide +kernel
      rw [(Text.splitFirst?_eq_some_iff (by decide)).mpr hcut] at hfirst
      exact Option.some.inj hfirst
    obtain ⟨m, links, top, operator, hunbroken, hstart⟩ := exists_unbroken_hiddenAllow
    have hline : Text.lineAt operator.span.start hiddenAllow.toList = 1 := by
      rw [hstart]
      decide +kernel
    have hnone : ¬ AllowsOn hiddenAllow 0 ruleName := by
      rintro ⟨text, -, htext, -⟩
      cases htext
    obtain ⟨v, hv, hoffset⟩ := hreported (by rw [hbehind]; decide +kernel) m links top operator
      hunbroken (Or.inl ⟨hline, hnone⟩)
    exact ⟨vs, hcheck, v, hv, hoffset.trans hstart⟩
  · obtain ⟨vs, front, behind, hcheck, hcut, -, hsilent, -⟩ :=
      check_beside_trailing_allow pairLinter { threshold := 2 } honly rfl ⟨"a.js"⟩ hf plainAllow _
        parse_plainAllow 1 _ hplain
    have hfront : front = "get(\"x\").b().c(); ".toList := by
      have hfirst : (Text.splitFirst? "//".toList
          ("get(\"x\").b().c(); ".toList ++ Directive.allowChains)).map Prod.fst = some
            "get(\"x\").b().c(); ".toList := by decide +kernel
      rw [(Text.splitFirst?_eq_some_iff (by decide)).mpr hcut] at hfirst
      exact Option.some.inj hfirst
    exact ⟨vs, hcheck, hsilent hfront⟩

end JavaScript

end CallChain
