import CallChain.Proofs.Chain.Verdict
import CallChain.Proofs.JavaScript.ChainArena

/-!
# What is found in a chain

A chain that is longer than the threshold and stands on one line has a finding for each of its links, and
no other chain has any. The findings are given outright, in the order of the text, which is not the order
of the nodes: the last link of a chain has the smallest number.
-/
namespace CallChain.JavaScript

open CallChain.Syntax Grammar Chain

variable {glue base name : List Char} {names later earlier : List (List Char)} {threshold : Nat}

theorem spanOf_append (before first last : List Char) :
    spanOf before (first ++ last) = ⟨(spanOf before first).start, (spanOf (before ++ first) last).stop,
      (spanOf before first).startPos, (spanOf (before ++ first) last).stopPos⟩ := by
  rw [spanOf, ← List.append_assoc]
  rfl

theorem exists_chain_append (glue base : List Char) (later earlier : List (List Char)) :
    ∃ rest, chain glue base (later ++ earlier) = chain glue base earlier ++ rest := by
  have happend := chain_append glue base later.reverse earlier
  rw [List.reverse_reverse] at happend
  exact ⟨_, happend⟩

theorem exists_chainTokens_append (glue base : List Char) (later earlier : List (List Char)) :
    ∃ rest, chainTokens glue base (later ++ earlier) = chainTokens glue base earlier ++ rest := by
  induction later with
  | nil => exact ⟨[], (List.append_nil _).symm⟩
  | cons name later ih =>
    obtain ⟨rest, hrest⟩ := ih
    refine ⟨rest ++ linkTokens glue (chain glue base (later ++ earlier)) name, ?_⟩
    rw [List.cons_append, chainTokens, hrest, List.append_assoc]

/-- The finding of a link of a chain on one line. -/
def finding (glue base : List Char) (later : List (List Char)) (name : List Char)
    (earlier : List (List Char)) : Finding where
  link := 2 * later.length + 3
  callText := String.ofList (name ++ ['(', ')'])
  chainings := (later ++ name :: earlier).length
  nodeCode := String.ofList (chain glue base (later ++ name :: earlier))
  chain := spanOf [] (chain glue base (later ++ name :: earlier))
  operator := spanOf (chain glue base earlier ++ glue) ['.']
  span := spanOf (chain glue base earlier ++ glue) (['.'] ++ name)

/-- The findings of the first links of a chain, which `later` come behind, from the first to the last. -/
def findings (glue base : List Char) (later : List (List Char)) : List (List Char) → List Finding
  | [] => []
  | name :: earlier =>
    findings glue base (later ++ [name]) earlier ++ [finding glue base later name earlier]

namespace HoldsChain

variable {a : Arena}

theorem isExempt_top (h : HoldsChain a glue base names) : isExempt a 2 = false := by
  have hparent : a.parent? 2 = some 1 := Arena.parent?_of_holdsAt h.tree
  rw [isExempt, hparent]
  simp [h.statement]

theorem span_whole (h : HoldsChain a glue base names) :
    a.span 2 = spanOf [] (chain glue base names) :=
  @span_object glue base names a [] h

theorem span_linkObject (h : HoldsChain a glue base (later ++ name :: earlier)) :
    a.span (2 * later.length + 4) = spanOf [] (chain glue base earlier) := by
  have hinner : HoldsChain a glue base ((later ++ [name]) ++ earlier) := by
    rwa [List.append_assoc, List.singleton_append]
  have hspan := hinner.span_object
  rwa [List.length_append, List.length_singleton] at hspan

/-- A link is on a new line if its glue brings one, since its name does not. -/
theorem hasLineBreak_link (h : HoldsChain a glue base (later ++ name :: earlier))
    (hname : isIdentifier name = true) :
    hasLineBreak a (2 * later.length + 3) = decide ('\n' ∈ glue) := by
  obtain ⟨property, hlink⟩ := h.exists_link
  have hobject : memberObject? a (2 * later.length + 3) = some (2 * later.length + 4) :=
    hlink.memberObject?_eq
  have haccess : a.span (2 * later.length + 3) =
      spanOf [] (chain glue base earlier ++ glue ++ ['.'] ++ name) :=
    Arena.span_of_getElem? hlink.access
  have hplain : name.count '\n' = 0 := by
    rw [List.count_eq_zero]
    intro hmem
    have hpart := mem_isNamePart hname '\n' hmem
    exact absurd hpart (by decide)
  have hlines : (spanOf [] (chain glue base earlier ++ glue ++ ['.'] ++ name)).stopPos.line =
      (spanOf [] (chain glue base earlier)).stopPos.line + glue.count '\n' := by
    have hdot : ['.'].count '\n' = 0 := rfl
    show (endOf _).line = (endOf _).line + _
    simp only [line_endOf, List.nil_append, List.count_append, hdot, hplain]
    omega
  rw [hasLineBreak, hobject]
  simp only [haccess, h.span_linkObject, hlines]
  rw [decide_eq_decide, ← List.count_pos_iff]
  omega

end HoldsChain

section Tokens

variable (hbase : base ≠ []) (hnames : ∀ m ∈ names, m ≠ [])
include hbase hnames

theorem tokens_chainArena : (chainArena glue base names).tokens.toList = chainTokens glue base names := by
  rw [chainArena, Tree.tokens_toArena]
  apply List.mergeSort_of_pairwise
  refine (pairwise_chainTokens hbase hnames).imp ?_
  intro s t hle
  exact decide_eq_true hle

theorem sorted_chainArena : (chainArena glue base names).Sorted := by
  rw [Arena.Sorted, tokens_chainArena hbase hnames]
  exact pairwise_chainTokens hbase hnames

end Tokens

/-- The operator of a link is its dot: the tokens before it start before the object ends. -/
theorem operator?_link (hbase : base ≠ []) (hnames : ∀ m ∈ later ++ name :: earlier, m ≠ [])
    {a : Arena} (ha : a = chainArena glue base (later ++ name :: earlier)) {property : Nat}
    (hlink : HoldsLink a.nodes glue base name earlier (some (2 * later.length + 1))
      (2 * later.length + 2) property) :
    operator? a (2 * later.length + 4) property =
      some ⟨".", spanOf (chain glue base earlier ++ glue) ['.']⟩ := by
  have hholds : HoldsChain a glue base (later ++ name :: earlier) := ha ▸ chainArena_holds ..
  have hobject : (a.span (2 * later.length + 4)).stop = Text.byteLength (chain glue base earlier) := by
    rw [hholds.span_linkObject]
    rfl
  have hproperty : (a.span property).start =
      Text.byteLength (chain glue base earlier ++ glue ++ ['.']) := by
    rw [hlink.span_property]
    rfl
  have hearlier : ∀ m ∈ earlier, m ≠ [] := fun m hm =>
    hnames m (List.mem_append_right _ (List.mem_cons_of_mem _ hm))
  obtain ⟨rest, hrest⟩ := exists_chainTokens_append glue base later (name :: earlier)
  have htokens : a.tokens.toList =
      chainTokens glue base earlier ++ (linkTokens glue (chain glue base earlier) name ++ rest) := by
    rw [ha, tokens_chainArena hbase hnames, hrest, chainTokens, List.append_assoc]
  have hbefore : (chainTokens glue base earlier).find?
      (isBetween a (2 * later.length + 4) property) = none := by
    rw [List.find?_eq_none]
    intro t ht hbetween
    have hlt := start_lt_of_mem_chainTokens hbase hearlier t ht
    simp only [isBetween, Bool.and_eq_true, decide_eq_true_eq, hobject] at hbetween
    omega
  have hdot : isBetween a (2 * later.length + 4) property
      ⟨".", spanOf (chain glue base earlier ++ glue) ['.']⟩ = true := by
    have hbyte : Text.byteLength ['.'] = 1 := rfl
    simp only [isBetween, isAccess, spanOf, hobject, hproperty, Text.byteLength_append, hbyte,
      Bool.and_eq_true, Bool.or_eq_true, decide_eq_true_eq]
    refine ⟨Or.inl trivial, ?_, ?_⟩ <;> omega
  have hsorted : a.Sorted := ha ▸ sorted_chainArena hbase hnames
  rw [operator?_eq_scan hsorted, scanOperator, htokens, List.find?_append, hbefore, linkTokens,
    List.cons_append, List.find?_cons_of_pos hdot]
  rfl

section Link

variable (hbase : isIdentifier base = true)
  (hnames : ∀ m ∈ later ++ name :: earlier, isIdentifier m = true)

theorem callText_link {property : Nat} {a : Arena}
    (hlink : HoldsLink a.nodes glue base name earlier (some (2 * later.length + 1))
      (2 * later.length + 2) property) :
    callText ⟨chain glue base (later ++ name :: earlier), a⟩ (2 * later.length + 3) property =
      String.ofList (name ++ ['(', ')']) := by
  obtain ⟨rest, hrest⟩ := exists_chain_append glue base later (name :: earlier)
  have htext : chain glue base (later ++ name :: earlier) =
      chain glue base earlier ++ glue ++ ['.'] ++ (name ++ (['('] ++ [')'] ++ rest)) := by
    rw [hrest, chain_cons]
    simp only [List.append_assoc]
  have hparent : a.parent? (2 * later.length + 3) = some (2 * later.length + 2) :=
    hlink.calledBy.parent
  have hcall : a.kind? (2 * later.length + 2) = some (.call (2 * later.length + 3) [] false) :=
    hlink.kind?_call
  have hslice := slice?_spanOf (chain glue base earlier ++ glue ++ ['.']) name (['('] ++ [')'] ++ rest)
  simp only [callText, hparent, Option.bind_some, hcall, if_true, Source.textOf, Source.textIn,
    hlink.span_property, htext, hslice, Option.getD_some]
  simp [← String.toList_inj]

include hbase hnames

theorem of?_link :
    Finding.of? threshold ⟨chain glue base (later ++ name :: earlier),
        chainArena glue base (later ++ name :: earlier)⟩ (2 * later.length + 3) =
      if (later ++ name :: earlier).length ≤ threshold ∨ '\n' ∈ glue then none
      else some (finding glue base later name earlier) := by
  have hholds := chainArena_holds glue base (later ++ name :: earlier)
  have hname : isIdentifier name = true :=
    hnames name (List.mem_append_right _ List.mem_cons_self)
  have hne : ∀ {m : List Char}, isIdentifier m = true → m ≠ [] := by
    rintro m hm rfl
    cases hm
  generalize ha : chainArena glue base (later ++ name :: earlier) = a at hholds ⊢
  obtain ⟨property, hlink⟩ := hholds.exists_link
  have hkind : a.kind? (2 * later.length + 3) =
      some (.member (2 * later.length + 4) property false false) := hlink.kind?_access
  have hoperator := operator?_link (hne hbase) (fun m hm => hne (hnames m hm)) ha.symm hlink
  have hcode : Source.textOf ⟨chain glue base (later ++ name :: earlier), a⟩ 2 =
      String.ofList (chain glue base (later ++ name :: earlier)) := by
    have hslice := slice?_spanOf [] (chain glue base (later ++ name :: earlier)) []
    rw [List.nil_append, List.append_nil] at hslice
    rw [Source.textOf, Source.textIn, hholds.span_whole, hslice]
    rfl
  unfold Finding.of?
  simp only [hkind, hholds.depth_link, hholds.isExempt_top, hholds.hasLineBreak_link hname, hoperator,
    Bool.or_false, Bool.or_eq_true, decide_eq_true_eq, callText_link hlink, hcode, hholds.span_whole,
    hlink.span_property, Option.map_some]
  split
  · rfl
  · rw [finding, spanOf_append]

end Link

/-- What is to be found in a chain. -/
def reported (threshold : Nat) (glue base : List Char) (names : List (List Char)) : List Finding :=
  if names.length ≤ threshold ∨ '\n' ∈ glue then [] else findings glue base [] names

/-- Offsets of the dots of a chain, from the first to the last. -/
def dots (glue base : List Char) : List (List Char) → List Nat
  | [] => []
  | _ :: earlier => dots glue base earlier ++ [Text.byteLength (chain glue base earlier ++ glue)]

theorem map_start_findings (glue base : List Char) (later names : List (List Char)) :
    (findings glue base later names).map (·.operator.start) = dots glue base names := by
  induction names generalizing later with
  | nil => rfl
  | cons name earlier ih =>
    rw [findings, List.map_append, ih, dots]
    rfl

theorem lt_of_mem_dots {p : Nat} (h : p ∈ dots glue base names) :
    p < Text.byteLength (chain glue base names) := by
  induction names with
  | nil => cases h
  | cons name earlier ih =>
    have hopen : Text.byteLength ['('] = 1 := rfl
    rw [dots, List.mem_append, List.mem_singleton] at h
    rw [chain_cons]
    rcases h with h | rfl
    · have hlt := ih h
      simp only [Text.byteLength_append]
      omega
    · simp only [Text.byteLength_append]
      omega

theorem pairwise_dots (glue base : List Char) (names : List (List Char)) :
    (dots glue base names).Pairwise (· < ·) := by
  induction names with
  | nil => exact .nil
  | cons name earlier ih =>
    rw [dots, List.pairwise_append]
    refine ⟨ih, List.pairwise_singleton _ _, fun p hp q hq => ?_⟩
    have hlt := lt_of_mem_dots hp
    obtain rfl := List.mem_singleton.mp hq
    rw [Text.byteLength_append]
    omega

theorem pairwise_findings (glue base : List Char) (later names : List (List Char)) :
    (findings glue base later names).Pairwise fun f g => f.operator.start < g.operator.start := by
  have hpairwise := pairwise_dots glue base names
  rwa [← map_start_findings glue base later, List.pairwise_map] at hpairwise

/-- A finding is placed where its operator is. -/
theorem start_of_mem_findings {f : Finding} (h : f ∈ findings glue base later names) :
    f.span.start = f.operator.start := by
  induction names generalizing later with
  | nil => cases h
  | cons name earlier ih =>
    rcases List.mem_append.mp h with h | h
    · exact ih h
    · obtain rfl := List.mem_singleton.mp h
      rfl

section Chain

variable (hbase : isIdentifier base = true) (hnames : ∀ m ∈ names, isIdentifier m = true)
include hbase hnames

theorem filterMap_linkNumbers {first : List (List Char)} (h : names = later ++ first) :
    (linkNumbers (2 * later.length + 1) first).filterMap
        (Finding.of? threshold ⟨chain glue base names, chainArena glue base names⟩) =
      if names.length ≤ threshold ∨ '\n' ∈ glue then [] else findings glue base later first := by
  induction first generalizing later with
  | nil => simp [linkNumbers, findings]
  | cons name earlier ih =>
    have hinner : names = (later ++ [name]) ++ earlier := by
      rw [h, List.append_assoc, List.singleton_append]
    have hrest := ih hinner
    rw [List.length_append, List.length_singleton] at hrest
    have hlast : Finding.of? threshold ⟨chain glue base names, chainArena glue base names⟩
        (2 * later.length + 3) = if names.length ≤ threshold ∨ '\n' ∈ glue then none
          else some (finding glue base later name earlier) := by
      subst h
      exact of?_link hbase hnames
    rw [linkNumbers, List.filterMap_append]
    show (linkNumbers (2 * (later.length + 1) + 1) earlier).filterMap _ ++ _ = _
    rw [hrest, List.filterMap_cons, hlast]
    split <;> rfl

theorem all_perm : (Finding.all threshold ⟨chain glue base names, chainArena glue base names⟩).Perm
    (reported threshold glue base names) := by
  have hmembers := (chainArena_holds glue base names).members_perm
  refine (hmembers.filterMap _).trans (.of_eq ?_)
  exact filterMap_linkNumbers hbase hnames (List.nil_append names).symm

theorem slash_not_mem_chain (hglue : ∀ c ∈ glue, isSpace c = true) : '/' ∉ chain glue base names := by
  have hword : ∀ {m : List Char}, isIdentifier m = true → '/' ∉ m := fun hm hmem =>
    absurd (mem_isNamePart hm '/' hmem) (by decide)
  have hblank : '/' ∉ glue := fun hmem => absurd (hglue '/' hmem) (by decide)
  induction names with
  | nil => exact hword hbase
  | cons name earlier ih =>
    have hname := hword (hnames name List.mem_cons_self)
    have hearlier := ih fun m hm => hnames m (List.mem_cons_of_mem name hm)
    rw [chain_cons]
    simp [hearlier, hblank, hname]

end Chain

theorem pairwise_reported (threshold : Nat) (glue base : List Char) (names : List (List Char))
    (file : Path) (severity : Severity) :
    ((reported threshold glue base names).map (·.toViolation file severity)).Pairwise
      fun v w => v.location.offset < w.location.offset := by
  rw [List.pairwise_map, reported]
  split
  · exact .nil
  · refine (pairwise_findings glue base [] names).imp_of_mem ?_
    intro f g hf hg hlt
    rwa [← start_of_mem_findings hf, ← start_of_mem_findings hg] at hlt

/-- The check of a chain reports its findings in the order of the text, for no comment allows them. -/
theorem check_chainArena (hglue : ∀ c ∈ glue, isSpace c = true) (hbase : isIdentifier base = true)
    (hnames : ∀ m ∈ names, isIdentifier m = true) (settings : Settings) {ctx : FileContext}
    (hcontent : ctx.content = String.ofList (chain glue base names)) :
    check settings ctx (chainArena glue base names) =
      (reported settings.threshold glue base names).map
        (·.toViolation ctx.relativePath settings.severity) := by
  have hreport : ∀ f : Finding,
      f.report? settings ctx = some (f.toViolation ctx.relativePath settings.severity) := by
    intro f
    have hdenied : Allowance.find ctx.content f.operator.startPos.line ruleName = .denied := by
      rw [Allowance.find_eq_denied_iff]
      apply not_allowedAt_of_no_slash
      rw [hcontent, String.toList_ofList]
      exact slash_not_mem_chain hbase hnames hglue
    rw [Finding.report?, hdenied]
  unfold check
  simp only [hcontent, String.toList_ofList, funext hreport]
  refine mergeSort_of_ascending ?_ (pairwise_reported ..)
  rw [← List.filterMap_eq_map']
  exact (all_perm hbase hnames).filterMap _

end CallChain.JavaScript
