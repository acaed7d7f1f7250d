import CallChain.Proofs.Chain.Operator
import CallChain.Proofs.Chain.Report
import CallChain.Proofs.Chain.Spine
import CallChain.Proofs.Directive

/-!
# Which links are reported

`Overlong` says of a link, in terms of the spine it lies on, that it should start on its own line. The
check reports exactly these links with a mend, each of them once: the walks, the exemptions, the search
for the operator and the allow comments come to the same verdict for each link of a spine.
-/
namespace CallChain.Chain

open CallChain.Syntax

variable {a : Arena} {threshold : Nat} {content : String} {m top : NodeId}

/-- An operand of a conditional expression, or the test of an `if`. -/
def Exempt (a : Arena) (top : NodeId) : Prop :=
  (∃ i test consequent alternate, a.kind? i = some (.conditional test consequent alternate) ∧
    (top = test ∨ top = consequent ∨ top = alternate)) ∨
  ∃ i consequent alternate, a.kind? i = some (.ifStatement top consequent alternate)

theorem isExempt_iff (hl : a.Linked) : isExempt a top = true ↔ Exempt a top := by
  constructor
  · intro h
    unfold isExempt at h
    cases hp : a.parent? top with
    | none => simp [hp] at h
    | some i =>
      obtain ⟨k, hk, hmem⟩ := hl.listed hp
      simp only [hp, Option.bind_some, hk] at h
      cases k with
      | conditional test consequent alternate =>
        exact Or.inl ⟨i, test, consequent, alternate, hk, by simpa [NodeKind.children] using hmem⟩
      | ifStatement test consequent alternate =>
        obtain rfl : test = top := by simpa using h
        exact Or.inr ⟨i, consequent, alternate, hk⟩
      | _ => simp at h
  · rintro (⟨i, test, consequent, alternate, hk, hmem⟩ | ⟨i, consequent, alternate, hk⟩)
    · have hp := hl.parent hk (show top ∈ _ by simpa [NodeKind.children] using hmem)
      simp [isExempt, hp, hk]
    · have hp := hl.parent hk (show top ∈ _ by simp [NodeKind.children])
      simp [isExempt, hp, hk]

/-- A link that should start on its own line: its chain is longer than the threshold and stands in no
exempt place, and the link ends on the line of its object. With the link come the spine it lies on, the
top of that, and its operator. -/
structure Unbroken (threshold : Nat) (a : Arena) (m : NodeId) (links : List NodeId) (top : NodeId)
    (operator : Token) : Prop where
  spine : Spine a links
  mem : m ∈ links
  topmost : IsTop a links top
  deep : threshold < spineDepth a links
  notExempt : ¬ Exempt a top
  written : ∃ object property optional, a.kind? m = some (.member object property false optional) ∧
    (a.span m).stopPos.line = (a.span object).stopPos.line ∧
    scanOperator a object property = some operator

/-- Such a link that no allow comment on the operator's line or the line before lets pass. -/
structure Overlong (threshold : Nat) (content : String) (a : Arena) (m : NodeId) (links : List NodeId)
    (top : NodeId) (operator : Token) : Prop extends Unbroken threshold a m links top operator where
  notAllowed : ¬ AllowedAt content operator.span.startPos.line ruleName

theorem hasLineBreak_eq {object property : NodeId} {computed optional : Bool}
    (hk : a.kind? m = some (.member object property computed optional)) :
    hasLineBreak a m = true ↔ (a.span m).stopPos.line ≠ (a.span object).stopPos.line := by
  rw [hasLineBreak, memberObject?_eq_some_iff.mpr ⟨property, computed, optional, hk⟩]
  simp only [ne_eq, decide_eq_true_eq]

namespace Finding

/-- What a finding tells about a link with a given depth, top and operator. -/
structure Tells (f : Finding) (s : Source) (m : NodeId) (chainings : Nat) (top : NodeId)
    (operator : Token) : Prop where
  link : f.link = m
  chainings : f.chainings = chainings
  nodeCode : f.nodeCode = s.textOf top
  operator : f.operator = operator.span

/-- What is found is a link, and the finding tells what the walks and the search came to. -/
theorem tells_of_of? {text : List Char} {f : Finding} (h : of? threshold ⟨text, a⟩ m = some f) :
    ∃ call object property optional operator, CalledBy a m call ∧
      a.kind? m = some (.member object property false optional) ∧
      threshold < (depth a m).1 ∧ isExempt a (depth a m).2 = false ∧
      (a.span m).stopPos.line = (a.span object).stopPos.line ∧
      operator? a object property = some operator ∧
      f.Tells ⟨text, a⟩ m (depth a m).1 (depth a m).2 operator := by
  unfold of? at h
  split at h
  · next object property computed optional hk =>
    simp only at hk h
    split at h
    · cases h
    · next hkeep =>
      simp only [Bool.or_eq_true, decide_eq_true_eq, hasLineBreak_eq hk, not_or, Nat.not_le,
        Bool.not_eq_true, not_not] at hkeep
      obtain ⟨⟨hdeep, hexempt⟩, hline⟩ := hkeep
      obtain ⟨operator, ho, rfl⟩ := Option.map_eq_some_iff.mp h
      cases hlink : methodCall? a m with
      | none =>
        rw [depth_of_not_link hlink] at hdeep
        exact absurd hdeep (Nat.not_lt_zero _)
      | some call =>
        have hcalled := methodCall?_eq_some_iff.mp hlink
        obtain ⟨object', property', optional', hk', -⟩ := hcalled.access
        obtain ⟨rfl, rfl, rfl, rfl⟩ : object = object' ∧ property = property' ∧ computed = false ∧
            optional = optional' := by simpa using hk.symm.trans hk'
        exact ⟨call, object, property, optional, operator, hcalled, hk, hdeep, hexempt, hline, ho,
          ⟨rfl, rfl, rfl, rfl⟩⟩
  · cases h

theorem exists_of? {text : List Char} {object property : NodeId} {computed optional : Bool}
    {operator : Token} (hk : a.kind? m = some (.member object property computed optional))
    (hdeep : threshold < (depth a m).1) (hexempt : isExempt a (depth a m).2 = false)
    (hline : (a.span m).stopPos.line = (a.span object).stopPos.line)
    (ho : operator? a object property = some operator) : ∃ f, of? threshold ⟨text, a⟩ m = some f := by
  have hbreak : hasLineBreak a m = false := by
    rw [← Bool.not_eq_true, hasLineBreak_eq hk]
    exact not_not.mpr hline
  unfold of?
  simp [hk, hexempt, hbreak, ho, Nat.not_le.mpr hdeep]

/-- What is found lies on a spine that asks for a line break. -/
theorem unbroken_of_of? (hl : a.Linked) (hs : a.Sorted) {text : List Char} {f : Finding}
    (h : of? threshold ⟨text, a⟩ m = some f) :
    ∃ links top operator, Unbroken threshold a m links top operator ∧
      f.Tells ⟨text, a⟩ m (spineDepth a links) top operator := by
  obtain ⟨call, object, property, optional, operator, hcalled, hk, hdeep, hexempt, hline, ho, htells⟩ :=
    tells_of_of? h
  obtain ⟨links, hspine, hm⟩ := exists_spine hl.childrenLinked hcalled
  obtain ⟨top, htop, hdepth⟩ := depth_of_spine hl.childrenLinked hspine hm
  rw [hdepth] at hdeep hexempt htells
  refine ⟨links, top, operator, ⟨hspine, hm, htop, hdeep, ?_, ?_⟩, htells⟩
  · rw [← isExempt_iff hl, hexempt]
    exact Bool.false_ne_true
  · exact ⟨object, property, optional, hk, hline, operator?_eq_scan hs object property ▸ ho⟩

/-- A link whose spine asks for a line break is found. -/
theorem of?_of_unbroken (hl : a.Linked) (hs : a.Sorted) {links : List NodeId} {operator : Token}
    (h : Unbroken threshold a m links top operator) (text : List Char) :
    ∃ f, of? threshold ⟨text, a⟩ m = some f ∧
      f.Tells ⟨text, a⟩ m (spineDepth a links) top operator := by
  obtain ⟨top', htop', hdepth⟩ := depth_of_spine hl.childrenLinked h.spine h.mem
  obtain ⟨l, hlast, hcall⟩ := h.topmost
  obtain ⟨l', hlast', hcall'⟩ := htop'
  obtain rfl := Option.some.inj (hlast.symm.trans hlast')
  obtain rfl := hcall.call_eq hcall'
  obtain ⟨object, property, optional, hk, hline, hscan⟩ := h.written
  have ho := (operator?_eq_scan hs object property).trans hscan
  have hexempt : isExempt a top = false := by
    rw [← Bool.not_eq_true, isExempt_iff hl]
    exact h.notExempt
  have hdeep := h.deep
  obtain ⟨f, hf⟩ : ∃ f, of? threshold ⟨text, a⟩ m = some f :=
    exists_of? hk (by rw [hdepth]; exact hdeep) (by rw [hdepth]; exact hexempt) hline ho
  obtain ⟨call, object', property', optional', operator', -, hk', -, -, -, ho', htells⟩ :=
    tells_of_of? hf
  obtain ⟨rfl, rfl, -⟩ : object = object' ∧ property = property' ∧ optional = optional' := by
    simpa using hk.symm.trans hk'
  obtain rfl := Option.some.inj (ho.symm.trans ho')
  rw [hdepth] at htells
  exact ⟨f, hf, htells⟩

theorem link_of_of? {s : Source} {f : Finding} (h : of? threshold s m = some f) : f.link = m := by
  obtain ⟨_, _, _, _, _, _, _, _, _, _, _, htells⟩ := tells_of_of? h
  exact htells.link

theorem mem_members_of_of? {text : List Char} {f : Finding} (h : of? threshold ⟨text, a⟩ m = some f) :
    m ∈ a.members := by
  obtain ⟨call, object, property, optional, operator, -, hk, -⟩ := tells_of_of? h
  refine List.mem_filter.mpr ⟨List.mem_range.mpr (Arena.lt_size_of_kind? hk), ?_⟩
  rw [hk]
  rfl

theorem mem_all_iff {text : List Char} {f : Finding} :
    f ∈ all threshold ⟨text, a⟩ ↔ of? threshold ⟨text, a⟩ f.link = some f := by
  rw [all, List.mem_filterMap]
  constructor
  · rintro ⟨m, -, hf⟩
    rw [link_of_of? hf]
    exact hf
  · intro hf
    exact ⟨f.link, mem_members_of_of? hf, hf⟩

/-- Each node is found at most once. -/
theorem nodup_links (s : Source) (threshold : Nat) : ((all threshold s).map (·.link)).Nodup := by
  have hsub : ∀ ids : List NodeId, ((ids.filterMap (of? threshold s)).map (·.link)).Sublist ids := by
    intro ids
    induction ids with
    | nil => exact .slnil
    | cons id ids ih =>
      rw [List.filterMap_cons]
      cases hf : of? threshold s id with
      | none => exact ih.cons id
      | some f =>
        rw [List.map_cons, link_of_of? hf]
        exact ih.cons_cons id
  exact (hsub _).nodup (List.nodup_range.filter _)

end Finding

theorem mem_denied_iff {f : Finding} :
    f ∈ denied threshold content a ↔ Finding.of? threshold ⟨content.toList, a⟩ f.link = some f ∧
      ¬ AllowedAt content f.operator.startPos.line ruleName := by
  rw [denied, List.mem_filter, Finding.isDenied, decide_eq_true_eq, Allowance.find_eq_denied_iff,
    Finding.mem_all_iff]

theorem nodup_links_denied (threshold : Nat) (content : String) (a : Arena) :
    ((denied threshold content a).map (·.link)).Nodup :=
  (List.filter_sublist.map _).nodup (Finding.nodup_links _ _)

/-- The links with a denied finding are the overlong ones. -/
theorem mem_links_denied_iff (hl : a.Linked) (hs : a.Sorted) :
    m ∈ (denied threshold content a).map (·.link) ↔
      ∃ links top operator, Overlong threshold content a m links top operator := by
  constructor
  · intro h
    obtain ⟨f, hf, rfl⟩ := List.mem_map.mp h
    obtain ⟨hof, hnot⟩ := mem_denied_iff.mp hf
    obtain ⟨links, top, operator, hunbroken, htells⟩ := Finding.unbroken_of_of? hl hs hof
    rw [htells.operator] at hnot
    exact ⟨links, top, operator, hunbroken, hnot⟩
  · rintro ⟨links, top, operator, hunbroken, hnot⟩
    obtain ⟨f, hof, htells⟩ := Finding.of?_of_unbroken hl hs hunbroken content.toList
    rw [← htells.operator] at hnot
    have hlink := htells.link
    subst hlink
    exact List.mem_map.mpr ⟨f, mem_denied_iff.mpr ⟨hof, hnot⟩, rfl⟩

/-- What a violation carries for a link: the depth of its chain, the text of the whole chain, and the
insertion of a line feed at the start of its operator. -/
structure Carries (v : Violation) (s : Source) (links : List NodeId) (top : NodeId)
    (operator : Token) : Prop where
  chainings : v.data.get? "chainings" = some (toString (spineDepth s.tree links))
  nodeCode : v.data.get? "nodeCode" = some (s.textOf top)
  mend : ∃ r, v.replacement? = some r ∧ r.newText = "\n" ∧ r.location.offset = operator.span.start ∧
    r.location.length = 0

theorem carries_toViolation {f : Finding} {s : Source} {links : List NodeId} {operator : Token}
    (h : f.Tells s m (spineDepth s.tree links) top operator) (file : Path) (severity : Severity) :
    Carries (f.toViolation file severity) s links top operator := by
  obtain ⟨-, hchainings, hcode⟩ := f.data_toViolation file severity
  refine ⟨?_, ?_, f.mend file, rfl, rfl, ?_, rfl⟩
  · rw [hchainings, h.chainings]
  · rw [hcode, h.nodeCode]
  · rw [← h.operator]
    rfl

end CallChain.Chain
