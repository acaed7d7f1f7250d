import CallChain.Proofs.Chain.Copies
import CallChain.Proofs.Chain.Reported
import CallChain.Proofs.Edit.LineFeeds
import CallChain.Proofs.Linter.Passes

/-!
# One round of mends is enough

With a front end that is stable under line feeds, and whose links do not end before their operators,
mending the chains of a text ends after one round. A line feed before an operator breaks its link, links
that were broken stay so, and a line with an allow comment moves together with the line that the comment
reaches, since no link on either is mended. So a link that was allowed is not mended later. It can still be
reported later as lacking a reason: a line feed on the line before it may uncover a comment that gives none
and is asked first.
-/
namespace CallChain

open CallChain.Syntax

namespace Chain

variable {text : List Char} {a : Arena} {threshold : Nat} {m object : NodeId}

section Broken

variable {places : List Nat} (h : Consistent text a) (hp : Text.Places places text)
include h hp

theorem stop_line_moved {i : NodeId} {k : NodeKind} (hk : a.kind? i = some k) :
    ((a.moved places (Text.breakBefore places text)).span i).stopPos.line =
      (a.span i).stopPos.line + places.countP (· < (a.span i).stop) := by
  have hspan := h.span_liesOn hk
  rw [Arena.span_moved hk, hspan.stop_line]
  exact hp.lineAt_breakBefore hspan.stop

/-- Two ends that are on one line of the broken text were on one line before, and no place lies between
them: lines and places both grow with the offset, so that their sums agree only if both agree. -/
theorem sameLine_moved_iff {i j : NodeId} {k k' : NodeKind} (hi : a.kind? i = some k)
    (hj : a.kind? j = some k') :
    ((a.moved places (Text.breakBefore places text)).span i).stopPos.line =
        ((a.moved places (Text.breakBefore places text)).span j).stopPos.line ↔
      (a.span i).stopPos.line = (a.span j).stopPos.line ∧
        places.countP (· < (a.span i).stop) = places.countP (· < (a.span j).stop) := by
  have hiOn := h.span_liesOn hi
  have hjOn := h.span_liesOn hj
  rw [stop_line_moved h hp hi, stop_line_moved h hp hj, hiOn.stop_line, hjOn.stop_line]
  rcases Nat.le_total (a.span i).stop (a.span j).stop with hle | hle
  · have hlines := Text.lineAt_mono hiOn.stop hjOn.stop hle
    have hcounts := Text.countP_lt_mono places hle
    omega
  · have hlines := Text.lineAt_mono hjOn.stop hiOn.stop hle
    have hcounts := Text.countP_lt_mono places hle
    omega

/-- A link of the broken text asks for a line break if it asked for one before and no place lies between
the end of its object and its own: line feeds break links and join none. -/
theorem sought_moved_iff :
    Sought threshold (a.moved places (Text.breakBefore places text)) m object ↔
      Sought threshold a m object ∧
        places.countP (· < (a.span m).stop) = places.countP (· < (a.span object).stop) := by
  have hshape := Arena.moved_sameShape places (Text.breakBefore places text) a
  constructor
  · rintro ⟨⟨call, hcalled⟩, ⟨property, optional, hk⟩, hdeep, hexempt, hline⟩
    rw [depth_of_sameShape hshape] at hdeep hexempt
    rw [isExempt_of_sameShape hshape] at hexempt
    rw [hshape.kind?] at hk
    obtain ⟨k, hobject⟩ := h.object_kind? hk
    obtain ⟨hsame, hcount⟩ := (sameLine_moved_iff h hp hk hobject).mp hline
    exact ⟨⟨⟨call, (calledBy_of_sameShape hshape).mp hcalled⟩, ⟨property, optional, hk⟩, hdeep, hexempt,
      hsame⟩, hcount⟩
  · rintro ⟨⟨⟨call, hcalled⟩, ⟨property, optional, hk⟩, hdeep, hexempt, hsame⟩, hcount⟩
    obtain ⟨k, hobject⟩ := h.object_kind? hk
    refine ⟨⟨call, (calledBy_of_sameShape hshape).mpr hcalled⟩, ⟨property, optional, ?_⟩, ?_, ?_, ?_⟩
    · rw [hshape.kind?, hk]
    · rwa [depth_of_sameShape hshape]
    · rwa [depth_of_sameShape hshape, isExempt_of_sameShape hshape]
    · exact (sameLine_moved_iff h hp hk hobject).mpr ⟨hsame, hcount⟩

end Broken

section Mended

variable {content : String} {places : List Nat} (h : Faithful content.toList a)
  (hall : ∀ q, q ∈ places ↔ ∃ f ∈ denied threshold content a, f.operator.start = q)
include h hall

/-- No allow comment reaches the line of a place. -/
theorem places_not_allowed :
    ∀ q ∈ places, ¬ AllowedAt content (Text.lineAt q content.toList) ruleName := by
  intro q hq
  obtain ⟨f, hf, rfl⟩ := (hall q).mp hq
  obtain ⟨hof, hnot⟩ := mem_denied_iff.mp hf
  obtain ⟨-, t, -, hown, hoperator⟩ := h.sought_of_of? hof
  rw [hoperator, (h.token t hown.mem).start_line] at hnot
  rwa [hoperator]

variable (hp : Text.Places places content.toList)
include hp

/-- The links that ask for a line break after a text was broken before the operators of its denied
findings are those that asked for one before and were allowed. -/
theorem sought_mended_iff :
    Sought threshold (a.moved places (Text.breakBefore places content.toList)) m object ↔
      Sought threshold a m object ∧ AllowedAt content (a.span object).stopPos.line ruleName := by
  rw [sought_moved_iff h.toConsistent hp]
  refine and_congr_right fun hsought => ?_
  obtain ⟨property, optional, hk⟩ := hsought.access
  obtain ⟨k, hobject⟩ := h.object_kind? hk
  have hm := h.span_liesOn hk
  have ho := h.span_liesOn hobject
  constructor
  · intro hcount
    by_contra hnot
    -- A denied link has its operator among the places, between the two ends.
    obtain ⟨f, hof⟩ := h.of?_of_sought hsought
    obtain ⟨-, t, -, hown, hoperator⟩ := h.sought_of_of? hof
    rw [← h.operator_line hown hk hsought.sameLine, ← hoperator] at hnot
    have hmem : f ∈ denied threshold content a :=
      mem_denied_iff.mpr ⟨by rw [Finding.link_of_of? hof]; exact hof, hnot⟩
    obtain ⟨hlo, hhi⟩ := h.place hown hk
    have hplace : t.span.start ∈ places := (hall _).mpr ⟨f, hmem, by rw [hoperator]⟩
    have hstrict := Text.countP_lt_strict hplace hlo hhi
    omega
  · intro hallowed
    have hline := hsought.sameLine
    have hfree := hallowed.not_on_line (places_not_allowed h hall)
    rw [hm.stop_line, ho.stop_line] at hline
    rw [ho.stop_line] at hfree
    rw [hp.countP_lt_of_free ho.stop hfree, hp.countP_lt_of_free hm.stop (hline ▸ hfree), hline]

/-- The line of an allowed link moves by the places on the lines before it. -/
theorem line_mended (hs : Sought threshold a m object)
    (hallowed : AllowedAt content (a.span object).stopPos.line ruleName) :
    ((a.moved places (Text.breakBefore places content.toList)).span object).stopPos.line =
      (a.span object).stopPos.line +
        places.countP (Text.lineAt · content.toList < (a.span object).stopPos.line) := by
  obtain ⟨property, optional, hk⟩ := hs.access
  obtain ⟨k, hobject⟩ := h.object_kind? hk
  have ho := h.span_liesOn hobject
  have hfree := hallowed.not_on_line (places_not_allowed h hall)
  rw [ho.stop_line] at hfree
  rw [stop_line_moved h.toConsistent hp hobject, hp.countP_lt_of_free ho.stop hfree, ho.stop_line]

variable (h' : Faithful (Text.breakBefore places content.toList)
    (a.moved places (Text.breakBefore places content.toList)))
include h'

/-- A link that is unbroken after the mends is allowed, and it was so before. -/
theorem allowed_of_mended {links : List NodeId} {top : NodeId} {operator : Token}
    (hunbroken : Unbroken threshold (a.moved places (Text.breakBefore places content.toList)) m links top
      operator) :
    AllowedAt (String.ofList (Text.breakBefore places content.toList)) operator.span.startPos.line
        ruleName ∧
      ∃ links' top' operator', Unbroken threshold a m links' top' operator' ∧
        AllowedAt content operator'.span.startPos.line ruleName := by
  obtain ⟨object, hmoved, hline⟩ := h'.sought_of_unbroken hunbroken
  obtain ⟨hsought, hallowed⟩ := (sought_mended_iff h hall hp).mp hmoved
  obtain ⟨links', top', operator', hunbroken', hline'⟩ := h.exists_unbroken_of_sought hsought
  refine ⟨?_, links', top', operator', hunbroken', hline' ▸ hallowed⟩
  rw [hline, line_mended h hall hp hsought hallowed]
  exact hallowed.breakBefore hp (places_not_allowed h hall)

/-- An allowed link stays unbroken, and the answer to the search for its allow comment is the one it was,
unless a break has uncovered a comment on the line before. -/
theorem kept_of_allowed {links : List NodeId} {top : NodeId} {operator : Token}
    (hunbroken : Unbroken threshold a m links top operator)
    (hallowed : AllowedAt content operator.span.startPos.line ruleName) :
    ∃ links' top' operator',
      Unbroken threshold (a.moved places (Text.breakBefore places content.toList)) m links' top'
        operator' ∧
      ∀ reason, Allowance.find (String.ofList (Text.breakBefore places content.toList))
          operator'.span.startPos.line ruleName = .allowed reason ↔
        Uncovered places content (operator.span.startPos.line - 1) ruleName reason ∨
          (∀ other, ¬ Uncovered places content (operator.span.startPos.line - 1) ruleName other) ∧
            Allowance.find content operator.span.startPos.line ruleName = .allowed reason := by
  obtain ⟨object, hsought, hline⟩ := h.sought_of_unbroken hunbroken
  rw [hline] at hallowed ⊢
  obtain ⟨links', top', operator', hunbroken', hline'⟩ :=
    h'.exists_unbroken_of_sought ((sought_mended_iff h hall hp).mpr ⟨hsought, hallowed⟩)
  refine ⟨links', top', operator', hunbroken', fun reason => ?_⟩
  rw [hline', line_mended h hall hp hsought hallowed]
  exact hallowed.find_breakBefore hp (places_not_allowed h hall)

theorem denied_mended :
    denied threshold (String.ofList (Text.breakBefore places content.toList))
      (a.moved places (Text.breakBefore places content.toList)) = [] := by
  apply List.eq_nil_iff_forall_not_mem.mpr
  intro f hfound
  obtain ⟨hof, hnot⟩ := mem_denied_iff.mp hfound
  rw [String.toList_ofList] at hof
  obtain ⟨links, top, operator, hunbroken, htells⟩ :=
    Finding.unbroken_of_of? h'.linked h'.sorted hof
  rw [htells.operator] at hnot
  exact hnot (allowed_of_mended h hall hp h' hunbroken).1

end Mended

/-- The findings that are denied point to operators of different links. -/
theorem Consistent.places_denied {content : String} (h : Consistent content.toList a)
    (threshold : Nat) :
    ((denied threshold content a).map (·.operator.start)).Nodup ∧
      ∀ f ∈ denied threshold content a, ∃ t, OperatorOf a f.link t ∧ f.operator = t.span := by
  have hown : ∀ f ∈ denied threshold content a, ∃ t, OperatorOf a f.link t ∧ f.operator = t.span := by
    intro f hf
    obtain ⟨-, t, -, hown, hoperator⟩ := h.sought_of_of? (mem_denied_iff.mp hf).1
    exact ⟨t, hown, hoperator⟩
  refine ⟨List.Nodup.map_on ?_ (nodup_links_denied threshold content a).of_map, hown⟩
  intro f hf g hg hstart
  obtain ⟨t, ht, hft⟩ := hown f hf
  obtain ⟨u, hu, hgu⟩ := hown g hg
  have hlink := h.own _ _ t u ht hu (by rw [← hft, ← hgu, hstart])
  have hfof := (mem_denied_iff.mp hf).1
  rw [hlink] at hfof
  exact Option.some.inj (hfof.symm.trans (mem_denied_iff.mp hg).1)

end Chain

/-- Where the mends of some findings are put. -/
def mendPlaces (vs : List Violation) : List Nat := (mends vs).map (·.location.offset)

namespace Linter

variable {l : Linter} {settings : Chain.Settings} {path : Path} {content : String}
  {frontEnd : FrontEnd} {tree : Arena} {vs : List Violation}

theorem mendPlaces_perm (h : l.OnlyChains settings) (hf : l.frontEnd? path = some frontEnd)
    (hp : frontEnd.parse content = .ok tree) (hcheck : l.check path content = .ok vs) :
    (mendPlaces vs).Perm
      ((Chain.denied settings.threshold content tree).map (·.operator.start)) := by
  have hperm := (mends_of_check h hf hp hcheck).map (·.location.offset)
  rw [List.map_map] at hperm
  exact hperm

/-- The places of mends are different boundaries of the text. -/
theorem places_mendPlaces (h : l.OnlyChains settings) (hf : l.frontEnd? path = some frontEnd)
    (hp : frontEnd.parse content = .ok tree) (hcheck : l.check path content = .ok vs)
    (hconsistent : Chain.Consistent content.toList tree) :
    Text.Places (mendPlaces vs) content.toList := by
  have hperm := mendPlaces_perm h hf hp hcheck
  obtain ⟨hnodup, hown⟩ := hconsistent.places_denied settings.threshold
  refine ⟨hperm.nodup_iff.mpr hnodup, fun q hq => ?_⟩
  obtain ⟨f, hfound, rfl⟩ := List.mem_map.mp (hperm.mem_iff.mp hq)
  obtain ⟨t, ht, hft⟩ := hown f hfound
  rw [hft]
  exact (hconsistent.token t ht.mem).start

/-- The places of mends are the operators of the overlong links, one for each. -/
theorem links_mendPlaces (h : l.OnlyChains settings) (hf : l.frontEnd? path = some frontEnd)
    (hp : frontEnd.parse content = .ok tree) (hcheck : l.check path content = .ok vs)
    (hconsistent : Chain.Consistent content.toList tree) :
    ∃ ms : List NodeId, ms.Nodup ∧
      (∀ m, m ∈ ms ↔ ∃ links top operator,
        Chain.Overlong settings.threshold content tree m links top operator) ∧
      List.Forall₂ (fun p m => ∃ t, Chain.OperatorOf tree m t ∧ t.span.start = p)
        (mendPlaces vs) ms := by
  let found := Chain.denied settings.threshold content tree
  have hpaired : List.Forall₂ (fun p m => ∃ t, Chain.OperatorOf tree m t ∧ t.span.start = p)
      (found.map (·.operator.start)) (found.map (·.link)) := by
    rw [List.forall₂_map_left_iff, List.forall₂_map_right_iff, List.forall₂_same]
    intro f hfound
    obtain ⟨t, ht, hft⟩ := (hconsistent.places_denied settings.threshold).2 f hfound
    exact ⟨t, ht, by rw [hft]⟩
  obtain ⟨ms, hforall, hperm⟩ := List.perm_comp_forall₂ (mendPlaces_perm h hf hp hcheck) hpaired
  refine ⟨ms, hperm.nodup_iff.mpr (Chain.nodup_links_denied _ _ _), fun m => ?_, hforall⟩
  rw [hperm.mem_iff]
  exact Chain.mem_links_denied_iff hconsistent.linked hconsistent.sorted

/-- Mends inside a text of addressable size are insertions at their places. -/
theorem toEdit_mends (h : l.OnlyChains settings) (hf : l.frontEnd? path = some frontEnd)
    (hp : frontEnd.parse content = .ok tree) (hcheck : l.check path content = .ok vs)
    (hfit : ∀ p ∈ mendPlaces vs, p < Word.bound) :
    (mends vs).map Replacement.toEdit = (mendPlaces vs).map Edit.feedAt := by
  rw [mendPlaces, List.map_map]
  apply List.map_congr_left
  intro r hr
  have hlt := hfit _ (List.mem_map.mpr ⟨r, hr, rfl⟩)
  obtain ⟨f, -, rfl⟩ := List.mem_map.mp ((mends_of_check h hf hp hcheck).mem_iff.mp hr)
  change f.operator.start < Word.bound at hlt
  rw [Chain.Finding.toEdit_mend, Nat.mod_eq_of_lt hlt]
  rfl

/-- If nothing is left to mend after a first round, mending ends there, or before it. -/
theorem fix_of_no_mends {vs' : List Violation} (hcheck : l.check path content = .ok vs)
    (hcheck' : l.check path ((EditSet.ofViolations vs).apply content) = .ok vs')
    (hnone : mends vs' = []) :
    ∃ fixed, l.fix path content = .ok fixed ∧ fixed.passes ≤ 1 ∧
      fixed.output = (EditSet.ofViolations vs).apply content ∧ fixed.remaining = vs' := by
  have hempty : ∀ ws, (EditSet.ofViolations ws).isEmpty = true ↔ mends ws = [] := by
    intro ws
    rw [EditSet.ofViolations_eq, EditSet.isEmpty_ofList_iff, List.map_eq_nil_iff]
  cases hset : (EditSet.ofViolations vs).isEmpty with
  | true =>
    have hself : (EditSet.ofViolations vs).apply content = content := by
      have hnil : Text.Places [] content.toList := ⟨List.nodup_nil, by simp⟩
      rw [EditSet.ofViolations_eq, (hempty vs).mp hset]
      exact (EditSet.ofList_feedAt hnil).2.trans (by simp)
    rw [hself, hcheck] at hcheck'
    exact ⟨⟨content, 0, 0, vs⟩, fixFrom_of_empty hcheck hset, Nat.zero_le 1, hself.symm,
      Except.ok.inj hcheck'⟩
  | false =>
    let output := (EditSet.ofViolations vs).apply content
    let edits := 0 + (EditSet.ofViolations vs).size
    have hfix : l.fix path content = .ok ⟨output, 1, edits, vs'⟩ :=
      (fixFrom_of_pass hcheck hset).trans (fixFrom_of_empty hcheck' ((hempty vs').mpr hnone))
    exact ⟨_, hfix, le_rfl, rfl, rfl⟩

/-- What mending the chains of a text, which has the tree `tree`, comes to: the check finds `vs`, and the
text that is left has the tree `tree'`. -/
structure OnePass (l : Linter) (settings : Chain.Settings) (path : Path)
    (parse : String → Except ParseFault Arena) (content : String) (tree : Arena)
    (vs : List Violation) (fixed : Fixed) (tree' : Arena) : Prop where
  check : l.check path content = .ok vs
  fix : l.fix path content = .ok fixed
  passes : fixed.passes ≤ 1
  /-- The output has one line feed more before each place of a mend. -/
  output : fixed.output = String.ofList (Text.breakBefore (mendPlaces vs) content.toList)
  nodup : (mendPlaces vs).Nodup
  /-- These places are the operators of the overlong links, one for each. -/
  links : ∃ ms : List NodeId, ms.Nodup ∧
    (∀ m, m ∈ ms ↔ ∃ links top operator,
      Chain.Overlong settings.threshold content tree m links top operator) ∧
    List.Forall₂ (fun p m => ∃ t, Chain.OperatorOf tree m t ∧ t.span.start = p) (mendPlaces vs) ms
  parse : parse fixed.output = .ok tree'
  /-- What remains carries no mend: all of it are missing reasons, where they are asked for. -/
  remaining : ∀ v ∈ fixed.remaining, v.replacement? = none ∧ settings.requireReason = true ∧
    Chain.lacksReason v = true
  /-- What remains is reported of the links whose allow comment in the output gives no reason. -/
  reported : ∀ m, Chain.ReportedIn fixed.remaining settings.threshold tree' m ↔
    settings.requireReason = true ∧ ∃ links top operator,
      Chain.Unbroken settings.threshold tree' m links top operator ∧
        Allowance.find fixed.output operator.span.startPos.line Chain.ruleName = .allowed none
  /-- A link that still asks for a line break is allowed in the output, and was so before. -/
  allowed : ∀ m links top operator, Chain.Unbroken settings.threshold tree' m links top operator →
    AllowedAt fixed.output operator.span.startPos.line Chain.ruleName ∧
      ∃ links' top' operator', Chain.Unbroken settings.threshold tree m links' top' operator' ∧
        AllowedAt content operator'.span.startPos.line Chain.ruleName
  /-- A link that was allowed is so still, by the comment that allowed it or by one that a line feed has
  uncovered on the line before. -/
  kept : ∀ m links top operator, Chain.Unbroken settings.threshold tree m links top operator →
    AllowedAt content operator.span.startPos.line Chain.ruleName →
    ∃ links' top' operator', Chain.Unbroken settings.threshold tree' m links' top' operator' ∧
      ∀ reason, Allowance.find fixed.output operator'.span.startPos.line Chain.ruleName =
          .allowed reason ↔
        Uncovered (mendPlaces vs) content (operator.span.startPos.line - 1) Chain.ruleName reason ∨
          (∀ other, ¬ Uncovered (mendPlaces vs) content (operator.span.startPos.line - 1)
            Chain.ruleName other) ∧
          Allowance.find content operator.span.startPos.line Chain.ruleName = .allowed reason
  /-- A link that was allowed with a reason was not reported, and it is so now only if a reason is asked for
  and the comment that a line feed has uncovered on the line before gives none. -/
  silent : ∀ m links top operator given,
    Chain.Unbroken settings.threshold tree m links top operator →
    Allowance.find content operator.span.startPos.line Chain.ruleName = .allowed (some given) →
    ¬ Chain.ReportedIn vs settings.threshold tree m ∧
      (Chain.ReportedIn fixed.remaining settings.threshold tree' m ↔ settings.requireReason = true ∧
        Uncovered (mendPlaces vs) content (operator.span.startPos.line - 1) Chain.ruleName none)

/-- A round of mends that leaves nothing to mend. -/
structure Round (l : Linter) (settings : Chain.Settings) (path : Path) (frontEnd : FrontEnd)
    (content : String) (tree : Arena) (vs : List Violation) (fixed : Fixed) : Prop where
  fix : l.fix path content = .ok fixed
  passes : fixed.passes ≤ 1
  output : fixed.output = String.ofList (Text.breakBefore (mendPlaces vs) content.toList)
  places : Text.Places (mendPlaces vs) content.toList
  /-- The places are the operators of the denied findings. -/
  denied : ∀ q, q ∈ mendPlaces vs ↔
    ∃ f ∈ Chain.denied settings.threshold content tree, f.operator.start = q
  parse : frontEnd.parse fixed.output = .ok (tree.moved (mendPlaces vs) fixed.output.toList)
  faithful : Chain.Faithful fixed.output.toList (tree.moved (mendPlaces vs) fixed.output.toList)
  remaining : l.check path fixed.output = .ok fixed.remaining

/-- With a front end that is stable under line feeds, one round is enough. -/
theorem exists_round (h : l.OnlyChains settings) (hf : l.frontEnd? path = some frontEnd)
    (hstable : Chain.FeedStable frontEnd.parse)
    (hinside : ∀ content tree, frontEnd.parse content = .ok tree → Chain.OperatorsInside tree)
    (hp : frontEnd.parse content = .ok tree) (hfit : Text.byteLength content.toList < Word.bound)
    (hcheck : l.check path content = .ok vs) :
    ∃ fixed, Round l settings path frontEnd content tree vs fixed := by
  have hfaithful : Chain.Faithful content.toList tree :=
    ⟨hstable.consistent content tree hp, hinside content tree hp⟩
  have hplaces := places_mendPlaces h hf hp hcheck hfaithful.toConsistent
  have hall : ∀ q, q ∈ mendPlaces vs ↔
      ∃ f ∈ Chain.denied settings.threshold content tree, f.operator.start = q := by
    intro q
    rw [(mendPlaces_perm h hf hp hcheck).mem_iff, List.mem_map]
  have hp' := hstable.moved content tree (mendPlaces vs) hp hplaces.nodup fun q hq => by
    obtain ⟨f, hfound, rfl⟩ := (hall q).mp hq
    obtain ⟨t, ht, hft⟩ := (hfaithful.places_denied settings.threshold).2 f hfound
    exact ⟨f.link, t, ht, by rw [hft]⟩
  have hfaithful' : Chain.Faithful (Text.breakBefore (mendPlaces vs) content.toList)
      (tree.moved (mendPlaces vs) (Text.breakBefore (mendPlaces vs) content.toList)) := by
    have hconsistent' := hstable.consistent _ _ hp'
    rw [String.toList_ofList] at hconsistent'
    exact ⟨hconsistent', hinside _ _ hp'⟩
  have happly : (EditSet.ofViolations vs).apply content =
      String.ofList (Text.breakBefore (mendPlaces vs) content.toList) := by
    rw [EditSet.ofViolations_eq, toEdit_mends h hf hp hcheck]
    · exact (EditSet.ofList_feedAt hplaces).2
    · intro p hmem
      exact Nat.lt_of_le_of_lt (Text.le_byteLength_of_isBoundary (hplaces.boundary p hmem)) hfit
  obtain ⟨vs', hcheck'⟩ : ∃ vs', l.check path ((EditSet.ofViolations vs).apply content) = .ok vs' :=
    ⟨_, check_eq_ok_iff.mpr ⟨frontEnd, _, hf, by rw [happly]; exact hp', rfl⟩⟩
  have hnone : mends vs' = [] := by
    have hmends := mends_of_check h hf hp' (happly ▸ hcheck')
    rw [Chain.denied_mended hfaithful hall hplaces hfaithful'] at hmends
    exact hmends.eq_nil
  obtain ⟨fixed, hfix, hpasses, houtput, rfl⟩ := fix_of_no_mends hcheck hcheck' hnone
  rw [← houtput] at hcheck'
  rw [happly] at houtput
  have hlist : fixed.output.toList = Text.breakBefore (mendPlaces vs) content.toList := by
    rw [houtput, String.toList_ofList]
  refine ⟨fixed, hfix, hpasses, houtput, hplaces, hall, ?_, ?_, hcheck'⟩
  · rw [hlist, houtput]
    exact hp'
  · rw [hlist]
    exact hfaithful'

namespace Round

variable {fixed : Fixed} {m top : NodeId} {links : List NodeId} {operator : Token}
  (hround : Round l settings path frontEnd content tree vs fixed)
  (hfaithful : Chain.Faithful content.toList tree)
include hround hfaithful

theorem allowed (hunbroken : Chain.Unbroken settings.threshold
      (tree.moved (mendPlaces vs) fixed.output.toList) m links top operator) :
    AllowedAt fixed.output operator.span.startPos.line Chain.ruleName ∧
      ∃ links' top' operator', Chain.Unbroken settings.threshold tree m links' top' operator' ∧
        AllowedAt content operator'.span.startPos.line Chain.ruleName := by
  have hfaithful' := hround.faithful
  rw [hround.output, String.toList_ofList] at hfaithful' hunbroken
  rw [hround.output]
  exact Chain.allowed_of_mended hfaithful hround.denied hround.places hfaithful' hunbroken

theorem kept (hunbroken : Chain.Unbroken settings.threshold tree m links top operator)
    (hallowed : AllowedAt content operator.span.startPos.line Chain.ruleName) :
    ∃ links' top' operator', Chain.Unbroken settings.threshold
        (tree.moved (mendPlaces vs) fixed.output.toList) m links' top' operator' ∧
      ∀ reason, Allowance.find fixed.output operator'.span.startPos.line Chain.ruleName =
          .allowed reason ↔
        Uncovered (mendPlaces vs) content (operator.span.startPos.line - 1) Chain.ruleName reason ∨
          (∀ other, ¬ Uncovered (mendPlaces vs) content (operator.span.startPos.line - 1)
            Chain.ruleName other) ∧
          Allowance.find content operator.span.startPos.line Chain.ruleName = .allowed reason := by
  have hfaithful' := hround.faithful
  rw [hround.output, String.toList_ofList] at hfaithful' ⊢
  exact Chain.kept_of_allowed hfaithful hround.denied hround.places hfaithful' hunbroken hallowed

variable (h : l.OnlyChains settings) (hf : l.frontEnd? path = some frontEnd)
include h hf

theorem lacksReason_of_mem {v : Violation} (hv : v ∈ fixed.remaining) : v.replacement? = none ∧
    settings.requireReason = true ∧ Chain.lacksReason v = true := by
  obtain ⟨g, hmem, hkeeps⟩ := exists_reports_of_check h hf hround.parse hround.remaining
  obtain ⟨f, w, hof, hreport, rfl⟩ := (hmem v).mp hv
  obtain ⟨links, top, operator, hunbroken, htells⟩ :=
    Chain.Finding.unbroken_of_of? hround.faithful.linked hround.faithful.sorted hof
  have hallowed := (hround.allowed hfaithful hunbroken).1
  rw [← htells.operator] at hallowed
  obtain ⟨hrequire, hlacks, hnone⟩ := Chain.Finding.lacksReason_of_report? hreport hallowed
  obtain ⟨-, hmessage, hreplacement⟩ := hkeeps w
  refine ⟨hreplacement.trans hnone, hrequire, ?_⟩
  rw [Chain.lacksReason, hmessage]
  exact hlacks

theorem reported (m : NodeId) :
    Chain.ReportedIn fixed.remaining settings.threshold
        (tree.moved (mendPlaces vs) fixed.output.toList) m ↔
      settings.requireReason = true ∧ ∃ links top operator, Chain.Unbroken settings.threshold
          (tree.moved (mendPlaces vs) fixed.output.toList) m links top operator ∧
        Allowance.find fixed.output operator.span.startPos.line Chain.ruleName = .allowed none := by
  rw [reportedIn_check_iff h hf hround.parse hround.remaining hround.faithful.toConsistent]
  constructor
  · rintro ⟨links, top, operator, hunbroken, hnot | ⟨hrequire, hfind⟩⟩
    · exact absurd (hround.allowed hfaithful hunbroken).1 hnot
    · exact ⟨hrequire, links, top, operator, hunbroken, hfind⟩
  · rintro ⟨hrequire, links, top, operator, hunbroken, hfind⟩
    exact ⟨links, top, operator, hunbroken, Or.inr ⟨hrequire, hfind⟩⟩

theorem silent {given : String} (hp : frontEnd.parse content = .ok tree)
    (hcheck : l.check path content = .ok vs)
    (hunbroken : Chain.Unbroken settings.threshold tree m links top operator)
    (hgiven : Allowance.find content operator.span.startPos.line Chain.ruleName =
      .allowed (some given)) :
    ¬ Chain.ReportedIn vs settings.threshold tree m ∧
      (Chain.ReportedIn fixed.remaining settings.threshold
          (tree.moved (mendPlaces vs) fixed.output.toList) m ↔
        settings.requireReason = true ∧ Uncovered (mendPlaces vs) content
          (operator.span.startPos.line - 1) Chain.ruleName none) := by
  have hallowed : AllowedAt content operator.span.startPos.line Chain.ruleName := by
    by_contra hnot
    cases (Allowance.find_eq_denied_iff.mpr hnot).symm.trans hgiven
  constructor
  · rw [reportedIn_check_iff h hf hp hcheck hfaithful.toConsistent]
    rintro ⟨links', top', operator', hunbroken', hwhy⟩
    rw [← hunbroken.operator_eq hunbroken'] at hwhy
    rcases hwhy with hnot | ⟨-, hfind⟩
    · exact hnot hallowed
    · cases hgiven.symm.trans hfind
  · rw [hround.reported hfaithful h hf]
    refine and_congr_right fun _ => ?_
    obtain ⟨links', top', operator', hunbroken', hfind⟩ := hround.kept hfaithful hunbroken hallowed
    have hnone := hfind none
    rw [hgiven] at hnone
    constructor
    · rintro ⟨links'', top'', operator'', hunbroken'', hfound⟩
      rw [← hunbroken'.operator_eq hunbroken''] at hfound
      rcases hnone.mp hfound with huncovered | ⟨-, hother⟩
      · exact huncovered
      · cases hother
    · intro huncovered
      exact ⟨links', top', operator', hunbroken', hnone.mpr (Or.inl huncovered)⟩

end Round

/-- A chain with another one in its argument, and a chain below an allow comment without a reason. -/
def nested : String := "x.y(u.v().w()).z();\n// chain-lint: allow(all)\np.q().r();\n"

def nestedSample : Chain.Sample :=
  ⟨nested.toList, JavaScript.arenaOf nested, [14, 1, 9, 5, 51, 47], by decide +kernel⟩

theorem operatorsInside_nested : Chain.OperatorsInside nestedSample.tree := by decide +kernel

theorem denied_nested :
    (Chain.denied 1 nested nestedSample.tree).map (·.operator.start) = [14, 1, 9, 5] := by
  decide +kernel

/-- Slashes in a string hide the comment at the end of the first line; the second line gives a reason. -/
def hiddenReason : String :=
  "f(\"//\").b(); // chain-lint: allow(all)\ng().c(); // chain-lint: allow(all) reason=\"x\"\n"

def hiddenReasonSample : Chain.Sample :=
  ⟨hiddenReason.toList, JavaScript.arenaOf hiddenReason, [7, 42], by decide +kernel⟩

theorem operatorsInside_hiddenReason : Chain.OperatorsInside hiddenReasonSample.tree := by
  decide +kernel

theorem denied_hiddenReason :
    (Chain.denied 1 hiddenReason hiddenReasonSample.tree).map (·.operator.start) = [7] := by
  decide +kernel

/-- The link of the second line is found there. -/
theorem exists_finding_hiddenReason : ∃ f ∈ Chain.Finding.all 1
    ⟨hiddenReason.toList, hiddenReasonSample.tree⟩, f.operator.startPos.line = 2 := by
  decide +kernel

/-- A line feed before the first link uncovers the comment. -/
theorem uncovered_hiddenReason : Uncovered [7] hiddenReason 1 Chain.ruleName none := by
  refine ⟨onLine?_eq_none_iff.mp (by decide +kernel), ".b(); // chain-lint: allow(all)".toList,
    ⟨["all"], none⟩, ?_, by decide +kernel, by simp, rfl⟩
  refine ⟨[], "f(\"//\")".toList, ".b(); // chain-lint: allow(all)".toList,
    "\ng().c(); // chain-lint: allow(all) reason=\"x\"\n".toList, ⟨?_, ?_, ?_, ?_⟩, by decide +kernel⟩
  · exact ⟨by decide +kernel, by decide +kernel, by decide +kernel, by simp, Or.inr ⟨_, rfl⟩⟩
  · decide +kernel
  · exact Or.inr (by decide +kernel)
  · decide +kernel

end Linter

end CallChain
