import CallChain.Proofs.Chain.MissingReason
import CallChain.Proofs.Chain.Moved

/-!
# The links that a check reports

In a tree that is consistent with its text each link has an operator of its own, so that the place of a
finding tells the link. A link that asks for a line break is reported if no allow comment reaches it, or if
a reason is asked for and the comment that is found first gives none; no other link is.
-/
namespace CallChain

open CallChain.Syntax

namespace Chain

variable {text : List Char} {a : Arena} {threshold : Nat} {m object top : NodeId} {f : Finding}
  {links : List NodeId} {operator : Token}

/-- What the check asks of a link: its chain is too long and not exempt, and it ends on the line of its
object. -/
structure Sought (threshold : Nat) (a : Arena) (m object : NodeId) : Prop where
  link : ∃ call, CalledBy a m call
  access : ∃ property optional, a.kind? m = some (.member object property false optional)
  deep : threshold < (depth a m).1
  notExempt : isExempt a (depth a m).2 = false
  sameLine : (a.span m).stopPos.line = (a.span object).stopPos.line

theorem Sought.object_eq {object' : NodeId} (h : Sought threshold a m object)
    (h' : Sought threshold a m object') : object = object' := by
  obtain ⟨property, optional, hk⟩ := h.access
  obtain ⟨property', optional', hk'⟩ := h'.access
  have heq : object = object' ∧ property = property' ∧ optional = optional' := by
    simpa using hk.symm.trans hk'
  exact heq.1

theorem Consistent.of?_of_sought (h : Consistent text a) (hs : Sought threshold a m object) :
    ∃ f, Finding.of? threshold ⟨text, a⟩ m = some f := by
  obtain ⟨call, hcalled⟩ := hs.link
  obtain ⟨property, optional, hk⟩ := hs.access
  obtain ⟨o, ho, -⟩ := h.exists_operatorOf hcalled hk
  exact Finding.exists_of? hk hs.deep hs.notExempt hs.sameLine ho

/-- A finding points to its link's own operator. -/
theorem Consistent.sought_of_of? (h : Consistent text a)
    (hf : Finding.of? threshold ⟨text, a⟩ m = some f) :
    ∃ object t, Sought threshold a m object ∧ OperatorOf a m t ∧ f.operator = t.span := by
  obtain ⟨call, object, property, optional, o, hcalled, hk, hdeep, hexempt, hline, ho, htells⟩ :=
    Finding.tells_of_of? hf
  obtain ⟨o', ho', hown⟩ := h.exists_operatorOf hcalled hk
  obtain rfl := Option.some.inj (ho.symm.trans ho')
  exact ⟨object, o, ⟨⟨call, hcalled⟩, ⟨property, optional, hk⟩, hdeep, hexempt, hline⟩, hown,
    htells.operator⟩

theorem Unbroken.operator_eq {links' : List NodeId} {top' : NodeId} {operator' : Token}
    (h : Unbroken threshold a m links top operator) (h' : Unbroken threshold a m links' top' operator') :
    operator = operator' := by
  obtain ⟨object, property, optional, hk, -, hscan⟩ := h.written
  obtain ⟨object', property', optional', hk', -, hscan'⟩ := h'.written
  obtain ⟨rfl, rfl, -⟩ : object = object' ∧ property = property' ∧ optional = optional' := by
    simpa using hk.symm.trans hk'
  exact Option.some.inj (hscan.symm.trans hscan')

/-- The operator of an unbroken link is its own. -/
theorem Consistent.operatorOf_of_unbroken (h : Consistent text a)
    (hu : Unbroken threshold a m links top operator) : OperatorOf a m operator := by
  obtain ⟨f, hf, -⟩ := Finding.of?_of_unbroken h.linked h.sorted hu text
  obtain ⟨call, object, property, optional, o, hcalled, hk, -⟩ := Finding.tells_of_of? hf
  obtain ⟨object', property', optional', hk', -, hscan⟩ := hu.written
  obtain ⟨rfl, rfl, -⟩ : object = object' ∧ property = property' ∧ optional = optional' := by
    simpa using hk.symm.trans hk'
  obtain ⟨o', ho', hown⟩ := h.exists_operatorOf hcalled hk
  rw [operator?_eq_scan h.sorted, hscan] at ho'
  exact Option.some.inj ho' ▸ hown

namespace Faithful

/-- An unbroken link is sought, and its operator stands on the line where its object ends. -/
theorem sought_of_unbroken (h : Faithful text a) (hu : Unbroken threshold a m links top operator) :
    ∃ object, Sought threshold a m object ∧
      operator.span.startPos.line = (a.span object).stopPos.line := by
  obtain ⟨f, hf, -⟩ := Finding.of?_of_unbroken h.linked h.sorted hu text
  obtain ⟨object, -, hsought, -⟩ := h.sought_of_of? hf
  obtain ⟨property, optional, hk⟩ := hsought.access
  exact ⟨object, hsought, h.operator_line (h.operatorOf_of_unbroken hu) hk hsought.sameLine⟩

theorem exists_unbroken_of_sought (h : Faithful text a) (hs : Sought threshold a m object) :
    ∃ links top operator, Unbroken threshold a m links top operator ∧
      operator.span.startPos.line = (a.span object).stopPos.line := by
  obtain ⟨f, hf⟩ := h.of?_of_sought hs
  obtain ⟨links, top, operator, hu, -⟩ := Finding.unbroken_of_of? h.linked h.sorted hf
  obtain ⟨object', hs', hline⟩ := h.sought_of_unbroken hu
  obtain rfl := hs.object_eq hs'
  exact ⟨links, top, operator, hu, hline⟩

end Faithful

/-- One of the findings stands at the operator of the link. -/
def ReportedIn (vs : List Violation) (threshold : Nat) (a : Arena) (m : NodeId) : Prop :=
  ∃ v ∈ vs, ∃ links top operator, Unbroken threshold a m links top operator ∧
    v.location.offset = operator.span.start

namespace Finding

variable {settings : Settings} {ctx : FileContext} {v : Violation}

theorem exists_report?_iff : (∃ v, report? settings ctx f = some v) ↔
    ¬ AllowedAt ctx.content f.operator.startPos.line ruleName ∨ settings.requireReason = true ∧
      Allowance.find ctx.content f.operator.startPos.line ruleName = .allowed none := by
  rw [← Allowance.find_eq_denied_iff, report?]
  cases Allowance.find ctx.content f.operator.startPos.line ruleName with
  | denied => simp
  | allowed reason => cases reason <;> simp

/-- What is reported of an allowed finding is that the reason is missing. -/
theorem lacksReason_of_report? (h : report? settings ctx f = some v)
    (hallowed : AllowedAt ctx.content f.operator.startPos.line ruleName) :
    settings.requireReason = true ∧ lacksReason v = true ∧ v.replacement? = none := by
  unfold report? at h
  split at h
  · next hdenied => exact absurd hallowed (Allowance.find_eq_denied_iff.mp hdenied)
  · split at h
    · next hrequire =>
      cases h
      exact ⟨hrequire, lacksReason_missingReason _ _, rfl⟩
    · cases h
  · cases h

end Finding

end Chain

namespace Linter

open Chain

variable {l : Linter} {settings : Settings} {path : Path} {content : String} {vs : List Violation}
  {frontEnd : FrontEnd} {tree : Arena}

/-- What a check finds are, up to the severity, the reports on the findings of the tree. -/
theorem exists_reports_of_check (h : l.OnlyChains settings) (hf : l.frontEnd? path = some frontEnd)
    (hp : frontEnd.parse content = .ok tree) (hcheck : l.check path content = .ok vs) :
    ∃ g : Violation → Violation, (∀ v, v ∈ vs ↔ ∃ f w,
        Finding.of? settings.threshold ⟨content.toList, tree⟩ f.link = some f ∧
          f.report? settings (.make path content l.base) = some w ∧ g w = v) ∧
      ∀ w, (g w).location = w.location ∧ (g w).message = w.message ∧
        (g w).replacement? = w.replacement? := by
  obtain ⟨frontEnd', tree', hf', hp', rfl⟩ := check_eq_ok_iff.mp hcheck
  obtain rfl := Option.some.inj (hf.symm.trans hf')
  obtain rfl := Except.ok.inj (hp.symm.trans hp')
  obtain ⟨g, hg, hkeeps⟩ := exists_map_override (l.config.severity? ruleName)
  refine ⟨g, fun v => ?_, fun w => (hkeeps w).2⟩
  simp only [List.mem_mergeSort, findings_of_onlyChains h, hg, List.mem_map, Chain.check,
    List.mem_filterMap, Finding.mem_all_iff]
  constructor
  · rintro ⟨w, ⟨f, hof, hreport⟩, hv⟩
    exact ⟨f, w, hof, hreport, hv⟩
  · rintro ⟨f, w, hof, hreport, hv⟩
    exact ⟨w, ⟨f, hof, hreport⟩, hv⟩

/-- Which links a check reports. -/
theorem reportedIn_check_iff (h : l.OnlyChains settings) (hf : l.frontEnd? path = some frontEnd)
    (hp : frontEnd.parse content = .ok tree) (hcheck : l.check path content = .ok vs)
    (hconsistent : Consistent content.toList tree) (m : NodeId) :
    ReportedIn vs settings.threshold tree m ↔
      ∃ links top operator, Unbroken settings.threshold tree m links top operator ∧
        (¬ AllowedAt content operator.span.startPos.line ruleName ∨ settings.requireReason = true ∧
          Allowance.find content operator.span.startPos.line ruleName = .allowed none) := by
  obtain ⟨hl, hs⟩ := And.intro hconsistent.linked hconsistent.sorted
  obtain ⟨g, hmem, hkeeps⟩ := exists_reports_of_check h hf hp hcheck
  constructor
  · rintro ⟨v, hv, links, top, operator, hunbroken, hplace⟩
    obtain ⟨f, w, hof, hreport, rfl⟩ := (hmem v).mp hv
    -- The finding stands at the operator of its own link, so that this is the link.
    obtain ⟨-, t, -, hown, hoperator⟩ := hconsistent.sought_of_of? hof
    rw [(hkeeps w).1, Finding.offset_of_report? hreport, Finding.start_of_of? hof, hoperator] at hplace
    have hlink := hconsistent.own _ _ t operator hown (hconsistent.operatorOf_of_unbroken hunbroken)
      hplace
    obtain ⟨f', hof', htells⟩ := Finding.of?_of_unbroken hl hs hunbroken content.toList
    rw [hlink] at hof
    obtain rfl := Option.some.inj (hof.symm.trans hof')
    refine ⟨links, top, operator, hunbroken, ?_⟩
    rw [← htells.operator]
    exact Finding.exists_report?_iff.mp ⟨w, hreport⟩
  · rintro ⟨links, top, operator, hunbroken, hwhy⟩
    obtain ⟨f, hof, htells⟩ := Finding.of?_of_unbroken hl hs hunbroken content.toList
    rw [← htells.operator] at hwhy
    obtain ⟨w, hreport⟩ : ∃ w, f.report? settings (.make path content l.base) = some w :=
      Finding.exists_report?_iff.mpr hwhy
    refine ⟨g w, (hmem _).mpr ⟨f, w, htells.link ▸ hof, hreport, rfl⟩, links, top, operator, hunbroken, ?_⟩
    rw [(hkeeps w).1, Finding.offset_of_report? hreport, Finding.start_of_of? hof, htells.operator]

end Linter

end CallChain
