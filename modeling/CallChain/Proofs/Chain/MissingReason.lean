import CallChain.Proofs.Chain.Verdict
import CallChain.Proofs.Directive.Reason
import CallChain.Proofs.JavaScript.TrailingAllow

/-!
# Links that lack a reason

A link is reported as lacking a reason if the first allow comment that reaches it gives none. So a reason on
the link's own line is passed over where the line before allows the rule without one; a reason on the line
before is always found.
-/
namespace CallChain

open CallChain.Syntax

namespace Chain

variable {settings : Settings} {ctx : FileContext} {tree : Arena}

/-- The violation says that a reason is missing. -/
def lacksReason (v : Violation) : Bool :=
  v.message = "Allow directive for 'method-chaining' is missing required reason"

theorem lacksReason_missingReason (f : Finding) (file : Path) :
    lacksReason (f.missingReason file) = true := rfl

theorem lacksReason_toViolation (f : Finding) (file : Path) (severity : Severity) :
    lacksReason (f.toViolation file severity) = false := by
  refine decide_eq_false fun hmessage => ?_
  have hhead := congrArg (fun s : String => s.toList.head?) hmessage
  simp [Finding.toViolation, Finding.violationAt, Finding.message, Violation.withMessageId, Violation.withData,
    Violation.withLabel, Violation.withSuggestion, Violation.make] at hhead

/-- The findings that are allowed without a reason, in the order of the nodes. -/
def unreasoned (threshold : Nat) (content : String) (tree : Arena) : List Finding :=
  (Finding.all threshold ⟨content.toList, tree⟩).filter fun f =>
    Allowance.find content f.operator.startPos.line ruleName = .allowed none

theorem mem_unreasoned_iff {threshold : Nat} {content : String} {f : Finding} :
    f ∈ unreasoned threshold content tree ↔
      Finding.of? threshold ⟨content.toList, tree⟩ f.link = some f ∧
        Allowance.find content f.operator.startPos.line ruleName = .allowed none := by
  rw [unreasoned, List.mem_filter, decide_eq_true_eq, Finding.mem_all_iff]

theorem mem_links_unreasoned_iff {threshold : Nat} {content : String} {m : NodeId} {f : Finding}
    (hf : Finding.of? threshold ⟨content.toList, tree⟩ m = some f) :
    m ∈ (unreasoned threshold content tree).map (·.link) ↔
      Allowance.find content f.operator.startPos.line ruleName = .allowed none := by
  have hlink := Finding.link_of_of? hf
  subst hlink
  constructor
  · intro hm
    obtain ⟨g, hg, hlink⟩ := List.mem_map.mp hm
    obtain ⟨hof, hfind⟩ := mem_unreasoned_iff.mp hg
    rw [hlink] at hof
    obtain rfl := Option.some.inj (hf.symm.trans hof)
    exact hfind
  · intro hfind
    exact List.mem_map.mpr ⟨f, mem_unreasoned_iff.mpr ⟨hf, hfind⟩, rfl⟩

theorem filter_lacksReason_perm (hrequire : settings.requireReason = true) (ctx : FileContext)
    (tree : Arena) :
    ((check settings ctx tree).filter lacksReason).Perm
      ((unreasoned settings.threshold ctx.content tree).map (·.missingReason ctx.relativePath)) := by
  have hreports : ∀ findings : List Finding,
      (findings.filterMap (Finding.report? settings ctx)).filter lacksReason =
        (findings.filter fun f =>
          Allowance.find ctx.content f.operator.startPos.line ruleName = .allowed none).map
          (·.missingReason ctx.relativePath) := by
    intro findings
    induction findings with
    | nil => rfl
    | cons f findings ih =>
      rw [List.filterMap_cons, List.filter_cons, Finding.report?]
      cases Allowance.find ctx.content f.operator.startPos.line ruleName with
      | denied => simpa [lacksReason_toViolation] using ih
      | allowed reason =>
        cases reason with
        | some _ => simpa using ih
        | none =>
          simp only [hrequire, if_true, decide_true, List.map_cons]
          rw [List.filter_cons_of_pos (lacksReason_missingReason f ctx.relativePath), ih]
  refine ((List.mergeSort_perm _ _).filter _).trans ?_
  rw [hreports]
  exact .refl _

/-- The links that are reported as lacking a reason are those whose first comment in reach has none. If
one of the comments in reach gives a reason, the search misses it, and the link is so reported, if and only
if the line before the link allows the rule without one. -/
theorem check_reason_passed_over (settings : Settings) (hrequire : settings.requireReason = true)
    (ctx : FileContext) (tree : Arena) :
    (∀ line rule given, ReasonInReach ctx.content line rule given →
      ((Allowance.find ctx.content line rule).reason? = none ↔
        AllowsWith ctx.content (line - 1) rule none)) ∧
    ∃ ms : List NodeId, ms.Nodup ∧
      List.Forall₂ (fun v m => ∃ f, Finding.of? settings.threshold ⟨ctx.content.toList, tree⟩ m =
          some f ∧ v = f.missingReason ctx.relativePath)
        ((check settings ctx tree).filter lacksReason) ms ∧
      ∀ m f, Finding.of? settings.threshold ⟨ctx.content.toList, tree⟩ m = some f →
        let line := f.operator.startPos.line
        (m ∈ ms ↔ AllowsWith ctx.content (line - 1) ruleName none ∨
          (∀ reason, ¬ AllowsWith ctx.content (line - 1) ruleName reason) ∧
            AllowsWith ctx.content line ruleName none) ∧
        ∀ given, ReasonInReach ctx.content line ruleName given →
          (m ∈ ms ↔ AllowsWith ctx.content (line - 1) ruleName none) := by
  refine ⟨fun line rule given h => h.reason?_eq_none_iff, ?_⟩
  let found := unreasoned settings.threshold ctx.content tree
  have hpaired : List.Forall₂ (fun v m => ∃ f, Finding.of? settings.threshold
        ⟨ctx.content.toList, tree⟩ m = some f ∧ v = f.missingReason ctx.relativePath)
      (found.map (·.missingReason ctx.relativePath)) (found.map (·.link)) := by
    rw [List.forall₂_map_left_iff, List.forall₂_map_right_iff, List.forall₂_same]
    intro f hf
    exact ⟨f, (mem_unreasoned_iff.mp hf).1, rfl⟩
  obtain ⟨ms, hforall, hperm⟩ :=
    List.perm_comp_forall₂ (filter_lacksReason_perm hrequire ctx tree) hpaired
  refine ⟨ms, hperm.nodup_iff.mpr ((List.filter_sublist.map _).nodup (Finding.nodup_links _ _)),
    hforall, fun m f hf => ?_⟩
  have hmem : m ∈ ms ↔
      Allowance.find ctx.content f.operator.startPos.line ruleName = .allowed none := by
    rw [hperm.mem_iff]
    exact mem_links_unreasoned_iff hf
  exact ⟨hmem.trans Allowance.find_eq_allowed_iff, fun given h => hmem.trans h.find_eq_allowed_none_iff⟩

/-- A chain whose own line gives a reason, below a line that allows every rule without one. -/
def reasonBelow : String :=
  "// chain-lint: allow(all)\na.b().c().d(); // chain-lint: allow(method-chaining) reason=\"DSL\"\n"

theorem parse_reasonBelow : JavaScript.parse reasonBelow = .ok (JavaScript.arenaOf reasonBelow) :=
  JavaScript.parse_eq_arenaOf (by decide +kernel) (by decide +kernel)

/-- The reason on its own line is in reach of the chain, but the chain is reported as lacking one. -/
theorem check_reason_passed_over_reasonBelow :
    let settings : Settings := { requireReason := true }
    let ctx := FileContext.make ⟨"a.js"⟩ reasonBelow ⟨"."⟩
    JavaScript.parse reasonBelow = .ok (JavaScript.arenaOf reasonBelow) ∧
      settings.requireReason = true ∧ ReasonInReach reasonBelow 2 ruleName "DSL" ∧
      (Allowance.find reasonBelow 2 ruleName).reason? = none ∧
      ∃ v ∈ check settings ctx (JavaScript.arenaOf reasonBelow), lacksReason v = true := by
  intro settings ctx
  have hreach : ReasonInReach reasonBelow 2 ruleName "DSL" :=
    Or.inl (allowsWith_iff.mpr ⟨⟨["method-chaining"], some "DSL"⟩, by decide +kernel, rfl⟩)
  have hbefore : AllowsWith reasonBelow 1 ruleName none :=
    allowsWith_iff.mpr ⟨⟨["all"], none⟩, by decide +kernel, rfl⟩
  obtain ⟨f, hf, hline⟩ : ∃ f ∈ Finding.all 2 ⟨reasonBelow.toList, JavaScript.arenaOf reasonBelow⟩,
      f.operator.startPos.line = 2 := by decide +kernel
  obtain ⟨hreason, ms, -, hforall, hmem⟩ :=
    check_reason_passed_over settings rfl ctx (JavaScript.arenaOf reasonBelow)
  refine ⟨parse_reasonBelow, rfl, hreach, (hreason 2 ruleName "DSL" hreach).mpr hbefore, ?_⟩
  have hlink := (hmem f.link f (Finding.mem_all_iff.mp hf)).1
  rw [hline] at hlink
  cases hreported : (check settings ctx (JavaScript.arenaOf reasonBelow)).filter lacksReason with
  | nil =>
    rw [hreported] at hforall
    cases hforall
    cases hlink.mpr (Or.inl hbefore)
  | cons v vs =>
    have hv : v ∈ (check settings ctx (JavaScript.arenaOf reasonBelow)).filter lacksReason := by
      rw [hreported]
      exact List.mem_cons_self
    exact ⟨v, List.mem_filter.mp hv⟩

end Chain

end CallChain
