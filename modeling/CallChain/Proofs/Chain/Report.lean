import CallChain.Chain.Rule
import CallChain.Linter
import CallChain.Proofs.Report.Order

/-!
# The mends that chain findings carry

A finding that no allow comment lets pass is reported with one mend, a line feed before its operator;
every other report carries none. Sorting and severities do not change that, so that the mends in a
linter's findings are, up to their order, those of the denied findings of its tree.
-/
namespace CallChain

open CallChain.Syntax (Arena)

/-- Findings at different places come in one order. -/
theorem mergeSort_of_ascending {vs ws : List Violation} (h : vs.Perm ws)
    (hascending : ws.Pairwise fun v w => v.location.offset < w.location.offset) :
    vs.mergeSort Violation.inText = ws := by
  have hplaces : (ws.map (·.location.offset)).Nodup :=
    (List.pairwise_map.mpr hascending).imp Nat.ne_of_lt
  rw [Violation.mergeSort_inText_of_perm h ((h.map _).nodup_iff.mpr hplaces)]
  exact List.mergeSort_of_pairwise (hascending.imp fun hlt => decide_eq_true hlt.le)

/-- The replacements that findings carry. -/
def mends (vs : List Violation) : List Replacement := vs.filterMap (·.replacement?)

theorem EditSet.ofViolations_eq (vs : List Violation) :
    EditSet.ofViolations vs = .ofList ((mends vs).map Replacement.toEdit) := by
  rw [EditSet.ofViolations, mends, List.map_filterMap]

theorem mends_eq_nil_iff {vs : List Violation} :
    mends vs = [] ↔ ∀ v ∈ vs, v.replacement? = none :=
  List.filterMap_eq_nil_iff

theorem mends_filter (vs : List Violation) : mends (vs.filter (·.replacement?.isSome)) = mends vs := by
  rw [mends, mends, List.filterMap_filter]
  congr 1
  funext v
  cases v.replacement? <;> rfl

theorem mends_override (severity : Option Severity) (vs : List Violation) :
    mends (Linter.override severity vs) = mends vs := by
  cases severity with
  | none => rfl
  | some s =>
    rw [Linter.override, mends, List.filterMap_map]
    rfl

theorem mends_perm {vs ws : List Violation} (h : vs.Perm ws) : (mends vs).Perm (mends ws) :=
  h.filterMap _

namespace Chain

namespace Finding

/-- No allow comment lets the finding pass. -/
def isDenied (content : String) (f : Finding) : Bool :=
  Allowance.find content f.operator.startPos.line ruleName = .denied

/-- The line feed before the operator. -/
def mend (file : Path) (f : Finding) : Replacement := .insertBefore (.ofSpan file f.operator) "\n"

/-- The sum of offset and length is a machine word. -/
theorem toEdit_mend (file : Path) (f : Finding) :
    (f.mend file).toEdit = ⟨f.operator.start, f.operator.start % Word.bound, "\n"⟩ := rfl

/-- A report either tells of the finding or of the reason that is missing. -/
theorem report?_cases {settings : Settings} {ctx : FileContext} {f : Finding} {v : Violation}
    (h : report? settings ctx f = some v) :
    v = f.toViolation ctx.relativePath settings.severity ∨ v = f.missingReason ctx.relativePath := by
  unfold report? at h
  split at h
  · exact Or.inl (Option.some.inj h).symm
  · split at h
    · exact Or.inr (Option.some.inj h).symm
    · cases h
  · cases h

theorem offset_of_report? {settings : Settings} {ctx : FileContext} {f : Finding} {v : Violation}
    (h : report? settings ctx f = some v) : v.location.offset = f.span.start := by
  rcases report?_cases h with rfl | rfl <;> rfl

theorem data_toViolation (f : Finding) (file : Path) (severity : Severity) :
    (f.toViolation file severity).data.get? "callText" = some f.callText ∧
      (f.toViolation file severity).data.get? "chainings" = some (toString f.chainings) ∧
      (f.toViolation file severity).data.get? "nodeCode" = some f.nodeCode := by
  have hdata : (f.toViolation file severity).data =
      ((Bindings.empty.insert "callText" f.callText).insert "chainings" (toString f.chainings)).insert
        "nodeCode" f.nodeCode := rfl
  simp [hdata, Bindings.get?_insert]

theorem mends_toViolation (fs : List Finding) (file : Path) (severity : Severity) :
    mends (fs.map (·.toViolation file severity)) = fs.map (mend file) := by
  rw [mends, List.filterMap_map]
  exact congrFun List.filterMap_eq_map' _

end Finding

/-- The findings of a tree that no allow comment lets pass, in the order of the nodes. -/
def denied (threshold : Nat) (content : String) (tree : Arena) : List Finding :=
  (Finding.all threshold ⟨content.toList, tree⟩).filter (Finding.isDenied content)

/-- The violations with a mend are those of the denied findings. -/
theorem filter_check_perm (settings : Settings) (ctx : FileContext) (tree : Arena) :
    ((check settings ctx tree).filter (·.replacement?.isSome)).Perm
      ((denied settings.threshold ctx.content tree).map
        (·.toViolation ctx.relativePath settings.severity)) := by
  have hreports : ∀ findings : List Finding,
      (findings.filterMap (Finding.report? settings ctx)).filter (·.replacement?.isSome) =
        (findings.filter (Finding.isDenied ctx.content)).map
          (·.toViolation ctx.relativePath settings.severity) := by
    intro findings
    induction findings with
    | nil => rfl
    | cons f findings ih =>
      rw [List.filterMap_cons, List.filter_cons, Finding.isDenied, Finding.report?]
      cases Allowance.find ctx.content f.operator.startPos.line ruleName with
      | denied =>
        have hsome : (f.toViolation ctx.relativePath settings.severity).replacement?.isSome = true := rfl
        simpa [hsome] using ih
      | allowed reason =>
        cases reason with
        | some _ => simpa using ih
        | none =>
          cases settings.requireReason
          · simpa using ih
          · have hnone : (f.missingReason ctx.relativePath).replacement? = none := rfl
            simpa [hnone] using ih
  refine ((List.mergeSort_perm _ _).filter _).trans ?_
  rw [hreports]
  exact .refl _

theorem mends_check (settings : Settings) (ctx : FileContext) (tree : Arena) :
    (mends (check settings ctx tree)).Perm
      ((denied settings.threshold ctx.content tree).map (Finding.mend ctx.relativePath)) := by
  have hperm := mends_perm (filter_check_perm settings ctx tree)
  rwa [mends_filter, Finding.mends_toViolation] at hperm

end Chain

namespace Linter

variable {l : Linter} {path : Path} {content : String}

/-- The rule on method chains is the only one that is switched on. -/
def OnlyChains (l : Linter) (settings : Chain.Settings) : Prop :=
  l.rules.filter (l.config.isEnabled ·.name) = [Chain.rule settings]

theorem check_eq_ok_iff {vs : List Violation} :
    l.check path content = .ok vs ↔ ∃ frontEnd tree, l.frontEnd? path = some frontEnd ∧
      frontEnd.parse content = .ok tree ∧
      vs = (l.findings (.make path content l.base) tree).mergeSort Violation.inText := by
  unfold check
  constructor
  · intro h
    split at h
    · cases h
    · next frontEnd hf =>
      split at h
      · cases h
      · next tree hp => exact ⟨frontEnd, tree, hf, hp, (Except.ok.inj h).symm⟩
  · rintro ⟨frontEnd, tree, hf, hp, rfl⟩
    simp only [hf, hp]

theorem findings_of_onlyChains {settings : Chain.Settings} (h : l.OnlyChains settings)
    (ctx : FileContext) (tree : Arena) :
    l.findings ctx tree =
      override (l.config.severity? Chain.ruleName) (Chain.check settings ctx tree) := by
  rw [findings, h, List.flatMap_singleton]
  rfl

/-- Another severity changes nothing else of a finding. -/
theorem exists_map_override (severity : Option Severity) :
    ∃ g : Violation → Violation, (∀ vs, override severity vs = vs.map g) ∧
      ∀ v, (g v).data = v.data ∧ (g v).location = v.location ∧ (g v).message = v.message ∧
        (g v).replacement? = v.replacement? := by
  cases severity with
  | none => exact ⟨id, fun vs => (List.map_id vs).symm, fun _ => ⟨rfl, rfl, rfl, rfl⟩⟩
  | some severity => exact ⟨fun v => { v with severity }, fun _ => rfl, fun _ => ⟨rfl, rfl, rfl, rfl⟩⟩

/-- The mends of a check are those of the denied findings. -/
theorem mends_of_check {settings : Chain.Settings} (h : l.OnlyChains settings)
    {frontEnd : FrontEnd} {tree : Arena} {vs : List Violation} (hf : l.frontEnd? path = some frontEnd)
    (hp : frontEnd.parse content = .ok tree) (hcheck : l.check path content = .ok vs) :
    (mends vs).Perm ((Chain.denied settings.threshold content tree).map
      (Chain.Finding.mend (path.relativeTo l.base))) := by
  obtain ⟨frontEnd', tree', hf', hp', rfl⟩ := check_eq_ok_iff.mp hcheck
  obtain rfl := Option.some.inj (hf.symm.trans hf')
  obtain rfl := Except.ok.inj (hp.symm.trans hp')
  refine (mends_perm (List.mergeSort_perm _ _)).trans ?_
  rw [findings_of_onlyChains h, mends_override]
  exact Chain.mends_check settings (.make path content l.base) tree

end Linter

end CallChain
