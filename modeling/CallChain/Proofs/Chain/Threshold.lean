import CallChain.Proofs.Chain.Report
import CallChain.Proofs.JavaScript.TrailingAllow

/-!
# A higher threshold

The threshold decides which links are found and nothing else: what is found of a link, how it is reported
and where the report stands in the sorted list do not depend on it. So the findings of a higher threshold
are those of a lower one whose chain is still too long, in the same order.
-/
namespace CallChain.Chain

open CallChain.Syntax (Arena NodeId)

variable {low high : Nat}

namespace Finding

/-- Order of findings in a text, by the place where they start. -/
def inText (f g : Finding) : Bool := f.span.start ≤ g.span.start

theorem inText_trans (f g h : Finding) (hfg : inText f g = true) (hgh : inText g h = true) :
    inText f h = true := by
  simp only [inText, decide_eq_true_eq] at *
  omega

theorem inText_total (f g : Finding) : (inText f g || inText g f) = true := by
  simp only [inText, Bool.or_eq_true, decide_eq_true_eq]
  omega

/-- A higher threshold finds of a link what a lower one finds, if it finds anything. -/
theorem of?_of_le (h : low ≤ high) (s : Source) (link : NodeId) :
    of? high s link = (of? low s link).filter (high < ·.chainings) := by
  unfold of?
  split
  · next object property computed optional hk =>
    generalize depth s.tree link = chain
    obtain ⟨chainings, top⟩ := chain
    simp only [Bool.or_assoc]
    generalize (isExempt s.tree top || hasLineBreak s.tree link) = accepted
    cases operator? s.tree object property with
    | none => simp
    | some operator =>
      cases accepted with
      | true => simp
      | false =>
        simp only [Bool.or_false, decide_eq_true_eq, Option.map_some]
        by_cases hdeep : high < chainings
        · have hlow : ¬ chainings ≤ low := by omega
          rw [if_neg (Nat.not_le.mpr hdeep), if_neg hlow, Option.filter_some, if_pos (decide_eq_true hdeep)]
        · rw [if_pos (Nat.le_of_not_lt hdeep)]
          split
          · rfl
          · rw [Option.filter_some, if_neg (by simpa using hdeep)]
  · rfl

/-- The findings in the order in which they are reported. -/
def inOrder (threshold : Nat) (s : Source) : List Finding := (all threshold s).mergeSort inText

theorem inOrder_of_le (h : low ≤ high) (s : Source) :
    inOrder high s = (inOrder low s).filter (high < ·.chainings) := by
  have hall : all high s = (all low s).filter (high < ·.chainings) := by
    rw [all, all, List.filter_filterMap]
    exact List.filterMap_congr fun link _ => of?_of_le h s link
  rw [inOrder, hall, inOrder, filter_mergeSort_comm inText_trans inText_total]

variable {settings : Settings} {ctx : FileContext} {f g : Finding} {v w : Violation}

theorem inText_of_report? (hf : report? settings ctx f = some v) (hg : report? settings ctx g = some w) :
    inText f g = Violation.inText v w := by
  rw [inText, Violation.inText, offset_of_report? hf, offset_of_report? hg]

end Finding

/-- The violations are the reports of the findings in their order. -/
theorem check_eq_filterMap (settings : Settings) (ctx : FileContext) (tree : Arena) :
    check settings ctx tree = (Finding.inOrder settings.threshold ⟨ctx.content.toList, tree⟩).filterMap
      (Finding.report? settings ctx) :=
  (filterMap_mergeSort_comm Finding.inText_trans Finding.inText_total
    Finding.inText_of_report? _).symm

/-- The violation tells how long a chain is; the others are about a reason that is missing. -/
def tellsLength (v : Violation) : Bool := v.messageId = some "expected"

/-- The length that it tells. -/
def chainings? (v : Violation) : Option Nat := (v.data.get? "chainings").bind String.toNat?

theorem tellsLength_toViolation (f : Finding) (file : Path) (severity : Severity) :
    tellsLength (f.toViolation file severity) = true := rfl

theorem tellsLength_missingReason (f : Finding) (file : Path) :
    tellsLength (f.missingReason file) = false := rfl

theorem chainings?_toViolation (f : Finding) (file : Path) (severity : Severity) :
    chainings? (f.toViolation file severity) = some f.chainings := by
  obtain ⟨-, hchainings, -⟩ := f.data_toViolation file severity
  rw [chainings?, hchainings, Option.bind_some, Nat.toString_eq_repr, Nat.toNat?_repr]

/-- Of the violations that tell a length, a bound on the length picks those of the findings it picks. -/
theorem filter_tellsLength (settings : Settings) (ctx : FileContext) (bound : Nat) (fs : List Finding) :
    ((fs.filter (bound < ·.chainings)).filterMap (Finding.report? settings ctx)).filter tellsLength =
      (fs.filterMap (Finding.report? settings ctx)).filter
        fun v => tellsLength v && (chainings? v).any (bound < ·) := by
  induction fs with
  | nil => rfl
  | cons f fs ih =>
    cases hreport : Finding.report? settings ctx f with
    | none => by_cases hdeep : bound < f.chainings <;> simp [hdeep, hreport, ih]
    | some v =>
      rcases Finding.report?_cases hreport with rfl | rfl
      · by_cases hdeep : bound < f.chainings <;>
          simp [List.filter_cons, hdeep, hreport, ih, tellsLength_toViolation, chainings?_toViolation]
      · by_cases hdeep : bound < f.chainings <;>
          simp [hdeep, hreport, ih, tellsLength_missingReason]

/-- Under a higher threshold only findings on shorter chains go: the violations are those of the lower
threshold, as they are and in their order, less the reports of findings whose chain is no longer than the
new threshold. So those that tell a length go exactly if it is no greater than that. -/
theorem check_of_higher_threshold (settings : Settings) (ctx : FileContext) (tree : Arena)
    {low high : Nat} (h : low ≤ high) :
    let found (threshold : Nat) := check { settings with threshold } ctx tree
    let findings := Finding.inOrder low ⟨ctx.content.toList, tree⟩
    (found high).Sublist (found low) ∧
    ((∀ v ∈ found low, tellsLength v = true → ∃ n, chainings? v = some n) ∧
      (found high).filter tellsLength =
        (found low).filter fun v => tellsLength v && (chainings? v).any (high < ·)) ∧
    found low = findings.filterMap (Finding.report? settings ctx) ∧
    found high = (findings.filter (high < ·.chainings)).filterMap (Finding.report? settings ctx) := by
  intro found findings
  have hlow : found low = findings.filterMap (Finding.report? settings ctx) :=
    check_eq_filterMap { settings with threshold := low } ctx tree
  have hhigh : found high =
      (findings.filter (high < ·.chainings)).filterMap (Finding.report? settings ctx) := by
    rw [← Finding.inOrder_of_le h]
    exact check_eq_filterMap { settings with threshold := high } ctx tree
  refine ⟨?_, ⟨fun v hv htells => ?_, ?_⟩, hlow, hhigh⟩
  · rw [hlow, hhigh]
    exact List.filter_sublist.filterMap _
  · rw [hlow] at hv
    obtain ⟨f, -, hreport⟩ := List.mem_filterMap.mp hv
    rcases Finding.report?_cases hreport with rfl | rfl
    · exact ⟨_, chainings?_toViolation f _ _⟩
    · cases htells
  · rw [hlow, hhigh, filter_tellsLength]

/-- Chains of two and of three calls, and one that is allowed without a reason. -/
def mixedLengths : String := "a.b().c();\nx.y().z().w();\n//chain-lint: allow(all)\np.q().r();\n"

theorem parse_mixedLengths : JavaScript.parse mixedLengths = .ok (JavaScript.arenaOf mixedLengths) :=
  JavaScript.parse_eq_arenaOf (by decide +kernel) (by decide +kernel)

/-- With three calls accepted none of the shorter chains is reported. -/
theorem check_of_higher_threshold_mixedLengths :
    let settings : Settings := { requireReason := true }
    let ctx := FileContext.make ⟨"a.js"⟩ mixedLengths ⟨"."⟩
    let found (threshold : Nat) :=
      check { settings with threshold } ctx (JavaScript.arenaOf mixedLengths)
    JavaScript.parse mixedLengths = .ok (JavaScript.arenaOf mixedLengths) ∧ 1 ≤ 2 ∧
      (found 1).length = 7 ∧ (found 2).length = 3 ∧ (found 2).Sublist (found 1) ∧
      (found 2).filter tellsLength =
        (found 1).filter fun v => tellsLength v && (chainings? v).any (2 < ·) := by
  intro settings ctx found
  obtain ⟨hsublist, ⟨-, hlengths⟩, -⟩ :=
    check_of_higher_threshold settings ctx (JavaScript.arenaOf mixedLengths) (show 1 ≤ 2 by decide)
  refine ⟨parse_mixedLengths, by decide, ?_, ?_, hsublist, hlengths⟩
  · exact (List.length_mergeSort _).trans (by decide +kernel)
  · exact (List.length_mergeSort _).trans (by decide +kernel)

end CallChain.Chain
