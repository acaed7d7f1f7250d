import CallChain.Proofs.Chain.Report
import CallChain.Proofs.Edit.Splice

/-!
# Edits beyond the range of words

The end of an edit is a sum of two words, and a sum that does not fit a word leaves an end before the
start. Such an edit takes part in the selection like any other and lowers the limit for those after it.
These start no earlier than it does, though, so that they are kept with it exactly if they are kept
without it, and it fits no text itself.
-/
namespace CallChain

namespace Edit

variable {limit : Nat} {edits : List Edit}

/-- The range does not end before it starts. -/
def isOrdered (e : Edit) : Bool := e.start ≤ e.stop

theorem Fits.isOrdered {source : String} {e : Edit} (h : e.Fits source) : e.isOrdered = true :=
  decide_eq_true h.ordered

/-- The limit does not matter for edits that all start behind it. -/
theorem acceptFrom_of_le {limit' : Nat} (h : ∀ e ∈ edits, limit ≤ e.start)
    (h' : ∀ e ∈ edits, limit' ≤ e.start) : acceptFrom limit edits = acceptFrom limit' edits := by
  cases edits with
  | nil => rfl
  | cons e es =>
    rw [acceptFrom, acceptFrom, if_neg (Nat.not_lt.mpr (h e List.mem_cons_self)),
      if_neg (Nat.not_lt.mpr (h' e List.mem_cons_self))]

/-- Leaving out inverted edits before the selection or after it makes no difference. -/
theorem acceptFrom_filter_isOrdered (hs : edits.Pairwise fun a b => a.start ≤ b.start) :
    acceptFrom limit (edits.filter isOrdered) = (acceptFrom limit edits).filter isOrdered := by
  induction edits generalizing limit with
  | nil => rfl
  | cons e es ih =>
    obtain ⟨he, hes⟩ := List.pairwise_cons.mp hs
    by_cases hordered : e.isOrdered = true
    · rw [List.filter_cons_of_pos hordered, acceptFrom, acceptFrom]
      split
      · exact ih hes
      · rw [List.filter_cons_of_pos hordered, ih hes]
    · rw [List.filter_cons_of_neg hordered, acceptFrom]
      split
      · exact ih hes
      · next hlimit =>
        rw [List.filter_cons_of_neg hordered, ← ih hes]
        have hstop : e.stop ≤ e.start := by
          rw [isOrdered, decide_eq_true_eq] at hordered
          omega
        refine acceptFrom_of_le (fun d hd => ?_) fun d hd => ?_
        · exact (Nat.not_lt.mp hlimit).trans (he d (List.mem_of_mem_filter hd))
        · exact hstop.trans (he d (List.mem_of_mem_filter hd))

theorem accept_filter_isOrdered (edits : List Edit) :
    accept (edits.filter isOrdered) = (accept edits).filter isOrdered := by
  rw [accept, ← filter_mergeSort_comm le_trans le_total]
  exact acceptFrom_filter_isOrdered (pairwise_start_of_key (pairwise_mergeSort_key edits))

end Edit

namespace EditSet

/-- A set and one that was made without some inverted edits: they do the same to a text, by the same edits,
and keep the same edits but for the inverted ones. -/
structure SameBut (set without : EditSet) (source : String) : Prop where
  apply_eq : without.apply source = set.apply source
  spliced_eq : without.spliced source = set.spliced source
  edits_eq : without.edits = set.edits.filter Edit.isOrdered

theorem sameBut_ofList_filter (edits : List Edit) (source : String) :
    SameBut (EditSet.ofList edits) (EditSet.ofList (edits.filter Edit.isOrdered)) source := by
  have hedits : (EditSet.ofList (edits.filter Edit.isOrdered)).edits =
      (EditSet.ofList edits).edits.filter Edit.isOrdered := Edit.accept_filter_isOrdered edits
  have hspliced : (EditSet.ofList (edits.filter Edit.isOrdered)).spliced source =
      (EditSet.ofList edits).spliced source := by
    rw [(inSequence_ofList _).spliced_eq, (inSequence_ofList _).spliced_eq, hedits, List.filter_filter]
    refine List.filter_congr fun e _ => ?_
    by_cases hfits : e.Fits source
    · simp [hfits, hfits.isOrdered]
    · simp [hfits]
  exact ⟨(inSequence_ofList _).apply_congr (inSequence_ofList _) hspliced, hspliced, hedits⟩

end EditSet

/-! ### Sums of words -/

namespace Replacement

/-- Offset and length are words. -/
structure IsWord (r : Replacement) : Prop where
  offset : r.location.offset < Word.bound
  length : r.location.length < Word.bound

instance (r : Replacement) : Decidable r.IsWord :=
  decidable_of_iff (r.location.offset < Word.bound ∧ r.location.length < Word.bound)
    ⟨fun h => ⟨h.1, h.2⟩, fun h => ⟨h.offset, h.length⟩⟩

/-- The sum of offset and length is no word. -/
def overflows (r : Replacement) : Bool := Word.bound ≤ r.location.offset + r.location.length

theorem stop_toEdit_of_not_overflows {r : Replacement} (h : r.overflows = false) :
    r.toEdit.stop = r.location.offset + r.location.length := by
  rw [overflows, decide_eq_false_iff_not, Nat.not_le] at h
  exact Nat.mod_eq_of_lt h

/-- A sum of words that is no word itself is less than both of them, modulo the bound of words. -/
theorem stop_toEdit_of_overflows {r : Replacement} (hword : r.IsWord) (h : r.overflows = true) :
    r.toEdit.stop < r.toEdit.start := by
  rw [overflows, decide_eq_true_eq] at h
  have hlength := hword.length
  have hstop : r.toEdit.stop = r.location.offset + r.location.length - Word.bound := by
    have hoffset := hword.offset
    change (r.location.offset + r.location.length) % Word.bound = _
    rw [Nat.mod_eq_sub_mod h, Nat.mod_eq_of_lt (by omega)]
  have hstart : r.toEdit.start = r.location.offset := rfl
  omega

/-- The edits of words that are in order are those without overflow. -/
theorem isOrdered_toEdit {r : Replacement} (hword : r.IsWord) :
    r.toEdit.isOrdered = !r.overflows := by
  cases h : r.overflows with
  | false =>
    have hstop := stop_toEdit_of_not_overflows h
    have hstart : r.toEdit.start = r.location.offset := rfl
    simp only [Edit.isOrdered, Bool.not_false, decide_eq_true_eq]
    omega
  | true => simpa [Edit.isOrdered] using stop_toEdit_of_overflows hword h

end Replacement

/-- The finding carries a replacement whose offset and length have no word as their sum. -/
def Violation.overflows (v : Violation) : Bool := v.replacement?.any Replacement.overflows

theorem mends_filter_overflows (vs : List Violation) :
    mends (vs.filter (!·.overflows)) = (mends vs).filter (!·.overflows) := by
  rw [mends, mends, List.filterMap_filter, List.filter_filterMap]
  congr 1
  funext v
  rw [Violation.overflows]
  cases hr : v.replacement? with
  | none => simp
  | some r => cases ho : r.overflows <;> simp [ho, Option.filter]

namespace EditSet

variable {vs : List Violation}

/-- The findings without overflow give the edits in order. -/
theorem ofViolations_filter_overflows (hwords : ∀ r ∈ mends vs, r.IsWord) :
    EditSet.ofViolations (vs.filter (!·.overflows)) =
      EditSet.ofList (((mends vs).map Replacement.toEdit).filter Edit.isOrdered) := by
  rw [ofViolations_eq, mends_filter_overflows, List.filter_map]
  congr 2
  exact List.filter_congr fun r hr => (Replacement.isOrdered_toEdit (hwords r hr)).symm

/-- Of findings whose offsets and lengths are words only those are put in whose exact end lies in the text.
Leaving out those whose exact end is no word, or the inverted ones of a list of edits, changes neither the
text nor what becomes of any other edit. -/
theorem overflowing_edits_inert (vs : List Violation) (source : String)
    (hwords : ∀ r ∈ mends vs, r.IsWord) :
    (∀ e ∈ (EditSet.ofViolations vs).spliced source, (∃ r ∈ mends vs, r.toEdit = e) ∧
        ∀ r ∈ mends vs, r.toEdit = e →
          r.location.offset + r.location.length ≤ source.utf8ByteSize) ∧
      SameBut (EditSet.ofViolations vs) (EditSet.ofViolations (vs.filter (!·.overflows))) source ∧
      ∀ edits : List Edit,
        SameBut (EditSet.ofList edits) (EditSet.ofList (edits.filter Edit.isOrdered)) source := by
  refine ⟨fun e he => ?_, ?_, fun edits => sameBut_ofList_filter edits source⟩
  · rw [ofViolations_eq, (inSequence_ofList _).spliced_eq] at he
    obtain ⟨hkept, hfits⟩ := List.mem_filter.mp he
    have hfits : e.Fits source := of_decide_eq_true hfits
    refine ⟨List.mem_map.mp (Edit.mem_of_mem_accept hkept), fun r hr hre => ?_⟩
    subst hre
    have hsum : r.overflows = false := by
      simpa [hfits.isOrdered] using Replacement.isOrdered_toEdit (hwords r hr)
    rw [← Replacement.stop_toEdit_of_not_overflows hsum]
    exact hfits.within
  · rw [ofViolations_filter_overflows hwords, ofViolations_eq]
    exact sameBut_ofList_filter _ source

/-- Findings with a replacement each. The exact end of the second one is the bound of words, so that it
wraps around to the start of the text. -/
def aroundTheBound : List Violation :=
  [(0, 1, "A"), (1, Word.bound - 1, "B"), (1, 0, "C"), (2, 1, "D")].map fun (offset, length, text) =>
    let place : Location := ⟨⟨"a.txt"⟩, 1, offset + 1, offset, length⟩
    (Violation.make "TEST003" "marks" .warning place "found").withSuggestion
      ⟨"replace", some ⟨place, text⟩⟩

/-- The second finding is kept and not put in, and the insertion that starts where it does is put in, as it
is without the second one. -/
theorem aroundTheBound_inert :
    (EditSet.ofViolations aroundTheBound).size = 4 ∧
      (EditSet.ofViolations aroundTheBound).apply "abc" = "ACbD" ∧
      (aroundTheBound.filter (!·.overflows)).length = 3 ∧ (∀ r ∈ mends aroundTheBound, r.IsWord) ∧
      (∀ e ∈ (EditSet.ofViolations aroundTheBound).spliced "abc",
        (∃ r ∈ mends aroundTheBound, r.toEdit = e) ∧
          ∀ r ∈ mends aroundTheBound, r.toEdit = e → r.location.offset + r.location.length ≤ 3) ∧
      SameBut (EditSet.ofViolations aroundTheBound)
        (EditSet.ofViolations (aroundTheBound.filter (!·.overflows))) "abc" := by
  have hedits : EditSet.ofViolations aroundTheBound =
      ⟨[⟨0, 1, "A"⟩, ⟨1, 0, "B"⟩, ⟨1, 1, "C"⟩, ⟨2, 3, "D"⟩]⟩ := by
    rw [EditSet.ofViolations, ofList, Edit.accept, List.mergeSort_of_pairwise (by decide +kernel)]
    decide +kernel
  have hwords : ∀ r ∈ mends aroundTheBound, r.IsWord := by decide +kernel
  obtain ⟨hwithin, hsame, -⟩ := overflowing_edits_inert aroundTheBound "abc" hwords
  refine ⟨?_, ?_, by decide +kernel, hwords, hwithin, hsame⟩
  · rw [hedits]
    rfl
  · rw [hedits]
    decide +kernel

end EditSet

end CallChain
