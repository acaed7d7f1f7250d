import CallChain.Edit
import CallChain.Proofs.Report.Order

/-!
# Which edits take part

Edits are brought into the order of their starts and stops, and one is dropped if it starts before the
last kept one stops. Looking at the last one only is enough, whatever the ranges are: starts ascend, so
that an edit behind it starts no earlier than any kept edit stops, inverted ranges included.
-/
namespace CallChain

/-- `sorted` holds the entries of a list by ascending keys, and those of one key in the order of the
list. -/
structure StableSort {α κ : Type} [LinearOrder κ] (key : α → κ) (xs sorted : List α) : Prop where
  perm : sorted.Perm xs
  ascending : sorted.Pairwise fun a b => key a ≤ key b
  stable : ∀ k, sorted.filter (key · = k) = xs.filter (key · = k)

namespace Edit

/-! ### The order of application -/

/-- Edits are ordered by where they start, then by where they stop. -/
def key (e : Edit) : ℕ ×ₗ ℕ := toLex (e.start, e.stop)

theorem le_iff_key {a b : Edit} : le a b = true ↔ a.key ≤ b.key := by
  simp [le, key, Prod.Lex.le_iff]

theorem key_eq_iff {a : Edit} {start stop : Nat} :
    a.key = toLex (start, stop) ↔ a.start = start ∧ a.stop = stop := by
  rw [key, toLex_inj, Prod.mk.injEq]

theorem start_le_of_key_le {a b : Edit} (h : a.key ≤ b.key) : a.start ≤ b.start := by
  rw [key, key, Prod.Lex.le_iff] at h
  rcases h with h | ⟨h, -⟩
  · exact h.le
  · exact h.le

theorem le_trans (a b c : Edit) (hab : le a b = true) (hbc : le b c = true) : le a c = true := by
  simp only [le, Bool.or_eq_true, Bool.and_eq_true, decide_eq_true_eq, beq_iff_eq] at *
  omega

theorem le_total (a b : Edit) : (le a b || le b a) = true := by
  simp only [le, Bool.or_eq_true, Bool.and_eq_true, decide_eq_true_eq, beq_iff_eq]
  omega

theorem pairwise_mergeSort_key (edits : List Edit) :
    (edits.mergeSort le).Pairwise fun a b => a.key ≤ b.key :=
  (List.pairwise_mergeSort le_trans le_total edits).imp fun h => le_iff_key.mp h

theorem stableSort_mergeSort (edits : List Edit) : StableSort key edits (edits.mergeSort le) := by
  refine ⟨List.mergeSort_perm _ _, pairwise_mergeSort_key edits, fun k => ?_⟩
  apply filter_mergeSort le_trans le_total
  refine List.pairwise_of_forall_mem_list fun a ha b hb => ?_
  have hka : a.key = k := by simpa using (List.mem_filter.mp ha).2
  have hkb : b.key = k := by simpa using (List.mem_filter.mp hb).2
  rw [le_iff_key, hka, hkb]

/-! ### The edits that are kept -/

variable {limit : Nat} {edits : List Edit}

theorem mem_of_mem_acceptFrom {e : Edit} (h : e ∈ acceptFrom limit edits) : e ∈ edits := by
  fun_induction acceptFrom limit edits with
  | case1 => exact h
  | case2 limit d es _ ih => exact List.mem_cons_of_mem d (ih h)
  | case3 limit d es _ ih =>
    rcases List.mem_cons.mp h with rfl | h
    · exact List.mem_cons_self
    · exact List.mem_cons_of_mem d (ih h)

theorem mem_of_mem_accept {e : Edit} (h : e ∈ accept edits) : e ∈ edits :=
  List.mem_mergeSort.mp (mem_of_mem_acceptFrom h)

/-- What is kept starts no earlier than the limit. A kept edit that is inverted lowers the limit, but those
after it start no earlier than it does. -/
theorem limit_le_of_mem_acceptFrom (hs : edits.Pairwise fun a b => a.start ≤ b.start) {e : Edit}
    (h : e ∈ acceptFrom limit edits) : limit ≤ e.start := by
  induction edits with
  | nil => cases h
  | cons d es ih =>
    obtain ⟨hd, hes⟩ := List.pairwise_cons.mp hs
    rw [acceptFrom] at h
    split at h
    · exact ih hes h
    · next hlimit =>
      rcases List.mem_cons.mp h with rfl | h
      · exact Nat.not_lt.mp hlimit
      · exact (Nat.not_lt.mp hlimit).trans (hd e (mem_of_mem_acceptFrom h))

/-- Of two kept edits the first stops before the second starts. -/
theorem acceptFrom_pairwise (hs : edits.Pairwise fun a b => a.start ≤ b.start) :
    (acceptFrom limit edits).Pairwise fun a b => a.stop ≤ b.start := by
  fun_induction acceptFrom limit edits with
  | case1 => exact .nil
  | case2 limit e es _ ih => exact ih (List.pairwise_cons.mp hs).2
  | case3 limit e es _ ih =>
    have hes := (List.pairwise_cons.mp hs).2
    exact List.pairwise_cons.mpr ⟨fun g hg => limit_le_of_mem_acceptFrom hes hg, ih hes⟩

theorem pairwise_start_of_key (hs : edits.Pairwise fun a b => a.key ≤ b.key) :
    edits.Pairwise fun a b => a.start ≤ b.start := hs.imp start_le_of_key_le

theorem accept_pairwise (edits : List Edit) : (accept edits).Pairwise fun a b => a.stop ≤ b.start :=
  acceptFrom_pairwise (pairwise_start_of_key (pairwise_mergeSort_key edits))

/-- The edits at the positions `kept` of a list: in the order of the list, with no two that meet, and all
that could be kept, since every other one starts inside one of them that comes before it. -/
structure Selection (sorted : List Edit) (kept : List (Fin sorted.length)) : Prop where
  ascending : kept.Pairwise (· < ·)
  apart : kept.Pairwise fun i j => sorted[i].stop ≤ sorted[j].start
  dropped_iff : ∀ i, i ∉ kept ↔ ∃ j ∈ kept, j < i ∧
    sorted[j].start ≤ sorted[i].start ∧ sorted[i].start < sorted[j].stop

/-- The positions that are kept behind a limit: one is dropped for the limit or for an edit kept before
it. -/
theorem exists_kept (hs : edits.Pairwise fun a b => a.start ≤ b.start) (limit : Nat) :
    ∃ kept : List (Fin edits.length), acceptFrom limit edits = kept.map edits.get ∧
      kept.Pairwise (· < ·) ∧
      ∀ i, i ∉ kept ↔ edits[i].start < limit ∨ ∃ j ∈ kept, j < i ∧
        edits[j].start ≤ edits[i].start ∧ edits[i].start < edits[j].stop := by
  induction edits generalizing limit with
  | nil => exact ⟨[], rfl, .nil, fun i => i.elim0⟩
  | cons e es ih =>
    obtain ⟨he, hes⟩ := List.pairwise_cons.mp hs
    rw [acceptFrom]
    split
    · next hlimit =>
      obtain ⟨kept, hkept, hascending, hdropped⟩ := ih hes limit
      refine ⟨kept.map Fin.succ, ?_, ?_, fun i => ?_⟩
      · rw [hkept, List.map_map]
        rfl
      · exact List.pairwise_map.mpr (hascending.imp Fin.succ_lt_succ_iff.mpr)
      · cases i using Fin.cases with
        | zero => simp [hlimit]
        | succ i => simpa using hdropped i
    · next hlimit =>
      -- Behind a kept edit only its own stop can drop another, since the old limit is before its start.
      obtain ⟨kept, hkept, hascending, hdropped⟩ := ih hes e.stop
      refine ⟨0 :: kept.map Fin.succ, ?_, ?_, fun i => ?_⟩
      · rw [hkept, List.map_cons, List.map_map]
        rfl
      · refine List.pairwise_cons.mpr ⟨?_, List.pairwise_map.mpr (hascending.imp Fin.succ_lt_succ_iff.mpr)⟩
        simp
      · cases i using Fin.cases with
        | zero => simp [hlimit]
        | succ i =>
          have hstart : e.start ≤ es[i.val].start := he _ (List.getElem_mem i.isLt)
          have hover : ¬ es[i.val].start < limit := by omega
          simpa [hover, hstart] using hdropped i

/-- The edit replaces nothing and stands at a place. -/
def insertsAt (place : Nat) (e : Edit) : Bool := e.start = place && e.stop = place

theorem insertsAt_iff_key {place : Nat} {e : Edit} :
    e.insertsAt place = true ↔ e.key = toLex (place, place) := by
  rw [insertsAt, Bool.and_eq_true, decide_eq_true_eq, decide_eq_true_eq, key_eq_iff]

/-- An edit that comes before an insertion and does not run across its place stops there at the latest. -/
theorem stop_le_of_insertsAt {place : Nat} {e d : Edit} (h : e.key ≤ d.key)
    (hd : d.insertsAt place = true) (hout : ¬(e.start < place ∧ place < e.stop)) : e.stop ≤ place := by
  rw [insertsAt_iff_key.mp hd, key, Prod.Lex.toLex_le_toLex] at h
  rcases h with h | ⟨-, h⟩
  · exact Nat.not_lt.mp fun hlt => hout ⟨h, hlt⟩
  · exact h

/-- Insertions at a place that no kept edit runs across are all kept. -/
theorem filter_insertsAt_acceptFrom {place : Nat} (hs : edits.Pairwise fun a b => a.key ≤ b.key)
    (hlimit : ∀ e ∈ edits, e.insertsAt place = true → limit ≤ place)
    (hout : ∀ e ∈ acceptFrom limit edits, ¬(e.start < place ∧ place < e.stop)) :
    (acceptFrom limit edits).filter (insertsAt place) = edits.filter (insertsAt place) := by
  induction edits generalizing limit with
  | nil => rfl
  | cons e es ih =>
    obtain ⟨he, hes⟩ := List.pairwise_cons.mp hs
    rw [acceptFrom] at hout ⊢
    split at hout
    · next hlt =>
      have hnot : ¬ e.insertsAt place = true := by
        intro h
        have hplace := hlimit e List.mem_cons_self h
        rw [insertsAt_iff_key, key_eq_iff] at h
        omega
      rw [if_pos hlt, List.filter_cons_of_neg hnot]
      exact ih hes (fun d hd => hlimit d (List.mem_cons_of_mem e hd)) hout
    · next hlt =>
      have hstop : ∀ d ∈ es, d.insertsAt place = true → e.stop ≤ place := fun d hd h =>
        stop_le_of_insertsAt (he d hd) h (hout e List.mem_cons_self)
      have hrest := ih hes hstop fun d hd => hout d (List.mem_cons_of_mem e hd)
      rw [if_neg hlt, List.filter_cons, List.filter_cons, hrest]

theorem filter_insertsAt_mergeSort (place : Nat) (edits : List Edit) :
    (edits.mergeSort le).filter (insertsAt place) = edits.filter (insertsAt place) := by
  have hkey : insertsAt place = fun e => decide (e.key = toLex (place, place)) := by
    funext e
    rw [Bool.eq_iff_iff, insertsAt_iff_key, decide_eq_true_eq]
  rw [hkey]
  exact (stableSort_mergeSort edits).stable _

end Edit

namespace EditSet

theorem isEmpty_ofList_iff {edits : List Edit} :
    (EditSet.ofList edits).isEmpty = true ↔ edits = [] := by
  rw [isEmpty, ofList, Edit.accept, List.isEmpty_iff]
  constructor
  · intro h
    cases hsort : edits.mergeSort Edit.le with
    | nil =>
      have hlen := congrArg List.length hsort
      rw [List.length_mergeSort] at hlen
      exact List.eq_nil_of_length_eq_zero hlen
    | cons e es =>
      rw [hsort, Edit.acceptFrom, if_neg (Nat.not_lt_zero _)] at h
      cases h
  · rintro rfl
    rw [List.mergeSort_nil, Edit.acceptFrom]

/-- A set takes the edits in a stable order of starts and stops, no two of those it keeps meet, and one is
dropped only for a kept one before it that it starts in. So there is something in the set unless there are
no edits, and insertions at one place stay together in the order they are given. -/
theorem ofList_selects (edits : List Edit) :
    ∃ (sorted : List Edit) (kept : List (Fin sorted.length)),
      StableSort Edit.key edits sorted ∧ (EditSet.ofList edits).edits = kept.map sorted.get ∧
      Edit.Selection sorted kept ∧
      ((EditSet.ofList edits).isEmpty = true ↔ edits = []) ∧
      ∀ place, (∀ e ∈ (EditSet.ofList edits).edits, ¬(e.start < place ∧ place < e.stop)) →
        (EditSet.ofList edits).edits.filter (Edit.insertsAt place) =
          edits.filter (Edit.insertsAt place) := by
  have hsorted := Edit.stableSort_mergeSort edits
  have hstarts := Edit.pairwise_start_of_key hsorted.ascending
  obtain ⟨kept, hkept, hascending, hdropped⟩ := Edit.exists_kept hstarts 0
  refine ⟨_, kept, hsorted, hkept, ⟨hascending, ?_, fun i => ?_⟩, isEmpty_ofList_iff, fun place hout => ?_⟩
  · have hapart := Edit.accept_pairwise edits
    rw [Edit.accept, hkept] at hapart
    exact List.pairwise_map.mp hapart
  · simpa using hdropped i
  · rw [ofList, Edit.accept,
      Edit.filter_insertsAt_acceptFrom hsorted.ascending (fun _ _ _ => Nat.zero_le place) hout]
    exact Edit.filter_insertsAt_mergeSort place edits

end EditSet

end CallChain
