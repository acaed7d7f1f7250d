import Mathlib
import CallChain.Proofs.Path
import CallChain.Report

/-!
# The orders of findings

Findings are sorted by offset within a text and by path, line and column in a report. Both sorts are
stable: leaving out findings does not change the order of the others, and what is in order already stays
as it is.
-/
namespace CallChain

/-- A list is cut in one way only into elements with `p` and elements without. -/
theorem append_cut_unique {α : Type} {p : α → Bool} {xs ys us vs : List α} (h : xs ++ ys = us ++ vs)
    (hxs : ∀ x ∈ xs, p x = true) (hys : ∀ y ∈ ys, p y = false)
    (hus : ∀ u ∈ us, p u = true) (hvs : ∀ v ∈ vs, p v = false) : xs = us ∧ ys = vs := by
  have hcut : ∀ {as bs : List α}, (∀ a ∈ as, p a = true) → (∀ b ∈ bs, p b = false) →
      (as ++ bs).takeWhile p = as := by
    intro as bs has hbs
    rw [List.takeWhile_append_of_pos has]
    cases bs with
    | nil => simp
    | cons b bs => simp [hbs b List.mem_cons_self]
  have hfirst : xs = us := by rw [← hcut hxs hys, h, hcut hus hvs]
  subst hfirst
  exact ⟨rfl, List.append_cancel_left h⟩

/-- A stable sort puts one more element in front before all that it may not come behind. -/
theorem mergeSort_cons_cut {α : Type} {le : α → α → Bool}
    (htrans : ∀ a b c, le a b = true → le b c = true → le a c = true)
    (htotal : ∀ a b, (le a b || le b a) = true) (x : α) (xs : List α) :
    ∃ before behind, (x :: xs).mergeSort le = before ++ x :: behind ∧
      xs.mergeSort le = before ++ behind ∧ (∀ y ∈ before, (!le x y) = true) ∧
      ∀ y ∈ behind, (!le x y) = false := by
  obtain ⟨before, behind, hsort, hrest, hbefore⟩ := List.mergeSort_cons htrans htotal x xs
  have hsorted := List.pairwise_mergeSort htrans htotal (x :: xs)
  rw [hsort] at hsorted
  refine ⟨before, behind, hsort, hrest, hbefore, ?_⟩
  simpa using (List.pairwise_cons.mp (List.pairwise_append.mp hsorted).2.1).1

/-- Leaving out elements before a stable sort or after it makes no difference. -/
theorem filter_mergeSort_comm {α : Type} {le : α → α → Bool}
    (htrans : ∀ a b c, le a b = true → le b c = true → le a c = true)
    (htotal : ∀ a b, (le a b || le b a) = true) (p : α → Bool) (xs : List α) :
    (xs.mergeSort le).filter p = (xs.filter p).mergeSort le := by
  induction xs with
  | nil => simp
  | cons x xs ih =>
    obtain ⟨before, behind, hsort, hrest, hbefore, hbehind⟩ := mergeSort_cons_cut htrans htotal x xs
    rw [hsort, List.filter_append]
    cases hx : p x with
    | false =>
      rw [List.filter_cons_of_neg (by simp [hx]), List.filter_cons_of_neg (by simp [hx]),
        ← List.filter_append, ← hrest, ih]
    | true =>
      obtain ⟨us, vs, hsort', hrest', hus, hvs⟩ := mergeSort_cons_cut htrans htotal x (xs.filter p)
      have hsame : before.filter p ++ behind.filter p = us ++ vs := by
        rw [← List.filter_append, ← hrest, ih, hrest']
      -- Both sorts put `x` at the same place, since what is before it and what is behind it differ.
      obtain ⟨hfirst, hsecond⟩ := append_cut_unique hsame
        (fun y hy => hbefore y (List.mem_of_mem_filter hy))
        (fun y hy => hbehind y (List.mem_of_mem_filter hy)) hus hvs
      rw [List.filter_cons_of_pos hx, List.filter_cons_of_pos hx, hfirst, hsecond, hsort']

/-- A stable sort may come before or after a function that keeps the order and drops some elements. -/
theorem filterMap_mergeSort_comm {α β : Type} {le : α → α → Bool} {le' : β → β → Bool}
    (htrans : ∀ a b c, le a b = true → le b c = true → le a c = true)
    (htotal : ∀ a b, (le a b || le b a) = true) {f : α → Option β}
    (hf : ∀ {a b x y}, f a = some x → f b = some y → le a b = le' x y) (xs : List α) :
    (xs.mergeSort le).filterMap f = (xs.filterMap f).mergeSort le' := by
  -- What is dropped goes first, so that the rest is mapped into `some` elements one by one.
  let leSome : Option β → Option β → Bool := fun x y => ((x.map le').bind (y.map ·)).getD true
  have hsome : ∀ ys : List α, (ys.filterMap f).map some = (ys.filter (f · |>.isSome)).map f := by
    intro ys
    induction ys with
    | nil => rfl
    | cons y ys ih => cases hy : f y <;> simp [hy, ih]
  have hkept : ∀ a ∈ xs.filter (f · |>.isSome), ∀ b ∈ xs.filter (f · |>.isSome),
      le a b = leSome (f a) (f b) := by
    intro a ha b hb
    obtain ⟨x, hx⟩ := Option.isSome_iff_exists.mp (List.mem_filter.mp ha).2
    obtain ⟨y, hy⟩ := Option.isSome_iff_exists.mp (List.mem_filter.mp hb).2
    rw [hf hx hy, hx, hy]
    rfl
  have hwrapped : ∀ x ∈ xs.filterMap f, ∀ y ∈ xs.filterMap f, le' x y = leSome (some x) (some y) :=
    fun _ _ _ _ => rfl
  refine List.map_injective_iff.mpr (Option.some_injective β) ?_
  calc ((xs.mergeSort le).filterMap f).map some
      = ((xs.filter (f · |>.isSome)).mergeSort le).map f := by
        rw [hsome, filter_mergeSort_comm htrans htotal]
    _ = ((xs.filterMap f).map some).mergeSort leSome := by rw [List.map_mergeSort hkept, hsome]
    _ = ((xs.filterMap f).mergeSort le').map some := (List.map_mergeSort hwrapped).symm

/-- A stable sort does not touch a part of the list that is in order already. -/
theorem filter_mergeSort {α : Type} {le : α → α → Bool} {p : α → Bool} {xs : List α}
    (htrans : ∀ a b c, le a b = true → le b c = true → le a c = true)
    (htotal : ∀ a b, (le a b || le b a) = true)
    (h : (xs.filter p).Pairwise fun a b => le a b = true) :
    (xs.mergeSort le).filter p = xs.filter p := by
  rw [filter_mergeSort_comm htrans htotal, List.mergeSort_of_pairwise h]

/-- A stable sort leaves elements that tie in their order. -/
theorem filter_mergeSort_of_ties {α : Type} {le : α → α → Bool} {p : α → Bool}
    (htrans : ∀ a b c, le a b = true → le b c = true → le a c = true)
    (htotal : ∀ a b, (le a b || le b a) = true)
    (hties : ∀ a b, p a = true → p b = true → le a b = true) (xs : List α) :
    (xs.mergeSort le).filter p = xs.filter p := by
  refine filter_mergeSort htrans htotal (List.pairwise_of_forall_mem_list ?_)
  intro a ha b hb
  exact hties a b (List.mem_filter.mp ha).2 (List.mem_filter.mp hb).2

/-- Where no two entries tie, the sorted list does not depend on the order they come in. -/
theorem mergeSort_eq_of_perm {α : Type} {le : α → α → Bool} {xs ys : List α}
    (htrans : ∀ a b c, le a b = true → le b c = true → le a c = true)
    (htotal : ∀ a b, (le a b || le b a) = true) (h : xs.Perm ys)
    (hties : xs.Pairwise fun a b => ¬(le a b = true ∧ le b a = true)) :
    xs.mergeSort le = ys.mergeSort le := by
  have hxs := List.mergeSort_perm xs le
  have hys := List.mergeSort_perm ys le
  refine List.Perm.eq_of_pairwise (fun a b ha hb hab hba => ?_)
    (List.pairwise_mergeSort htrans htotal xs) (List.pairwise_mergeSort htrans htotal ys)
    (hxs.trans (h.trans hys.symm))
  have hsymm : Std.Symm fun a b => ¬(le a b = true ∧ le b a = true) := ⟨fun _ _ h => mt And.symm h⟩
  by_contra hne
  exact hties.forall (hxs.mem_iff.mp ha) (h.mem_iff.mpr (hys.mem_iff.mp hb)) hne ⟨hab, hba⟩

namespace Violation

theorem inText_trans (u v w : Violation) (huv : inText u v = true) (hvw : inText v w = true) :
    inText u w = true := by
  simp only [inText, decide_eq_true_eq] at *
  omega

theorem inText_total (v w : Violation) : (inText v w || inText w v) = true := by
  simp only [inText, Bool.or_eq_true, decide_eq_true_eq]
  omega

theorem pairwise_mergeSort_inText (vs : List Violation) :
    (vs.mergeSort inText).Pairwise fun v w => v.location.offset ≤ w.location.offset :=
  (List.pairwise_mergeSort inText_trans inText_total vs).imp fun h => of_decide_eq_true h

/-- Findings at different offsets come in one order. -/
theorem mergeSort_inText_of_perm {vs vs' : List Violation} (h : vs.Perm vs')
    (hoffsets : (vs.map (·.location.offset)).Nodup) : vs.mergeSort inText = vs'.mergeSort inText := by
  refine mergeSort_eq_of_perm inText_trans inText_total h ?_
  refine (List.pairwise_map.mp hoffsets).imp fun {v w} hne => ?_
  simp only [inText, decide_eq_true_eq]
  omega

end Violation

namespace Location

/-- The place comes no later in a file than another, by line and column. -/
def UpTo (a b : Location) : Prop := a.line < b.line ∨ (a.line = b.line ∧ a.column ≤ b.column)

instance (a b : Location) : Decidable (a.UpTo b) :=
  inferInstanceAs (Decidable (a.line < b.line ∨ (a.line = b.line ∧ a.column ≤ b.column)))

/-- The place is in the file, however its path is written. -/
def InFile (a : Location) (file : Path) : Prop := a.file.components = file.components

instance (a : Location) (file : Path) : Decidable (a.InFile file) :=
  inferInstanceAs (Decidable (a.file.components = file.components))

/-- The order of paths first, then that of lines, then that of columns. -/
def Before (a b : Location) : Prop :=
  a.file.compare b.file = .lt ∨ (a.InFile b.file ∧ a.UpTo b)

end Location

namespace Report

instance : Std.TransCmp fun v w : Violation => v.location.file.compare w.location.file :=
  { eq_swap := Std.OrientedCmp.eq_swap, isLE_trans := Std.TransCmp.isLE_trans }

/-- The comparison behind the order of a report. -/
def comparison : Violation → Violation → Ordering :=
  compareLex (compareLex (fun v w => v.location.file.compare w.location.file)
    (compareOn (·.location.line))) (compareOn (·.location.column))

instance : Std.TransCmp comparison := by
  rw [comparison]
  infer_instance

theorem inOrder_eq (a b : Violation) : inOrder a b = (comparison a b).isLE := rfl

theorem inOrder_trans (a b c : Violation) (hab : inOrder a b = true) (hbc : inOrder b c = true) :
    inOrder a c = true := by
  rw [inOrder_eq] at *
  exact Std.TransCmp.isLE_trans hab hbc

theorem inOrder_total (a b : Violation) : (inOrder a b || inOrder b a) = true := by
  have hswap : comparison b a = (comparison a b).swap := Std.OrientedCmp.eq_swap
  rw [inOrder_eq, inOrder_eq, hswap]
  cases comparison a b <;> rfl

theorem inOrder_iff (a b : Violation) : inOrder a b = true ↔ a.location.Before b.location := by
  have hsame : a.location.file.compare b.location.file = .eq ↔ a.location.InFile b.location.file := by
    refine ⟨Path.components_eq_of_compare, fun h => ?_⟩
    have hself : b.location.file.compare b.location.file = .eq := Std.ReflCmp.compare_self
    rwa [Path.compare, show a.location.file.components = b.location.file.components from h]
  rw [inOrder, Location.Before, Location.UpTo, ← hsame]
  cases a.location.file.compare b.location.file with
  | lt => simp [Ordering.then]
  | gt => simp [Ordering.then]
  | eq =>
    rcases Nat.lt_trichotomy a.location.line b.location.line with h | h | h
    · simp [Ordering.then, Nat.compare_eq_lt.mpr h, h]
    · simp [Ordering.then, h, Nat.isLE_compare]
    · simp [Ordering.then, Nat.compare_eq_gt.mpr h, h.not_gt, h.ne']

end Report

end CallChain
