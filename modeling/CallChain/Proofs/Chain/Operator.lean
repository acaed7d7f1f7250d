import Mathlib
import CallChain.Chain.Finding

/-!
# Finding the operator of a link

Tokens are looked up by halving. Where they stand in the order of their starts, the search gives what a
scan from the first token would give: the first `.` or `?.` between object and property, or else the first
token at or behind the end of the object.
-/
namespace CallChain.Syntax

variable {α : Type} {xs : Array α} {p : α → Bool}

/-- The elements with `p` come first. -/
def Parted (xs : Array α) (p : α → Bool) : Prop :=
  xs.toList.Pairwise fun x y => p y = true → p x = true

/-- The border between the elements with `p` and those without lies between `lo` and `hi`. -/
structure Border (xs : Array α) (p : α → Bool) (lo hi : Nat) : Prop where
  le : lo ≤ hi
  size : hi ≤ xs.size
  below : ∀ i x, i < lo → xs[i]? = some x → p x = true
  above : ∀ i x, hi ≤ i → xs[i]? = some x → p x = false

theorem Parted.of_le (hp : Parted xs p) {i j : Nat} {x y : α} (hij : i ≤ j) (hx : xs[i]? = some x)
    (hy : xs[j]? = some y) (h : p y = true) : p x = true := by
  rcases Nat.lt_or_eq_of_le hij with hlt | rfl
  · obtain ⟨hi, rfl⟩ := Array.getElem?_eq_some_iff.mp hx
    obtain ⟨hj, rfl⟩ := Array.getElem?_eq_some_iff.mp hy
    have hpair := List.pairwise_iff_getElem.mp hp i j (by simpa using hi) (by simpa using hj) hlt
    simp only [Array.getElem_toList] at hpair
    exact hpair h
  · obtain rfl := Option.some.inj (hx.symm.trans hy)
    exact h

/-- Each turn keeps the border, so that it is found when the bounds meet. -/
theorem partitionFrom_border (hp : Parted xs p) {lo hi : Nat} (h : Border xs p lo hi) :
    Border xs p (partitionFrom xs p lo hi) (partitionFrom xs p lo hi) := by
  fun_induction partitionFrom xs p lo hi with
  | case1 lo hi hlt mid x hx hpx ih =>
    have hmid : mid < hi := by omega
    refine ih ⟨hmid, h.size, ?_, h.above⟩
    intro i y hi hy
    exact hp.of_le (Nat.le_of_lt_succ hi) hy hx hpx
  | case2 lo hi hlt mid x hx hpx ih =>
    have hmid : mid < hi := by omega
    have hsize := h.size
    refine ih ⟨by omega, by omega, h.below, ?_⟩
    intro i y hi hy
    by_contra hpy
    exact hpx (hp.of_le hi hx hy (by simpa using hpy))
  | case3 lo hi hlt mid hx =>
    have hsize := h.size
    have hnone := Array.getElem?_eq_none_iff.mp hx
    omega
  | case4 lo hi hge =>
    have hle := h.le
    obtain rfl : lo = hi := by omega
    exact h

theorem partitionPoint_border (hp : Parted xs p) :
    Border xs p (partitionPoint xs p) (partitionPoint xs p) := by
  refine partitionFrom_border hp ⟨Nat.zero_le _, le_rfl, ?_, ?_⟩
  · intro i x hi
    omega
  · intro i x hi hx
    obtain ⟨hlt, -⟩ := Array.getElem?_eq_some_iff.mp hx
    omega

/-- What the search leaves are the elements without `p`. -/
theorem drop_partitionPoint (hp : Parted xs p) :
    xs.toList.drop (partitionPoint xs p) = xs.toList.filter fun x => !p x := by
  have h := partitionPoint_border hp
  generalize partitionPoint xs p = n at h
  have hbefore : ∀ x ∈ xs.toList.take n, p x = true := by
    intro x hx
    obtain ⟨i, hi, rfl⟩ := List.mem_take_iff_getElem.mp hx
    rw [Nat.lt_min] at hi
    exact h.below i _ hi.1 (by simp)
  have hbehind : ∀ x ∈ xs.toList.drop n, p x = false := by
    intro x hx
    obtain ⟨i, hi, rfl⟩ := List.mem_drop_iff_getElem.mp hx
    exact h.above (n + i) _ (Nat.le_add_right n i) (by simp)
  conv_rhs => rw [← List.take_append_drop n xs.toList]
  rw [List.filter_append, List.filter_eq_nil_iff.mpr (by simpa using hbefore),
    List.filter_eq_self.mpr (by simpa using hbehind), List.nil_append]

namespace Arena

variable {a : Arena}

/-- Tokens stand in the order of their starts. -/
def Sorted (a : Arena) : Prop := a.tokens.toList.Pairwise fun s t => s.span.start ≤ t.span.start

instance (a : Arena) : Decidable a.Sorted :=
  inferInstanceAs (Decidable (a.tokens.toList.Pairwise fun s t => s.span.start ≤ t.span.start))

theorem Sorted.parted (hs : a.Sorted) (offset : Nat) :
    Parted a.tokens fun t => t.span.start < offset := by
  refine hs.imp ?_
  intro s t hst ht
  simp only [decide_eq_true_eq] at ht ⊢
  omega

theorem drop_tokenIndex (hs : a.Sorted) (offset : Nat) :
    a.tokens.toList.drop (a.tokenIndex offset) =
      a.tokens.toList.filter fun t => offset ≤ t.span.start := by
  rw [tokenIndex, drop_partitionPoint (hs.parted offset)]
  apply List.filter_congr
  intro t _
  rw [← decide_not, decide_eq_decide, Nat.not_lt]

theorem tokenAfter?_eq_find? (hs : a.Sorted) (id : NodeId) :
    a.tokenAfter? id = a.tokens.toList.find? fun t => (a.span id).stop ≤ t.span.start := by
  rw [tokenAfter?, ← List.head?_filter, ← drop_tokenIndex hs, List.head?_drop, Array.getElem?_toList]

end Arena

namespace Token

theorem start_trans (r s t : Token) (hrs : decide (r.span.start ≤ s.span.start) = true)
    (hst : decide (s.span.start ≤ t.span.start) = true) :
    decide (r.span.start ≤ t.span.start) = true := by
  simp only [decide_eq_true_eq] at hrs hst ⊢
  omega

theorem start_total (s t : Token) :
    (decide (s.span.start ≤ t.span.start) || decide (t.span.start ≤ s.span.start)) = true := by
  simp only [Bool.or_eq_true, decide_eq_true_eq]
  omega

end Token

theorem Builder.sorted_finish (b : Builder) (root : NodeId) : (b.finish root).Sorted :=
  (List.pairwise_mergeSort Token.start_trans Token.start_total b.tokens.toList).imp of_decide_eq_true

end CallChain.Syntax

namespace CallChain.Chain

open CallChain.Syntax

variable {a : Arena} {object property : NodeId} {t : Token}

/-- The token is a `.` or `?.` between an object and a property. -/
def isBetween (a : Arena) (object property : NodeId) (t : Token) : Bool :=
  isAccess t && ((a.span object).stop ≤ t.span.start && t.span.start < (a.span property).start)

/-- The operator by a scan of all tokens. -/
def scanOperator (a : Arena) (object property : NodeId) : Option Token :=
  (a.tokens.toList.find? (isBetween a object property)).or
    (a.tokens.toList.find? fun t => (a.span object).stop ≤ t.span.start)

theorem takeWhile_eq_filter {ts : List Token} (offset : Nat)
    (hs : ts.Pairwise fun s t => s.span.start ≤ t.span.start) :
    ts.takeWhile (·.span.start < offset) = ts.filter (·.span.start < offset) := by
  induction ts with
  | nil => rfl
  | cons t ts ih =>
    obtain ⟨ht, hs⟩ := List.pairwise_cons.mp hs
    by_cases hlt : t.span.start < offset
    · simp [hlt, ih hs]
    · have hnone : ts.filter (·.span.start < offset) = [] := by
        apply List.filter_eq_nil_iff.mpr
        intro s hmem
        have hle := ht s hmem
        simp only [decide_eq_true_eq]
        omega
      simp [hlt, hnone]

theorem operator?_eq_scan (hs : a.Sorted) (object property : NodeId) :
    operator? a object property = scanOperator a object property := by
  unfold operator? scanOperator
  have hpair := List.Pairwise.filter (fun t : Token => (a.span object).stop ≤ t.span.start) hs
  rw [Arena.tokenAfter?_eq_find? hs]
  simp only [Arena.drop_tokenIndex hs, takeWhile_eq_filter _ hpair, List.find?_filter]
  congr 2
  funext t
  rw [isBetween, Bool.eq_iff_iff]
  simp only [Bool.and_eq_true, decide_eq_true_eq]
  tauto

/-- Where there is a `.` or `?.` between object and property, the operator is the first such token. -/
theorem operator?_isBetween (hs : a.Sorted) (ht : t ∈ a.tokens)
    (hb : isBetween a object property t = true) :
    ∃ o, operator? a object property = some o ∧ o ∈ a.tokens ∧
      isBetween a object property o = true ∧ o.span.start ≤ t.span.start := by
  rw [operator?_eq_scan hs, scanOperator]
  rw [← Array.mem_toList_iff] at ht
  cases hfind : a.tokens.toList.find? (isBetween a object property) with
  | none => exact absurd hb (List.find?_eq_none.mp hfind t ht)
  | some o =>
    obtain ⟨hbo, before, behind, hsplit, hnot⟩ := List.find?_eq_some_iff_append.mp hfind
    refine ⟨o, rfl, by rw [← Array.mem_toList_iff, hsplit]; simp, hbo, ?_⟩
    rw [Arena.Sorted, hsplit, List.pairwise_append] at hs
    rw [hsplit, List.mem_append, List.mem_cons] at ht
    rcases ht with ht | rfl | ht
    · have hcontra := hnot t ht
      rw [hb] at hcontra
      cases hcontra
    · exact le_rfl
    · exact (List.pairwise_cons.mp hs.2.1).1 t ht

end CallChain.Chain
