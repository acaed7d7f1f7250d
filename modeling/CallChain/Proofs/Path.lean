import Mathlib
import CallChain.Path

/-!
# Joined paths and the order of paths

A name that is joined to a path becomes its last component, however the path is written. Paths are
compared by their components, which is a linear order up to the way a path is written.
-/
namespace CallChain.Path

/-- What a directory can hold as a name: not empty, without a slash, and neither `.` nor `..`. -/
def IsName (s : String) : Prop :=
  s.toList ≠ [] ∧ '/' ∉ s.toList ∧ s.toList ≠ ['.'] ∧ s.toList ≠ ['.', '.']

instance (s : String) : Decidable (IsName s) :=
  inferInstanceAs
    (Decidable (s.toList ≠ [] ∧ '/' ∉ s.toList ∧ s.toList ≠ ['.'] ∧ s.toList ≠ ['.', '.']))

theorem stretchesFrom_of_plain {cs : List Char} (h : '/' ∉ cs) (start : Nat) (held : List Char) :
    stretchesFrom start held cs = [(start, held.reverse ++ cs)] := by
  induction cs generalizing held with
  | nil => simp [stretchesFrom]
  | cons c cs ih =>
    rw [List.mem_cons, not_or] at h
    rw [stretchesFrom, if_neg (Ne.symm h.1), ih h.2]
    simp

theorem stretchesFrom_append_slash (cs ds : List Char) (start : Nat) (held : List Char) :
    stretchesFrom start held (cs ++ '/' :: ds) =
      stretchesFrom start held cs ++ stretchesFrom (start + held.length + cs.length + 1) [] ds := by
  induction cs generalizing start held with
  | nil => simp [stretchesFrom]
  | cons c cs ih =>
    rw [List.cons_append, stretchesFrom, stretchesFrom]
    split
    · rw [ih, List.cons_append]
      congr 3
      simp only [List.length_nil, List.length_cons]
      omega
    · rw [ih]
      congr 2
      simp only [List.length_cons]
      omega

/-- The components of a text, without that of a leading slash. -/
def bodyOf (cs : List Char) : List Component :=
  ((stretchesFrom 0 [] cs).filterMap fun (start, stretch) =>
    pieceOf? (start == 0) start stretch).map (·.component)

theorem components_eq (p : Path) :
    p.components = (if p.isAbsolute then [.root] else []) ++ bodyOf p.text.toList := by
  rw [components, pieces, isAbsolute, bodyOf]
  by_cases h : p.text.toList.head? = some '/'
  · simp [h]
  · simp [h]

theorem pieceOf?_of_isName {s : String} (h : IsName s) (first : Bool) (start : Nat) :
    pieceOf? first start s.toList = some ⟨.name s, start, start + s.toList.length⟩ := by
  obtain ⟨hne, -, hdot, hdots⟩ := h
  rw [pieceOf?, String.ofList_toList] <;> assumption

theorem bodyOf_name {s : String} (h : IsName s) : bodyOf s.toList = [.name s] := by
  simp [bodyOf, stretchesFrom_of_plain h.2.1, pieceOf?_of_isName h]

theorem bodyOf_slash_name {s : String} (h : IsName s) (cs : List Char) :
    bodyOf (cs ++ '/' :: s.toList) = bodyOf cs ++ [.name s] := by
  simp [bodyOf, stretchesFrom_append_slash, stretchesFrom_of_plain h.2.1, pieceOf?_of_isName h]

theorem bodyOf_slash (cs : List Char) : bodyOf (cs ++ ['/']) = bodyOf cs := by
  simp [bodyOf, stretchesFrom_append_slash, stretchesFrom, pieceOf?]

/-- What is written for a joined name: the path, a slash unless one is there, and the name. -/
theorem text_join {s : String} (h : IsName s) (p : Path) :
    (p.text.toList = [] ∧ (p.join ⟨s⟩).text.toList = s.toList) ∨
      ∃ cs, (p.text.toList = cs ∨ p.text.toList = cs ++ ['/']) ∧ p.text.toList ≠ [] ∧
        (p.join ⟨s⟩).text.toList = cs ++ '/' :: s.toList := by
  have hrelative : (Path.mk s).isAbsolute = false := by
    rw [isAbsolute, decide_eq_false_iff_not]
    exact fun hhead => h.2.1 (List.mem_of_head? hhead)
  rw [join, hrelative, if_neg Bool.false_ne_true]
  by_cases hempty : p.text.toList = []
  · have htext : p.text = "" := String.toList_eq_nil_iff.mp hempty
    exact Or.inl ⟨hempty, by simp [htext]⟩
  · have hne : p.text.isEmpty = false := by simpa using hempty
    rcases List.eq_nil_or_concat p.text.toList with hnil | ⟨cs, c, hcs⟩
    · exact absurd hnil hempty
    · rw [List.concat_eq_append] at hcs
      by_cases hc : c = '/'
      · subst hc
        exact Or.inr ⟨cs, Or.inr hcs, hempty, by simp [hcs]⟩
      · exact Or.inr ⟨p.text.toList, Or.inl rfl, hempty, by simp [hne, hcs, hc]⟩

/-- A joined name is the last component. -/
theorem components_join {s : String} (h : IsName s) (p : Path) :
    (p.join ⟨s⟩).components = p.components ++ [.name s] := by
  rw [components_eq, components_eq, isAbsolute, isAbsolute]
  rcases text_join h p with ⟨hempty, htext⟩ | ⟨cs, hcs, hne, htext⟩
  · have hhead : s.toList.head? ≠ some '/' := fun hhead => h.2.1 (List.mem_of_head? hhead)
    rw [htext, hempty, bodyOf_name h]
    simp [hhead, bodyOf, stretchesFrom, pieceOf?]
  · rw [htext, bodyOf_slash_name h]
    rcases hcs with rfl | hcs
    · obtain ⟨c, cs, hcons⟩ := List.exists_cons_of_ne_nil hne
      rw [hcons, List.cons_append, List.head?_cons, List.head?_cons, List.append_assoc]
    · have hhead : (cs ++ '/' :: s.toList).head? = (cs ++ ['/']).head? := by cases cs <;> rfl
      rw [hcs, hhead, bodyOf_slash, List.append_assoc]

namespace Component

theorem compare_eq (a b : Component) :
    a.compare b = (Ord.compare a.rank b.rank).then (Ord.compare a.text b.text) := by
  cases a <;> cases b <;> rfl

instance : Std.TransCmp Component.compare := by
  have heq : Component.compare = compareLex (compareOn rank) (compareOn text) := by
    funext a b
    exact compare_eq a b
  rw [heq]
  infer_instance

theorem eq_of_compare {a b : Component} (h : a.compare b = .eq) : a = b := by
  rw [compare_eq, Ordering.then_eq_eq] at h
  have hrank := Std.LawfulEqCmp.eq_of_compare h.1
  have htext := Std.LawfulEqCmp.eq_of_compare h.2
  cases a <;> cases b <;> simp_all [rank, text]

instance : Std.LawfulEqCmp Component.compare where
  eq_of_compare := eq_of_compare

end Component

theorem compareComponents_eq (as bs : List Component) :
    compareComponents as bs = List.compareLex Component.compare as bs := by
  induction as generalizing bs with
  | nil => cases bs <;> rfl
  | cons a as ih =>
    cases bs with
    | nil => rfl
    | cons b bs => rw [compareComponents, ih, List.compareLex_cons_cons]

instance : Std.TransCmp Path.compare := by
  have heq : Path.compare = fun p q => List.compareLex Component.compare p.components q.components := by
    funext p q
    exact compareComponents_eq p.components q.components
  rw [heq]
  exact { eq_swap := Std.OrientedCmp.eq_swap, isLE_trans := Std.TransCmp.isLE_trans }

theorem isLE_total (p q : Path) : ((p.compare q).isLE || (q.compare p).isLE) = true := by
  have hswap : q.compare p = (p.compare q).swap := Std.OrientedCmp.eq_swap
  rw [hswap]
  cases p.compare q <;> rfl

theorem compare_ne_lt_self (p : Path) : p.compare p ≠ .lt := by
  have hself : p.compare p = .eq := Std.ReflCmp.compare_self
  simp [hself]

theorem compare_ne_lt_of_lt {p q : Path} (h : p.compare q = .lt) : q.compare p ≠ .lt := by
  have hswap : q.compare p = (p.compare q).swap := Std.OrientedCmp.eq_swap
  simp [hswap, h]

/-- Paths that compare equal differ at most in the way they are written. -/
theorem components_eq_of_compare {p q : Path} (h : p.compare q = .eq) : p.components = q.components := by
  rw [compare, compareComponents_eq] at h
  exact Std.LawfulEqCmp.eq_of_compare h

end CallChain.Path
