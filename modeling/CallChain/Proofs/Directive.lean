import Mathlib
import CallChain.Directive
import CallChain.Proofs.Text.Lines

/-!
# Where allow comments reach

An allow comment lets its rules pass on its own line and on the next one. `AllowedAt` says so of a line,
without the order in which the two lines are asked. A text without a slash has no such comment.
-/
namespace CallChain

theorem Text.eq_append_of_splitFirst? {phrase cs before rest : List Char}
    (h : splitFirst? phrase cs = some (before, rest)) : cs = before ++ (phrase ++ rest) := by
  induction cs generalizing before with
  | nil =>
    obtain ⟨behind, hphrase, hcut⟩ := Option.map_eq_some_iff.mp h
    cases hcut
    exact (List.isPrefixOf?_eq_some_iff_append_eq.mp hphrase).symm
  | cons c cs ih =>
    rw [splitFirst?] at h
    split at h
    · next behind hphrase =>
      cases h
      exact (List.isPrefixOf?_eq_some_iff_append_eq.mp hphrase).symm
    · obtain ⟨cut, hcut, heq⟩ := Option.map_eq_some_iff.mp h
      cases heq
      rw [ih hcut]
      rfl

namespace Text

/-- The text is cut at the first `phrase` in it. -/
structure FirstCut (phrase cs before rest : List Char) : Prop where
  text : cs = before ++ (phrase ++ rest)
  first : ¬ phrase <:+: before ++ phrase.dropLast

variable {phrase cs before rest : List Char}

theorem dropLast_prefix_cut (before phrase rest : List Char) :
    before ++ phrase.dropLast <+: before ++ (phrase ++ rest) :=
  (List.prefix_append_right_inj _).mpr
    ((List.dropLast_prefix phrase).trans (List.prefix_append _ _))

theorem firstCut_of_splitFirst? (hne : phrase ≠ [])
    (h : splitFirst? phrase cs = some (before, rest)) : FirstCut phrase cs before rest := by
  refine ⟨eq_append_of_splitFirst? h, ?_⟩
  have hshort : ¬ phrase <:+: phrase.dropLast := by
    intro hinfix
    have hle := hinfix.length_le
    have hpos := List.length_pos_iff.mpr hne
    rw [List.length_dropLast] at hle
    omega
  induction cs generalizing before with
  | nil =>
    obtain ⟨behind, -, hcut⟩ := Option.map_eq_some_iff.mp h
    cases hcut
    exact hshort
  | cons c cs ih =>
    rw [splitFirst?] at h
    split at h
    · cases h
      exact hshort
    · next hnone =>
      obtain ⟨cut, hcut, heq⟩ := Option.map_eq_some_iff.mp h
      cases heq
      rw [List.cons_append, List.infix_cons_iff, not_or]
      refine ⟨fun hstart => ?_, ih hcut⟩
      -- A phrase at the very front would have been found there.
      have hlonger : c :: (cut.1 ++ phrase.dropLast) <+: c :: cs := by
        rw [eq_append_of_splitFirst? hcut]
        exact dropLast_prefix_cut (c :: cut.1) phrase cut.2
      obtain ⟨behind, hbehind⟩ := hstart.trans hlonger
      rw [List.isPrefixOf?_eq_some_iff_append_eq.mpr hbehind] at hnone
      cases hnone

theorem splitFirst?_of_firstCut (hne : phrase ≠ []) (h : FirstCut phrase cs before rest) :
    splitFirst? phrase cs = some (before, rest) := by
  obtain ⟨rfl, hfirst⟩ := h
  induction before with
  | nil =>
    obtain ⟨c, phrase, rfl⟩ := List.exists_cons_of_ne_nil hne
    have hfront : (c :: phrase).isPrefixOf? (c :: (phrase ++ rest)) = some rest :=
      List.isPrefixOf?_eq_some_iff_append_eq.mpr rfl
    rw [List.nil_append, List.cons_append, splitFirst?, hfront]
  | cons c before ih =>
    rw [List.cons_append, List.infix_cons_iff, not_or] at hfirst
    have hnone : phrase.isPrefixOf? (c :: (before ++ (phrase ++ rest))) = none := by
      by_contra hsome
      obtain ⟨behind, hbehind⟩ := Option.ne_none_iff_exists'.mp hsome
      refine hfirst.1 (List.prefix_of_prefix_length_le
        ⟨behind, List.isPrefixOf?_eq_some_iff_append_eq.mp hbehind⟩
        (dropLast_prefix_cut (c :: before) phrase rest) ?_)
      rw [List.length_cons, List.length_append, List.length_dropLast]
      omega
    rw [List.cons_append, splitFirst?, hnone, ih hfirst.2]
    rfl

/-- Where the phrase stands at all, it stands for a first time. -/
theorem exists_firstCut (hne : phrase ≠ []) (h : phrase <:+: cs) :
    ∃ before rest, FirstCut phrase cs before rest := by
  suffices hsome : ∃ cut, splitFirst? phrase cs = some cut by
    obtain ⟨⟨before, rest⟩, hcut⟩ := hsome
    exact ⟨before, rest, firstCut_of_splitFirst? hne hcut⟩
  induction cs with
  | nil => exact absurd (List.infix_nil.mp h) hne
  | cons c cs ih =>
    rw [splitFirst?]
    split
    · exact ⟨_, rfl⟩
    · next hnone =>
      rcases List.infix_cons_iff.mp h with ⟨behind, hbehind⟩ | hinfix
      · rw [List.isPrefixOf?_eq_some_iff_append_eq.mpr hbehind] at hnone
        cases hnone
      · obtain ⟨cut, hcut⟩ := ih hinfix
        exact ⟨_, by rw [hcut]; rfl⟩

theorem splitFirst?_eq_some_iff (hne : phrase ≠ []) :
    splitFirst? phrase cs = some (before, rest) ↔ FirstCut phrase cs before rest :=
  ⟨firstCut_of_splitFirst? hne, splitFirst?_of_firstCut hne⟩

end Text

/-- Line `n` holds an allow comment that names the rule or all rules. -/
def AllowsOn (content : String) (n : Nat) (rule : String) : Prop :=
  ∃ text directive, Text.line? n content.toList = some text ∧
    Directive.ofLine? text = some directive ∧ (rule ∈ directive.rules ∨ "all" ∈ directive.rules)

/-- The line, or the one before it, holds an allow comment that names the rule or all rules. -/
def AllowedAt (content : String) (line : Nat) (rule : String) : Prop :=
  ∃ n text directive, (n = line ∨ n + 1 = line) ∧ Text.line? n content.toList = some text ∧
    Directive.ofLine? text = some directive ∧ (rule ∈ directive.rules ∨ "all" ∈ directive.rules)

theorem allowedAt_iff {content : String} {line : Nat} {rule : String} :
    AllowedAt content line rule ↔
      AllowsOn content line rule ∨ ∃ n, n + 1 = line ∧ AllowsOn content n rule := by
  constructor
  · rintro ⟨n, text, directive, rfl | hn, hallows⟩
    · exact Or.inl ⟨text, directive, hallows⟩
    · exact Or.inr ⟨n, hn, text, directive, hallows⟩
  · rintro (⟨text, directive, hallows⟩ | ⟨n, hn, text, directive, hallows⟩)
    · exact ⟨line, text, directive, Or.inl rfl, hallows⟩
    · exact ⟨n, text, directive, Or.inr hn, hallows⟩

theorem Directive.onLine?_eq_some_iff {content : List Char} {n : Nat} {rule : String}
    {directive : Directive} : onLine? content n rule = some directive ↔
      ∃ text, Text.line? n content = some text ∧ ofLine? text = some directive ∧
        (rule ∈ directive.rules ∨ "all" ∈ directive.rules) := by
  rw [onLine?, Option.filter_eq_some_iff, Option.bind_eq_some_iff]
  simp only [names, Bool.or_eq_true, List.contains_iff_mem]
  constructor
  · rintro ⟨⟨text, hline, hread⟩, hnames⟩
    exact ⟨text, hline, hread, hnames⟩
  · rintro ⟨text, hline, hread, hnames⟩
    exact ⟨⟨text, hline, hread⟩, hnames⟩

theorem Directive.exists_slash_of_ofLine? {line : List Char} {directive : Directive}
    (h : ofLine? line = some directive) : '/' ∈ line := by
  obtain ⟨⟨before, comment⟩, hsplit, -⟩ := Option.bind_eq_some_iff.mp h
  rw [Text.eq_append_of_splitFirst? hsplit]
  simp

theorem not_allowedAt_of_no_slash {content : String} (h : '/' ∉ content.toList) (line : Nat)
    (rule : String) : ¬ AllowedAt content line rule := by
  rintro ⟨n, text, directive, -, hline, hread, -⟩
  exact h (Text.mem_of_mem_line? hline (Directive.exists_slash_of_ofLine? hread))

namespace Allowance

/-- A finding is denied exactly where no allow comment reaches it. -/
theorem find_eq_denied_iff {content : String} {line : Nat} {rule : String} :
    find content line rule = .denied ↔ ¬ AllowedAt content line rule := by
  have hfind : find content line rule = .denied ↔
      Directive.onLine? content.toList (line - 1) rule = none ∧
        Directive.onLine? content.toList line rule = none := by
    unfold find
    cases Directive.onLine? content.toList (line - 1) rule <;>
      cases Directive.onLine? content.toList line rule <;> simp
  rw [hfind]
  constructor
  · rintro ⟨hbefore, hhere⟩ ⟨n, text, directive, hn, hline, hread, hnames⟩
    have hsome := Directive.onLine?_eq_some_iff.mpr ⟨text, hline, hread, hnames⟩
    rcases hn with rfl | rfl
    · rw [hhere] at hsome
      cases hsome
    · rw [Nat.add_sub_cancel] at hbefore
      rw [hbefore] at hsome
      cases hsome
  · intro hnot
    have hnone : ∀ n, n = line ∨ n + 1 = line → Directive.onLine? content.toList n rule = none := by
      intro n hn
      by_contra hne
      obtain ⟨directive, hsome⟩ := Option.ne_none_iff_exists'.mp hne
      obtain ⟨text, hline, hread, hnames⟩ := Directive.onLine?_eq_some_iff.mp hsome
      exact hnot ⟨n, text, directive, hn, hline, hread, hnames⟩
    refine ⟨?_, hnone line (Or.inl rfl)⟩
    cases line with
    | zero => exact hnone 0 (Or.inl rfl)
    | succ n => exact hnone n (Or.inr rfl)

end Allowance

end CallChain
