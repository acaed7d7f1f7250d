import CallChain.Proofs.Directive
import CallChain.Proofs.Text.Breaks

/-!
# Which of two allow comments gives the reason

Two allow comments can reach a line: one on the line before it and one on the line itself. The line before
is asked first, and the answer is that of the first comment that names the rule.

Line feeds before some bytes of a text can change that answer, even where neither comment's own line is
broken. If a break cuts the line before in two, the answer is that of its last piece, and this may read as a
comment where the whole line did not: slashes in a string hide the comment behind them until a line feed
comes between the two.
-/
namespace CallChain

/-- Line `n` holds an allow comment that names the rule or all rules, and this is its reason. -/
def AllowsWith (content : String) (n : Nat) (rule : String) (reason : Option String) : Prop :=
  ∃ text directive, Text.line? n content.toList = some text ∧
    Directive.ofLine? text = some directive ∧ (rule ∈ directive.rules ∨ "all" ∈ directive.rules) ∧
    directive.reason = reason

section Line

variable {content : String} {n : Nat} {rule : String} {reason : Option String}

theorem allowsWith_iff : AllowsWith content n rule reason ↔
    ∃ directive, Directive.onLine? content.toList n rule = some directive ∧
      directive.reason = reason := by
  constructor
  · rintro ⟨text, directive, hline, hread, hnames, hreason⟩
    exact ⟨directive, Directive.onLine?_eq_some_iff.mpr ⟨text, hline, hread, hnames⟩, hreason⟩
  · rintro ⟨directive, hfound, hreason⟩
    obtain ⟨text, hline, hread, hnames⟩ := Directive.onLine?_eq_some_iff.mp hfound
    exact ⟨text, directive, hline, hread, hnames, hreason⟩

theorem onLine?_eq_none_iff : Directive.onLine? content.toList n rule = none ↔
    ∀ reason, ¬ AllowsWith content n rule reason := by
  constructor
  · intro hnone reason hallows
    obtain ⟨directive, hfound, -⟩ := allowsWith_iff.mp hallows
    rw [hnone] at hfound
    cases hfound
  · intro hnot
    by_contra hsome
    obtain ⟨directive, hfound⟩ := Option.ne_none_iff_exists'.mp hsome
    exact hnot _ (allowsWith_iff.mpr ⟨directive, hfound, rfl⟩)

/-- A line gives one reason or none, not both. -/
theorem AllowsWith.reason_eq {reason' : Option String} (h : AllowsWith content n rule reason)
    (h' : AllowsWith content n rule reason') : reason = reason' := by
  obtain ⟨directive, hfound, rfl⟩ := allowsWith_iff.mp h
  obtain ⟨directive', hfound', rfl⟩ := allowsWith_iff.mp h'
  rw [Option.some.inj (hfound.symm.trans hfound')]

/-- The first comment that names the rule gives the answer. -/
theorem Allowance.find_eq_allowed_iff {line : Nat} : find content line rule = .allowed reason ↔
    AllowsWith content (line - 1) rule reason ∨
      (∀ other, ¬ AllowsWith content (line - 1) rule other) ∧ AllowsWith content line rule reason := by
  rw [allowsWith_iff, ← onLine?_eq_none_iff, allowsWith_iff]
  unfold find
  cases Directive.onLine? content.toList (line - 1) rule <;>
    cases Directive.onLine? content.toList line rule <;> simp

/-- One of the two lines that reach a link gives this reason. -/
def ReasonInReach (content : String) (line : Nat) (rule given : String) : Prop :=
  AllowsWith content line rule (some given) ∨ AllowsWith content (line - 1) rule (some given)

/-- With a reason in reach, the answer is without one if and only if the line before allows the rule
without one. -/
theorem ReasonInReach.find_eq_allowed_none_iff {line : Nat} {given : String}
    (h : ReasonInReach content line rule given) :
    Allowance.find content line rule = .allowed none ↔ AllowsWith content (line - 1) rule none := by
  rw [Allowance.find_eq_allowed_iff]
  refine ⟨fun hfind => ?_, Or.inl⟩
  rcases hfind with hbefore | ⟨hnone, hhere⟩
  · exact hbefore
  · rcases h with hgiven | hgiven
    · cases hgiven.reason_eq hhere
    · exact absurd hgiven (hnone _)

theorem ReasonInReach.find_ne_denied {line : Nat} {given : String}
    (h : ReasonInReach content line rule given) : Allowance.find content line rule ≠ .denied := by
  intro hdenied
  by_cases hbefore : ∃ other, AllowsWith content (line - 1) rule other
  · obtain ⟨other, hother⟩ := hbefore
    cases hdenied.symm.trans (Allowance.find_eq_allowed_iff.mpr (Or.inl hother))
  · rw [not_exists] at hbefore
    have hhere := h.resolve_right (hbefore _)
    cases hdenied.symm.trans (Allowance.find_eq_allowed_iff.mpr (Or.inr ⟨hbefore, hhere⟩))

theorem ReasonInReach.reason?_eq_none_iff {line : Nat} {given : String}
    (h : ReasonInReach content line rule given) :
    (Allowance.find content line rule).reason? = none ↔ AllowsWith content (line - 1) rule none := by
  rw [← h.find_eq_allowed_none_iff]
  cases hfind : Allowance.find content line rule with
  | denied => exact absurd hfind h.find_ne_denied
  | allowed reason => simp [Allowance.reason?]

end Line

/-- Line `n` holds no allow comment for the rule, but what it shows behind the last of the places reads as
one, and this is its reason. -/
def Uncovered (places : List Nat) (content : String) (n : Nat) (rule : String)
    (reason : Option String) : Prop :=
  (∀ other, ¬ AllowsWith content n rule other) ∧
    ∃ shown directive, Text.LastPiece places n content.toList shown ∧
      Directive.ofLine? shown = some directive ∧
      (rule ∈ directive.rules ∨ "all" ∈ directive.rules) ∧ directive.reason = reason

section Broken

variable {places : List Nat} {content rule : String} {n line : Nat} {shown : List Char}
  {reason : Option String}

/-- The comment on a last piece. -/
theorem allowsWith_breakBefore (hp : Text.Places places content.toList)
    (hlast : Text.LastPiece places n content.toList shown) :
    AllowsWith (String.ofList (Text.breakBefore places content.toList))
        (n + places.countP (Text.lineAt · content.toList ≤ n)) rule reason ↔
      ∃ directive, Directive.ofLine? shown = some directive ∧
        (rule ∈ directive.rules ∨ "all" ∈ directive.rules) ∧ directive.reason = reason := by
  have hline := hp.line?_of_lastPiece hlast
  rw [AllowsWith, String.toList_ofList, hline]
  constructor
  · rintro ⟨text, directive, htext, hread⟩
    obtain rfl := Option.some.inj htext
    exact ⟨directive, hread⟩
  · rintro ⟨directive, hread⟩
    exact ⟨shown, directive, rfl, hread⟩

/-- The comment on a line that is not broken goes along with it. -/
theorem allowsWith_breakBefore_of_free (hp : Text.Places places content.toList)
    (hfree : ∀ q ∈ places, Text.lineAt q content.toList ≠ n)
    (hline : Text.line? n content.toList = some shown) :
    AllowsWith (String.ofList (Text.breakBefore places content.toList))
        (n + places.countP (Text.lineAt · content.toList ≤ n)) rule reason ↔
      AllowsWith content n rule reason := by
  rw [allowsWith_breakBefore hp (Text.lastPiece_of_free hfree hline), AllowsWith, hline]
  simp

end Broken

namespace AllowedAt

variable {places : List Nat} {content rule : String} {line : Nat} {reason : Option String}

theorem pos (h : AllowedAt content line rule) : line ≠ 0 := by
  rintro rfl
  obtain ⟨n, text, directive, hn, hline, -⟩ := h
  obtain rfl : n = 0 := by omega
  cases hline

theorem allowsWith (h : AllowedAt content line rule) :
    (∃ reason, AllowsWith content (line - 1) rule reason) ∨
      ∃ reason, AllowsWith content line rule reason := by
  obtain ⟨n, text, directive, hn, hline, hread, hnames⟩ := h
  rcases hn with rfl | rfl
  · exact Or.inr ⟨_, text, directive, hline, hread, hnames, rfl⟩
  · exact Or.inl ⟨_, text, directive, hline, hread, hnames, rfl⟩

section Broken

variable (h : AllowedAt content line rule) (hp : Text.Places places content.toList)
  (hfree : ∀ q ∈ places, ¬ AllowedAt content (Text.lineAt q content.toList) rule)
include h hfree

theorem not_on_line : ∀ q ∈ places, Text.lineAt q content.toList ≠ line :=
  fun q hq heq => hfree q hq (heq ▸ h)

theorem countP_le_line : places.countP (Text.lineAt · content.toList ≤ line) =
    places.countP (Text.lineAt · content.toList < line) := by
  apply List.countP_congr
  intro q hq
  have hne := h.not_on_line hfree q hq
  simp only [decide_eq_true_eq]
  omega

include hp

/-- What is read before an allowed line after a text was broken elsewhere: the comment that was there, or one
that a break has uncovered. -/
theorem allowsWith_line_before :
    AllowsWith (String.ofList (Text.breakBefore places content.toList))
        (line + places.countP (Text.lineAt · content.toList < line) - 1) rule reason ↔
      AllowsWith content (line - 1) rule reason ∨ Uncovered places content (line - 1) rule reason := by
  obtain ⟨n, rfl⟩ := Nat.exists_eq_succ_of_ne_zero h.pos
  have hcount : places.countP (Text.lineAt · content.toList < n + 1) =
      places.countP (Text.lineAt · content.toList ≤ n) := by
    simp only [Nat.lt_succ_iff]
  rw [Nat.succ_eq_add_one, Nat.add_sub_cancel, hcount, Nat.add_right_comm, Nat.add_sub_cancel]
  by_cases hbefore : ∃ other, AllowsWith content n rule other
  · obtain ⟨other, text, directive, hline, hread, hnames, hother⟩ := hbefore
    have hn : ∀ q ∈ places, Text.lineAt q content.toList ≠ n := fun q hq heq =>
      hfree q hq ⟨n, text, directive, Or.inl heq.symm, hline, hread, hnames⟩
    rw [allowsWith_breakBefore_of_free hp hn hline, or_iff_left]
    exact fun huncovered => huncovered.1 other ⟨text, directive, hline, hread, hnames, hother⟩
  · have hnone := not_exists.mp hbefore
    obtain ⟨given, next, -, hnext, -⟩ := h.allowsWith.resolve_left hbefore
    rw [or_iff_right (hnone reason)]
    constructor
    · intro hallows
      have hn : n ≠ 0 := by
        rintro rfl
        have hzero : places.countP (Text.lineAt · content.toList ≤ 0) = 0 := by
          simp [Text.lineAt]
        obtain ⟨text, -, hline, -⟩ := hallows
        rw [hzero] at hline
        cases hline
      obtain ⟨shown, hlast⟩ := hp.exists_lastPiece hn hnext
      obtain ⟨directive, hread⟩ := (allowsWith_breakBefore hp hlast).mp hallows
      exact ⟨hnone, shown, directive, hlast, hread⟩
    · rintro ⟨-, shown, directive, hlast, hread⟩
      exact (allowsWith_breakBefore hp hlast).mpr ⟨directive, hread⟩

/-- The answer for an allowed line after a text was broken elsewhere: that of a comment which a break has
uncovered on the line before, or else the answer that was given. -/
theorem find_breakBefore :
    Allowance.find (String.ofList (Text.breakBefore places content.toList))
        (line + places.countP (Text.lineAt · content.toList < line)) rule = .allowed reason ↔
      Uncovered places content (line - 1) rule reason ∨
        (∀ other, ¬ Uncovered places content (line - 1) rule other) ∧
          Allowance.find content line rule = .allowed reason := by
  rw [Allowance.find_eq_allowed_iff]
  simp only [h.allowsWith_line_before hp hfree]
  rw [Allowance.find_eq_allowed_iff]
  by_cases hbefore : ∃ other, AllowsWith content (line - 1) rule other
  · obtain ⟨other, hother⟩ := hbefore
    have hnone : ∀ other, ¬ Uncovered places content (line - 1) rule other :=
      fun _ huncovered => huncovered.1 other hother
    have hsome : ¬ ∀ other, ¬ AllowsWith content (line - 1) rule other := fun h => h other hother
    simp [hnone, hsome]
  · obtain ⟨given, text, directive, hline, hread⟩ := h.allowsWith.resolve_left hbefore
    have hhere : AllowsWith (String.ofList (Text.breakBefore places content.toList))
        (line + places.countP (Text.lineAt · content.toList < line)) rule reason ↔
          AllowsWith content line rule reason := by
      rw [← h.countP_le_line hfree]
      exact allowsWith_breakBefore_of_free hp (h.not_on_line hfree) hline
    simp [not_exists.mp hbefore, hhere]

theorem breakBefore : AllowedAt (String.ofList (Text.breakBefore places content.toList))
    (line + places.countP (Text.lineAt · content.toList < line)) rule := by
  by_contra hnot
  have hdenied := Allowance.find_eq_denied_iff.mpr hnot
  have hnone : ∀ other, ¬ Uncovered places content (line - 1) rule other := by
    intro other huncovered
    cases hdenied.symm.trans ((h.find_breakBefore hp hfree).mpr (Or.inl huncovered))
  cases hfound : Allowance.find content line rule with
  | denied => exact Allowance.find_eq_denied_iff.mp hfound h
  | allowed reason => cases hdenied.symm.trans ((h.find_breakBefore hp hfree).mpr (Or.inr ⟨hnone, hfound⟩))

end Broken

end AllowedAt

end CallChain
