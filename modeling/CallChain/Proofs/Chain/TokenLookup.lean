import CallChain.Proofs.Chain.Operator
import CallChain.Proofs.Report.Order

/-!
# Looking up tokens in a finished arena

A front end fills an arena call by call and may push the tokens in any order. Finishing sorts them by their
starts and leaves those that start together as they were pushed. So the lookups give what a scan of the
pushed tokens would choose: the one that starts first, and of several that start there the one that was
pushed first. The order of tokens with different starts plays no part in it.
-/
namespace CallChain.Syntax

namespace Builder

/-- One call by which a front end fills an arena. -/
inductive Step where
  | openNode (span : Span) (parent : Option NodeId)
  | closeNode (id : NodeId) (kind : NodeKind)
  | pushToken (token : Token)

def Step.token? : Step → Option Token
  | pushToken token => some token
  | _ => none

def step (b : Builder) : Step → Builder
  | .openNode span parent => b.openNode span parent
  | .closeNode id kind => b.closeNode id kind
  | .pushToken token => b.pushToken token

def run (b : Builder) (steps : List Step) : Builder := steps.foldl step b

/-- The tokens that are pushed, in the order of the calls. -/
def pushed (steps : List Step) : List Token := steps.filterMap Step.token?

/-- The arena that a front end gets by its calls. -/
def built (steps : List Step) (root : NodeId) : Arena := (empty.run steps).finish root

theorem tokens_step (b : Builder) (s : Step) :
    (b.step s).tokens.toList = b.tokens.toList ++ s.token?.toList := by
  cases s <;> simp [step, Step.token?, openNode, closeNode, pushToken]

theorem tokens_run (b : Builder) (steps : List Step) :
    (b.run steps).tokens.toList = b.tokens.toList ++ pushed steps := by
  induction steps generalizing b with
  | nil => simp [run, pushed]
  | cons s steps ih =>
    calc ((b.step s).run steps).tokens.toList
        = (b.tokens.toList ++ s.token?.toList) ++ pushed steps := by rw [ih, tokens_step]
      _ = b.tokens.toList ++ pushed (s :: steps) := by
        rw [List.append_assoc, pushed, pushed, List.filterMap_cons]
        cases s.token? <;> rfl

theorem tokens_run_empty (steps : List Step) : (empty.run steps).tokens.toList = pushed steps :=
  tokens_run empty steps

end Builder

section Choice

variable {p : Token → Prop} {ts us : List Token} {t : Token}

/-- Of the tokens with `p`, the one that starts first, and of several that start there the one that comes
first in the list. -/
def IsFirst (p : Token → Prop) (ts : List Token) (t : Token) : Prop :=
  ∃ before behind, ts = before ++ t :: behind ∧ p t ∧
    (∀ u ∈ before, p u → t.span.start < u.span.start) ∧
    ∀ u ∈ behind, p u → t.span.start ≤ u.span.start

/-- The lists have the same tokens, and their orders differ only between tokens with different starts. -/
def SameByStart (ts us : List Token) : Prop :=
  ∀ offset, ts.filter (·.span.start = offset) = us.filter (·.span.start = offset)

theorem sameByStart_iff : SameByStart ts us ↔
    ∀ t ∈ ts ++ us, ts.filter (·.span.start = t.span.start) = us.filter (·.span.start = t.span.start) := by
  refine ⟨fun h t _ => h _, fun h offset => ?_⟩
  by_cases hstart : ∃ t ∈ ts ++ us, t.span.start = offset
  · obtain ⟨t, ht, rfl⟩ := hstart
    exact h t ht
  · simp only [not_exists, not_and, List.mem_append] at hstart
    rw [List.filter_eq_nil_iff.mpr fun t ht => by simpa using hstart t (.inl ht),
      List.filter_eq_nil_iff.mpr fun t ht => by simpa using hstart t (.inr ht)]

instance (ts us : List Token) : Decidable (SameByStart ts us) := decidable_of_iff _ sameByStart_iff.symm

theorem SameByStart.mem_iff (h : SameByStart ts us) : t ∈ ts ↔ t ∈ us := by
  have hmem : t ∈ ts.filter (·.span.start = t.span.start) ↔ t ∈ us.filter (·.span.start = t.span.start) := by
    rw [h]
  simpa using hmem

/-- The choice is the first one among the tokens that start together with it. -/
theorem isFirst_iff [DecidablePred p] : IsFirst p ts t ↔
    (ts.filter (·.span.start = t.span.start)).find? (p ·) = some t ∧
      ∀ u ∈ ts, p u → t.span.start ≤ u.span.start := by
  rw [List.find?_filter, List.find?_eq_some_iff_append]
  constructor
  · rintro ⟨before, behind, rfl, hp, hbefore, hbehind⟩
    refine ⟨⟨by simpa using hp, before, behind, rfl, fun u hu => ?_⟩, fun u hu hpu => ?_⟩
    · by_cases hpu : p u
      · simp [(hbefore u hu hpu).ne']
      · simp [hpu]
    · rcases List.mem_append.mp hu with hu | hu
      · exact (hbefore u hu hpu).le
      · rcases List.mem_cons.mp hu with rfl | hu
        · exact le_rfl
        · exact hbehind u hu hpu
  · rintro ⟨⟨hp, before, behind, rfl, hbefore⟩, hleast⟩
    refine ⟨before, behind, rfl, by simpa using hp, fun u hu hpu => ?_, fun u hu hpu => ?_⟩
    · have hne : u.span.start ≠ t.span.start := by simpa [hpu] using hbefore u hu
      exact lt_of_le_of_ne (hleast u (by simp [hu]) hpu) hne.symm
    · exact hleast u (by simp [hu]) hpu

theorem SameByStart.isFirst_iff (h : SameByStart ts us) : IsFirst p ts t ↔ IsFirst p us t := by
  classical
  rw [Syntax.isFirst_iff, Syntax.isFirst_iff, h]
  simp only [h.mem_iff]

/-- Where the tokens stand in the order of their starts, the choice is the first token with `p`. -/
theorem find?_eq_some_iff_isFirst [DecidablePred p]
    (hs : ts.Pairwise fun s t => s.span.start ≤ t.span.start) :
    ts.find? (p ·) = some t ↔ IsFirst p ts t := by
  rw [List.find?_eq_some_iff_append]
  constructor
  · rintro ⟨hp, before, behind, rfl, hbefore⟩
    have hbehind := (List.pairwise_cons.mp (List.pairwise_append.mp hs).2.1).1
    refine ⟨before, behind, rfl, by simpa using hp, fun u hu hpu => ?_, fun u hu _ => hbehind u hu⟩
    exact absurd hpu (by simpa using hbefore u hu)
  · rintro ⟨before, behind, rfl, hp, hbefore, -⟩
    have hle := (List.pairwise_append.mp hs).2.2
    refine ⟨by simpa using hp, before, behind, rfl, fun u hu => ?_⟩
    have hpu : ¬p u := fun hpu => (hle u hu t List.mem_cons_self).not_gt (hbefore u hu hpu)
    simpa using hpu

end Choice

namespace Builder

variable {p : Token → Prop} [DecidablePred p] {b c : Builder} {root : NodeId}

theorem sameByStart_finish (b : Builder) (root : NodeId) :
    SameByStart (b.finish root).tokens.toList b.tokens.toList := by
  intro offset
  refine filter_mergeSort_of_ties Token.start_trans Token.start_total (fun s t hs ht => ?_) b.tokens.toList
  simp only [decide_eq_true_eq] at hs ht ⊢
  rw [hs, ht]

/-- Scanning the sorted tokens is choosing among the pushed ones. -/
theorem find?_finish_eq_some_iff {t : Token} :
    (b.finish root).tokens.toList.find? (p ·) = some t ↔ IsFirst p b.tokens.toList t := by
  rw [find?_eq_some_iff_isFirst (sorted_finish b root), (sameByStart_finish b root).isFirst_iff]

theorem find?_finish_eq_none_iff :
    (b.finish root).tokens.toList.find? (p ·) = none ↔ ∀ t ∈ b.tokens.toList, ¬p t := by
  rw [List.find?_eq_none]
  simp only [(sameByStart_finish b root).mem_iff, decide_eq_true_eq]

theorem find?_finish_congr (h : SameByStart b.tokens.toList c.tokens.toList) :
    (b.finish root).tokens.toList.find? (p ·) = (c.finish root).tokens.toList.find? (p ·) := by
  ext t
  rw [find?_finish_eq_some_iff, find?_finish_eq_some_iff, h.isFirst_iff]

theorem span_finish_congr (h : b.nodes = c.nodes) (id : NodeId) :
    (b.finish root).span id = (c.finish root).span id := by
  simp only [Arena.span, Arena.node?, finish, h]

theorem tokenAfter?_finish_congr (hnodes : b.nodes = c.nodes)
    (h : SameByStart b.tokens.toList c.tokens.toList) (id : NodeId) :
    (b.finish root).tokenAfter? id = (c.finish root).tokenAfter? id := by
  rw [Arena.tokenAfter?_eq_find? (sorted_finish b root), Arena.tokenAfter?_eq_find? (sorted_finish c root),
    span_finish_congr hnodes, find?_finish_congr h]

end Builder

end CallChain.Syntax

namespace CallChain.Chain

open CallChain.Syntax
open Builder (built pushed)

variable {a : Arena} {b c : Builder} {root object property : NodeId} {t : Token}

/-- The token is a `.` or `?.` that starts at the end of the object or later, and before the property. -/
def Joins (a : Arena) (object property : NodeId) (t : Token) : Prop :=
  (t.kind = "." ∨ t.kind = "?.") ∧
    (a.span object).stop ≤ t.span.start ∧ t.span.start < (a.span property).start

theorem isBetween_iff : isBetween a object property t = true ↔ Joins a object property t := by
  simp [isBetween, isAccess, Joins]

instance : DecidablePred (Joins a object property) := fun _ => decidable_of_iff _ isBetween_iff

theorem operator?_eq_find? (hs : a.Sorted) (object property : NodeId) :
    operator? a object property =
      (a.tokens.toList.find? (Joins a object property ·)).or (a.tokenAfter? object) := by
  have hjoins : isBetween a object property = fun t => decide (Joins a object property t) := by
    funext t
    rw [Bool.eq_iff_iff, isBetween_iff, decide_eq_true_eq]
  rw [operator?_eq_scan hs, scanOperator, Arena.tokenAfter?_eq_find? hs, hjoins]

/-- If there is a token that joins object and property, the first one of them is the operator. -/
theorem operator?_finish_of_exists (h : ∃ u ∈ b.tokens.toList, Joins (b.finish root) object property u) :
    ∃ t, operator? (b.finish root) object property = some t ∧
      IsFirst (Joins (b.finish root) object property) b.tokens.toList t := by
  obtain ⟨u, hu, hjoins⟩ := h
  rw [operator?_eq_find? (Builder.sorted_finish b root)]
  cases hfind : (b.finish root).tokens.toList.find? (Joins (b.finish root) object property ·) with
  | none => exact absurd hjoins (Builder.find?_finish_eq_none_iff.mp hfind u hu)
  | some t => exact ⟨t, rfl, Builder.find?_finish_eq_some_iff.mp hfind⟩

theorem operator?_finish_of_none (h : ∀ u ∈ b.tokens.toList, ¬Joins (b.finish root) object property u) :
    operator? (b.finish root) object property = (b.finish root).tokenAfter? object := by
  rw [operator?_eq_find? (Builder.sorted_finish b root), Builder.find?_finish_eq_none_iff.mpr h,
    Option.none_or]

theorem operator?_finish_congr (hnodes : b.nodes = c.nodes)
    (h : SameByStart b.tokens.toList c.tokens.toList) (object property : NodeId) :
    operator? (b.finish root) object property = operator? (c.finish root) object property := by
  have hjoins : Joins (b.finish root) object property = Joins (c.finish root) object property := by
    funext t
    simp only [Joins, Builder.span_finish_congr hnodes]
  rw [operator?_eq_find? (Builder.sorted_finish b root), operator?_eq_find? (Builder.sorted_finish c root),
    Builder.tokenAfter?_finish_congr hnodes h]
  simp only [hjoins, Builder.find?_finish_congr h]

/-- However the tokens of an arena were pushed, the lookups by halving give what a scan of the pushed tokens
would choose. Behind a node it is the first token that starts at its end or later, and there is none only
if no token does. Between two nodes, as are the object and the property of a member access, it is the first
`.` or `?.`, or else the token behind the object. First is what starts first, and of several that start
there what was pushed first; the order of the pushes plays no other part. -/
theorem lookups_choose_among_pushed (steps : List Builder.Step) (root : NodeId) :
    (∀ id t, (built steps root).tokenAfter? id = some t ↔
      IsFirst (fun u => ((built steps root).span id).stop ≤ u.span.start) (pushed steps) t) ∧
    (∀ id, (built steps root).tokenAfter? id = none ↔
      ∀ u ∈ pushed steps, u.span.start < ((built steps root).span id).stop) ∧
    (∀ object property,
      ((∃ u ∈ pushed steps, Joins (built steps root) object property u) →
        ∃ t, operator? (built steps root) object property = some t ∧
          IsFirst (Joins (built steps root) object property) (pushed steps) t) ∧
      ((∀ u ∈ pushed steps, ¬Joins (built steps root) object property u) →
        operator? (built steps root) object property = (built steps root).tokenAfter? object)) ∧
    (∀ others, (built others root).nodes = (built steps root).nodes →
      SameByStart (pushed others) (pushed steps) →
      (∀ id, (built others root).tokenAfter? id = (built steps root).tokenAfter? id) ∧
      ∀ object property,
        operator? (built others root) object property = operator? (built steps root) object property) := by
  simp only [built, ← Builder.tokens_run_empty]
  refine ⟨fun id t => ?_, fun id => ?_, fun object property => ⟨?_, ?_⟩, fun others hnodes h => ⟨?_, ?_⟩⟩
  · rw [Arena.tokenAfter?_eq_find? (Builder.sorted_finish _ root), Builder.find?_finish_eq_some_iff]
  · rw [Arena.tokenAfter?_eq_find? (Builder.sorted_finish _ root), Builder.find?_finish_eq_none_iff]
    simp only [Nat.not_le]
  · exact operator?_finish_of_exists
  · exact operator?_finish_of_none
  · exact Builder.tokenAfter?_finish_congr hnodes h
  · exact operator?_finish_congr hnodes h

/-- A stretch of one line. -/
def stretch (start stop : Nat) : Span := ⟨start, stop, ⟨1, start⟩, ⟨1, stop⟩⟩

/-- The nodes of `(a)?.b`; the object is what is inside the parentheses. -/
def wrappedAccess : List Builder.Step :=
  [.openNode (stretch 0 6) none, .openNode (stretch 0 6) (some 0), .openNode (stretch 1 2) (some 1),
    .closeNode 2 (.identifier "a"), .openNode (stretch 5 6) (some 1), .closeNode 3 (.identifier "b"),
    .closeNode 1 (.member 2 3 false true), .closeNode 0 (.program [1])]

/-- Two tokens that join object and property start together, the `?.` is pushed before the `.`. -/
def accessTokens : List Token :=
  [⟨"(", stretch 0 1⟩, ⟨"identifier", stretch 1 2⟩, ⟨")", stretch 2 3⟩, ⟨"?.", stretch 3 5⟩,
    ⟨".", stretch 3 4⟩, ⟨"property_identifier", stretch 5 6⟩]

def shuffledTokens : List Token :=
  [⟨"property_identifier", stretch 5 6⟩, ⟨"?.", stretch 3 5⟩, ⟨")", stretch 2 3⟩, ⟨".", stretch 3 4⟩,
    ⟨"(", stretch 0 1⟩, ⟨"identifier", stretch 1 2⟩]

def inTurn : List Builder.Step := wrappedAccess ++ accessTokens.map .pushToken

def shuffled : List Builder.Step := shuffledTokens.map .pushToken ++ wrappedAccess

theorem lookups_choose_among_pushed_shuffled :
    (built inTurn 0).nodes = (built shuffled 0).nodes ∧ SameByStart (pushed inTurn) (pushed shuffled) ∧
    (built inTurn 0).tokenAfter? 2 = some ⟨")", stretch 2 3⟩ ∧ (built inTurn 0).tokenAfter? 3 = none ∧
    (∃ t, operator? (built inTurn 0) 2 3 = some t ∧
      IsFirst (Joins (built shuffled 0) 2 3) (pushed shuffled) t) ∧
    operator? (built inTurn 0) 3 2 = none := by
  obtain ⟨hafter, hnone, hoperator, hothers⟩ := lookups_choose_among_pushed shuffled 0
  have hnodes : (built inTurn 0).nodes = (built shuffled 0).nodes := by decide
  have hsame : SameByStart (pushed inTurn) (pushed shuffled) := by decide
  obtain ⟨htokens, hoperators⟩ := hothers inTurn hnodes hsame
  have hend : (built shuffled 0).tokenAfter? 3 = none := (hnone 3).mpr (by decide)
  simp only [htokens, hoperators]
  refine ⟨hnodes, hsame, (hafter 2 _).mpr ?_, hend, (hoperator 2 3).1 (by decide), ?_⟩
  · exact ⟨shuffledTokens.take 2, shuffledTokens.drop 3, by decide, by decide, by decide, by decide⟩
  · exact ((hoperator 3 2).2 (by decide)).trans hend

end CallChain.Chain
