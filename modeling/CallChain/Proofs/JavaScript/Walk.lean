import CallChain.JavaScript.Walk
import CallChain.Proofs.JavaScript.Address

/-!
# The walk over a tree

The cursor comes to every node that is not inside a comment, to each of them once, and in the order of
their addresses. So what it collects are the tokens of the leaves, from left to right.
-/
namespace CallChain.JavaScript

open CallChain.Syntax (Token)

namespace Concrete

/-- The token that a leaf is. `?.` goes by its text. -/
def leafToken (l : Label) : Token :=
  { kind := if l.kind = "optional_chain" then "?." else l.kind, span := l.span }

/-- A leaf that is no comment. -/
def isTokenLeaf (s : Concrete) : Bool := s.children.isEmpty && !s.label.extra

/-- The token of a node: only a leaf that is no comment has one. -/
def token? (s : Concrete) : Option Token :=
  if s.isTokenLeaf then some (leafToken s.label) else none

mutual

/-- The tokens of a tree, from left to right; comments have none. -/
def leafTokens : Concrete → List Token
  | node l [] => if l.extra then [] else [leafToken l]
  | node l (c :: cs) => if l.extra then [] else leafTokens c ++ leafTokensAll cs

def leafTokensAll : List Concrete → List Token
  | [] => []
  | c :: cs => leafTokens c ++ leafTokensAll cs

end

theorem leafTokens_as (c : Concrete) (role : Role) : (c.as role).leafTokens = c.leafTokens := by
  obtain ⟨l, cs⟩ := c
  cases cs <;> simp [as, label, children, leafTokens, leafToken]

mutual

theorem filterMap_token?_exposedNodes : ∀ c : Concrete, c.exposedNodes.filterMap token? = c.leafTokens
  | node l [] => by cases h : l.extra <;> simp [exposedNodes_node, token?, isTokenLeaf, label, children, leafTokens, h]
  | node l (c :: cs) => by
    have hfirst := filterMap_token?_exposedNodes c
    have hrest := filterMap_token?_flatMap cs
    cases h : l.extra <;>
      simp [exposedNodes_node, token?, isTokenLeaf, label, children, leafTokens, h, hfirst, hrest]

theorem filterMap_token?_flatMap : ∀ cs : List Concrete,
    (cs.flatMap exposedNodes).filterMap token? = leafTokensAll cs
  | [] => rfl
  | c :: cs => by
    rw [List.flatMap_cons, List.filterMap_append, filterMap_token?_exposedNodes c,
      filterMap_token?_flatMap cs, leafTokensAll]

end

end Concrete

namespace Cursor

/-- The nodes that the walk still comes to, the focus first. -/
def ahead (c : Cursor) : List Concrete :=
  c.focus.exposedNodes ++ (c.right ++ c.above.flatten).flatMap Concrete.exposedNodes

theorem ahead_onward (right : List Concrete) (above : List (List Concrete)) :
    ((onward? right above).map ahead).getD [] =
      (right ++ above.flatten).flatMap Concrete.exposedNodes := by
  fun_induction onward? right above with
  | case1 next right above => rfl
  | case2 => rfl
  | case3 right above ih => exact ih

/-- A move passes the focus and nothing else. -/
theorem ahead_eq (c : Cursor) : c.ahead = c.focus :: ((c.advance?).map ahead).getD [] := by
  obtain ⟨⟨l, cs⟩, right, above⟩ := c
  have hon := ahead_onward right above
  cases hextra : l.extra with
  | true =>
    have hadvance : advance? ⟨.node l cs, right, above⟩ = onward? right above := by
      simp [advance?, Concrete.label, hextra]
    rw [hadvance, hon, ahead, Concrete.exposedNodes_node, if_pos hextra]
    rfl
  | false =>
    have hopen : ¬ l.extra = true := by simp [hextra]
    cases cs with
    | nil =>
      have hadvance : advance? ⟨.node l [], right, above⟩ = onward? right above := by
        simp [advance?, Concrete.label, hextra, firstChild?]
      rw [hadvance, hon, ahead, Concrete.exposedNodes_node, if_neg hopen]
      rfl
    | cons child cs =>
      have hadvance : advance? ⟨.node l (child :: cs), right, above⟩ =
          some ⟨child, cs, right :: above⟩ := by
        simp [advance?, Concrete.label, hextra, firstChild?]
      rw [hadvance, ahead, Concrete.exposedNodes_node, if_neg hopen]
      simp [ahead]

/-- Where the walk is after some moves, if it has not ended before. -/
def after : Nat → Cursor → Option Cursor
  | 0, c => some c
  | n + 1, c => c.advance?.bind (after n)

/-- After each move the walk is at the next of the nodes ahead, and it ends when there are no more. -/
theorem focus_after (n : Nat) (c : Cursor) : (c.after n).map (·.focus) = c.ahead[n]? := by
  induction n generalizing c with
  | zero => rw [ahead_eq]; rfl
  | succ n ih =>
    rw [ahead_eq, List.getElem?_cons_succ, after]
    cases c.advance? with
    | none => rfl
    | some d => exact ih d

/-- The walk collects the tokens of the nodes it comes to. -/
theorem tokens_eq (c : Cursor) : c.tokens = c.ahead.filterMap Concrete.token? := by
  induction hn : c.remaining using Nat.strongRecOn generalizing c with
  | ind n ih =>
    have htoken : c.token? = c.focus.token? := rfl
    rw [tokens, ahead_eq, htoken]
    split
    · next hend => cases h : c.focus.token? <;> simp [hend, h]
    · next d hd =>
      have hrest := ih d.remaining (hn ▸ advance?_remaining hd) d rfl
      cases h : c.focus.token? <;> simp [hd, h, hrest]

end Cursor

namespace Concrete

theorem tokens_eq_filterMap (c : Concrete) : c.tokens = c.exposedNodes.filterMap token? := by
  rw [tokens, Cursor.tokens_eq, Cursor.ahead]
  simp

/-- The tokens of a tree are those of its leaves. -/
theorem tokens_eq (c : Concrete) : c.tokens = c.leafTokens := by
  rw [tokens_eq_filterMap, filterMap_token?_exposedNodes]

end Concrete

end CallChain.JavaScript
