import CallChain.JavaScript.Concrete

/-!
The tokens of a concrete tree, collected by a cursor that walks it from the root: down to the first
child, else on to the next sibling, else up until there is one. It does not go below a comment.
-/
namespace CallChain.JavaScript

open CallChain.Syntax (Token)

/-- A place in a tree: the node, the siblings behind it, and the siblings behind each ancestor, from the
parent up. -/
structure Cursor where
  focus : Concrete
  right : List Concrete
  above : List (List Concrete)

namespace Cursor

def firstChild? (c : Cursor) : Option Cursor :=
  match c.focus with
  | .node _ [] => none
  | .node _ (child :: children) =>
    some { focus := child, right := children, above := c.right :: c.above }

/-- The next sibling of the focus or of the nearest ancestor that has one. -/
def onward? : List Concrete → List (List Concrete) → Option Cursor
  | next :: right, above => some { focus := next, right, above }
  | [], [] => none
  | [], right :: above => onward? right above

/-- Where the walk goes from here. -/
def advance? (c : Cursor) : Option Cursor :=
  if c.focus.label.extra then onward? c.right c.above
  else (c.firstChild?).or (onward? c.right c.above)

/-- Nodes to the right of the ancestors. -/
def sizeAbove : List (List Concrete) → Nat
  | [] => 0
  | right :: above => Concrete.sizeAll right + sizeAbove above

/-- Nodes that are not yet passed. -/
def remaining (c : Cursor) : Nat :=
  c.focus.size + Concrete.sizeAll c.right + sizeAbove c.above

/-- The token at the focus: a leaf that is no comment. `?.` goes by its text. -/
def token? (c : Cursor) : Option Token :=
  let l := c.focus.label
  if c.focus.children.isEmpty && !l.extra then
    some { kind := if l.kind = "optional_chain" then "?." else l.kind, span := l.span }
  else none

theorem onward?_remaining {right : List Concrete} {above : List (List Concrete)} {c : Cursor}
    (h : onward? right above = some c) :
    c.remaining ≤ Concrete.sizeAll right + sizeAbove above := by
  fun_induction onward? right above with
  | case1 next right above =>
    obtain rfl := Option.some.inj h
    simp [remaining, Concrete.sizeAll]
  | case2 => simp at h
  | case3 right above ih => simpa [Concrete.sizeAll, sizeAbove] using ih h

theorem advance?_remaining {c d : Cursor} (h : c.advance? = some d) :
    d.remaining < c.remaining := by
  have pos : 0 < c.focus.size := by
    cases c.focus
    simp only [Concrete.size]
    omega
  have on : ∀ {e}, onward? c.right c.above = some e → e.remaining < c.remaining := fun he => by
    have := onward?_remaining he
    simp only [remaining] at this ⊢
    omega
  unfold advance? at h
  split at h
  · exact on h
  · rcases Option.or_eq_some_iff.mp h with hd | ⟨_, ho⟩
    · unfold firstChild? at hd
      split at hd
      · simp at hd
      · rename_i l child children hf
        obtain rfl := Option.some.inj hd
        simp [remaining, hf, Concrete.size, Concrete.sizeAll, sizeAbove]
        omega
    · exact on ho

/-- The tokens from the focus to the end of the tree. -/
def tokens (c : Cursor) : List Token :=
  match _h : c.advance? with
  | none => c.token?.toList
  | some d => c.token?.toList ++ d.tokens
  termination_by c.remaining
  decreasing_by exact advance?_remaining (by assumption)

end Cursor

/-- The tokens of a tree, in the order in which the cursor meets them. -/
def Concrete.tokens (c : Concrete) : List Token :=
  Cursor.tokens { focus := c, right := [], above := [] }

end CallChain.JavaScript
