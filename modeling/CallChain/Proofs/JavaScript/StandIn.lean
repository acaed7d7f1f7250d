import CallChain.Proofs.JavaScript.Abstraction
import CallChain.Proofs.Syntax.Matching

/-!
# Nodes that stand for each other

Of a child the abstract tree asks for the tree made of it, for its role, and whether it is a construct or
a `?.`; only into an argument list and an `else` clause does it look further. Nodes that are alike in
this stand for each other: below nodes with matching labels they give matching trees.
-/
namespace CallChain.JavaScript

open CallChain.Syntax

variable {R : Span → Span → Prop} {text text' : List Char}

/-- Labels that differ at most in their spans. Names are the same words in both texts. -/
structure Label.Matches (R : Span → Span → Prop) (text text' : List Char) (l l' : Label) : Prop where
  kind : l.kind = l'.kind
  named : l.named = l'.named
  extra : l.extra = l'.extra
  role : l.role = l'.role
  span : R l.span l'.span
  name : l.kind ∈ ["identifier", "property_identifier"] →
    Text.slice? l.span.start l.span.stop text = Text.slice? l'.span.start l'.span.stop text'

instance [DecidableRel R] (l l' : Label) : Decidable (l.Matches R text text' l') :=
  decidable_of_iff (l.kind = l'.kind ∧ l.named = l'.named ∧ l.extra = l'.extra ∧ l.role = l'.role ∧
      R l.span l'.span ∧ (l.kind ∈ ["identifier", "property_identifier"] →
        Text.slice? l.span.start l.span.stop text = Text.slice? l'.span.start l'.span.stop text'))
    ⟨fun ⟨hkind, hnamed, hextra, hrole, hspan, hname⟩ => ⟨hkind, hnamed, hextra, hrole, hspan, hname⟩,
      fun h => ⟨h.kind, h.named, h.extra, h.role, h.span, h.name⟩⟩

namespace Part

/-- The second node can take the place of the first below another node. What is below them matters only
if they are no parentheses. -/
structure StandsFor (R : Span → Span → Prop) (p q : Part) : Prop where
  tree : p.tree.Matches R q.tree
  role : p.label.role = q.label.role
  isProper : p.isProper = q.isProper
  mark : IsMark p.label.kind ↔ IsMark q.label.kind
  kind : p.label.kind ≠ "parenthesized_expression" → p.label.kind = q.label.kind
  below : p.label.kind ≠ "parenthesized_expression" →
    List.Forall₂ (Tree.Matches R) (trees p.children) (trees q.children)

theorem head?_proper_rel {ps qs : List Part}
    (h : List.Forall₂ (Tree.Matches R) (trees ps) (trees qs)) :
    Option.Rel (fun p q => p.tree.Matches R q.tree) (proper ps).head? (proper qs).head? := by
  rw [trees, trees, List.forall₂_map_left_iff, List.forall₂_map_right_iff] at h
  generalize proper ps = ps, proper qs = qs at h
  cases h with
  | nil => exact .none
  | cons hfirst _ => exact .some hfirst

section Congruence

variable {l l' : Label} {ps qs : List Part} (h : List.Forall₂ (StandsFor R) ps qs)
include h

theorem trees_match : List.Forall₂ (Tree.Matches R) (trees ps) (trees qs) := by
  induction h with
  | nil => exact .nil
  | cons hp _ ih =>
    simp only [trees, proper, List.filter_cons, hp.isProper] at ih ⊢
    split
    · exact .cons hp.tree ih
    · exact ih

theorem isOptional_eq : isOptional ps = isOptional qs := by
  rw [Bool.eq_iff_iff]
  simp only [isOptional, List.any_eq_true, Bool.or_eq_true, beq_iff_eq]
  change (∃ p ∈ ps, IsMark p.label.kind) ↔ ∃ q ∈ qs, IsMark q.label.kind
  induction h with
  | nil => simp
  | cons hp _ ih => simp only [List.exists_mem_cons_iff, hp.mark, ih]

theorem withRole?_rel (role : Role) :
    Option.Rel (StandsFor R) (withRole? role ps) (withRole? role qs) := by
  induction h with
  | nil => exact .none
  | cons hp _ ih =>
    simp only [withRole?, List.find?_cons, hp.role] at ih ⊢
    split
    · exact .some hp
    · exact ih

variable (hspan : R l.span l'.span) (hkind : l.kind = l'.kind)
include hspan hkind

theorem asOther_matches : (asOther l ps).Matches R (asOther l' qs) := by
  rw [asOther, asOther, hkind]
  exact .other hspan (trees_match h)

theorem memberTree_matches (computed : Bool) (name : Role) :
    (memberTree l ps computed name).Matches R (memberTree l' qs computed name) := by
  have hother := asOther_matches h hspan hkind
  have hobject := withRole?_rel h .object
  have hlast := withRole?_rel h name
  unfold memberTree
  rw [isOptional_eq h]
  generalize withRole? .object ps = object, withRole? .object qs = object' at hobject ⊢
  generalize withRole? name ps = last, withRole? name qs = last' at hlast ⊢
  cases hobject with
  | none => exact hother
  | some hobject =>
    cases hlast with
    | none => exact hother
    | some hlast => exact .member hspan hobject.tree hlast.tree

theorem conditionalTree_matches : (conditionalTree l ps).Matches R (conditionalTree l' qs) := by
  have hother := asOther_matches h hspan hkind
  have htest := withRole?_rel h .condition
  have hconsequent := withRole?_rel h .consequence
  have halternate := withRole?_rel h .alternative
  unfold conditionalTree
  generalize withRole? .condition ps = test, withRole? .condition qs = test' at htest ⊢
  generalize withRole? .consequence ps = consequent, withRole? .consequence qs = consequent'
    at hconsequent ⊢
  generalize withRole? .alternative ps = alternate, withRole? .alternative qs = alternate'
    at halternate ⊢
  cases htest with
  | none => exact hother
  | some htest =>
    cases hconsequent with
    | none => exact hother
    | some hconsequent =>
      cases halternate with
      | none => exact hother
      | some halternate => exact .conditional hspan htest.tree hconsequent.tree halternate.tree

/-- An argument list is looked into, so it must not be in parentheses. -/
theorem callTree_matches
    (hlist : ∀ p, withRole? .arguments ps = some p → p.label.kind ≠ "parenthesized_expression") :
    (callTree l ps).Matches R (callTree l' qs) := by
  have hother := asOther_matches h hspan hkind
  have hcallee := withRole?_rel h .function
  have harguments := withRole?_rel h .arguments
  unfold callTree
  rw [isOptional_eq h]
  generalize withRole? .function ps = callee, withRole? .function qs = callee' at hcallee ⊢
  generalize withRole? .arguments ps = arguments, withRole? .arguments qs = arguments'
    at hlist harguments ⊢
  cases hcallee with
  | none => exact hother
  | some hcallee =>
    cases harguments with
    | none => exact hother
    | @some p q harguments =>
      have hbare := hlist p rfl
      rw [Option.filter_some, Option.filter_some, harguments.kind hbare]
      by_cases hlabel : q.label.kind == "arguments"
      · rw [if_pos hlabel, if_pos hlabel]
        exact .call hspan hcallee.tree (harguments.below hbare)
      · rw [if_neg hlabel, if_neg hlabel]
        exact hother

/-- So is an `else` clause. -/
theorem ifTree_matches
    (hclause : ∀ p, withRole? .alternative ps = some p → p.label.kind ≠ "parenthesized_expression") :
    (ifTree l ps).Matches R (ifTree l' qs) := by
  have hother := asOther_matches h hspan hkind
  have htest := withRole?_rel h .condition
  have hconsequent := withRole?_rel h .consequence
  have halternate := withRole?_rel h .alternative
  unfold ifTree
  generalize withRole? .condition ps = test, withRole? .condition qs = test' at htest ⊢
  generalize withRole? .consequence ps = consequent, withRole? .consequence qs = consequent'
    at hconsequent ⊢
  generalize withRole? .alternative ps = alternate, withRole? .alternative qs = alternate'
    at hclause halternate ⊢
  cases htest with
  | none => exact hother
  | some htest =>
    cases hconsequent with
    | none => exact hother
    | some hconsequent =>
      refine .ifStatement hspan htest.tree hconsequent.tree ?_
      cases halternate with
      | none => exact .none
      | @some p q hpq =>
        have hfirst := head?_proper_rel (hpq.below (hclause p rfl))
        rw [Option.bind_some, Option.bind_some]
        generalize (proper p.children).head? = first, (proper q.children).head? = first' at hfirst ⊢
        cases hfirst with
        | none => exact .none
        | some hfirst => exact .some hfirst

end Congruence

/-- The tree of a node depends only on what its children have in common with their stand-ins. -/
theorem shape_matches {l l' : Label} {ps qs : List Part} (h : List.Forall₂ (StandsFor R) ps qs)
    (hlabel : l.Matches R text text' l')
    (hlist : l.kind = "call_expression" → ∀ p, withRole? .arguments ps = some p →
      p.label.kind ≠ "parenthesized_expression")
    (hclause : l.kind = "if_statement" → ∀ p, withRole? .alternative ps = some p →
      p.label.kind ≠ "parenthesized_expression") :
    (shape text l ps).Matches R (shape text' l' qs) := by
  have hother := asOther_matches h hlabel.span hlabel.kind
  have hfirst := head?_proper_rel (trees_match h)
  unfold shape
  rw [← hlabel.kind]
  generalize (proper ps).head? = first, (proper qs).head? = first' at hfirst ⊢
  split
  · exact .program hlabel.span (trees_match h)
  · cases hfirst with
    | none => exact hother
    | some hfirst => exact hfirst
  · cases hfirst with
    | none => exact hother
    | some hfirst => exact .expressionStatement hlabel.span hfirst
  · next hkind => exact ifTree_matches h hlabel.span hlabel.kind (hclause hkind)
  · exact conditionalTree_matches h hlabel.span hlabel.kind
  · exact memberTree_matches h hlabel.span hlabel.kind false .property
  · exact memberTree_matches h hlabel.span hlabel.kind true .index
  · next hkind => exact callTree_matches h hlabel.span hlabel.kind (hlist hkind)
  · next hkind =>
    rw [hlabel.name (by simp [hkind])]
    exact .identifier hlabel.span
  · next hkind =>
    rw [hlabel.name (by simp [hkind])]
    exact .identifier hlabel.span
  · exact hother

end Part

end CallChain.JavaScript
