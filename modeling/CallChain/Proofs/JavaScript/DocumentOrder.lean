import CallChain.Proofs.JavaScript.Reading.Placement.Program
import CallChain.Proofs.JavaScript.TrailingAllow

/-!
# Numbers go with places in the text

Where the spans of a concrete tree are in order and its fields stand as they do in a text, what a node takes
stands in order as well, although it may come from below a child. So the abstract tree is orderly, and the
numbers of its nodes go with their places in the text.
-/
namespace CallChain.JavaScript

open CallChain.Syntax

namespace Concrete

variable {text : List Char} {s c d e : Concrete} {ds : List Concrete} {roles : List Role}

/-- The ways in which a node takes others. -/
inductive Takes (s : Concrete) : List Concrete → Prop
  | nothing : Takes s []
  | proper : Takes s s.proper
  | first : Takes s s.proper.head?.toList
  | fields {roles : List Role} {ds : List Concrete} (hroles : roles.Pairwise fun r r' => r' ∈ r.later)
      (h : s.fields? roles = some ds) : Takes s ds
  | branches {ds : List Concrete} (h : s.fields? [.condition, .consequence] = some ds) :
      Takes s (ds ++ s.elseBranch?.toList)
  | call {callee arguments : Concrete} (hcallee : s.field? .function = some callee)
      (harguments : s.argumentList? = some arguments) : Takes s (callee :: arguments.proper)

theorem takes_getD {o : Option (List Concrete)} (h : ∀ ds, o = some ds → s.Takes ds) :
    s.Takes (o.getD s.proper) := by
  cases o with
  | none => exact .proper
  | some ds => exact h ds rfl

theorem takes_taken (s : Concrete) : s.Takes s.taken := by
  unfold taken
  split
  · exact .first
  · refine takes_getD fun ds h => ?_
    obtain ⟨es, hes, rfl⟩ := Option.map_eq_some_iff.mp h
    exact .branches hes
  · exact takes_getD fun ds => .fields (by decide)
  · exact takes_getD fun ds => .fields (by decide)
  · exact takes_getD fun ds => .fields (by decide)
  · refine takes_getD fun ds h => ?_
    obtain ⟨callee, hcallee, h⟩ := Option.bind_eq_some_iff.mp h
    obtain ⟨arguments, harguments, rfl⟩ := Option.map_eq_some_iff.mp h
    exact .call hcallee harguments
  · exact .nothing
  · exact .nothing
  · exact .proper

theorem exists_field?_of_mem (h : s.fields? roles = some ds) (hd : d ∈ ds) :
    ∃ r ∈ roles, s.field? r = some d := by
  induction fields?_eq_some_iff.mp h with
  | nil => cases hd
  | cons hfield hrest ih =>
    rcases List.mem_cons.mp hd with rfl | hd
    · exact ⟨_, List.mem_cons_self, hfield⟩
    · obtain ⟨r, hr, hd⟩ := ih (fields?_eq_some_iff.mpr hrest) hd
      exact ⟨r, List.mem_cons_of_mem _ hr, hd⟩

theorem within_of_takes (h : s.Takes ds) (hd : d ∈ ds) : d.Within s := by
  cases h with
  | nothing => cases hd
  | proper => exact within_of_mem_proper hd
  | first => exact within_of_mem_proper (List.mem_of_head? (Option.mem_toList.mp hd))
  | fields _ h =>
    obtain ⟨r, -, hfield⟩ := exists_field?_of_mem h hd
    exact within_of_mem_children (mem_of_field? hfield)
  | branches h =>
    rcases List.mem_append.mp hd with hd | hd
    · obtain ⟨r, -, hfield⟩ := exists_field?_of_mem h hd
      exact within_of_mem_children (mem_of_field? hfield)
    · obtain ⟨clause, hclause, hbranch⟩ := Option.bind_eq_some_iff.mp (Option.mem_toList.mp hd)
      exact (within_of_mem_proper (List.mem_of_head? hbranch)).trans
        (within_of_mem_children (mem_of_field? hclause))
  | call hcallee harguments =>
    rcases List.mem_cons.mp hd with rfl | hd
    · exact within_of_mem_children (mem_of_field? hcallee)
    · have hlist := (Option.filter_eq_some_iff.mp harguments).1
      exact (within_of_mem_proper hd).trans (within_of_mem_children (mem_of_field? hlist))

section Orderly

variable (hs : s.Orderly) (hfields : s.FieldsInOrder)
include hs

theorem pairwise_proper : s.proper.Pairwise (·.span.Before ·.span) := hs.here.apart.filter _

theorem inside_of_mem_proper (hd : d ∈ s.proper) : d.span.Inside s.span :=
  hs.inside (within_of_mem_proper hd)

include hfields

/-- Children in two roles stand one behind the other. -/
theorem before_of_later {r r' : Role} (hlater : r' ∈ r.later) (hd : s.field? r = some d)
    (he : s.field? r' = some e) : d.span.Before e.span := by
  let R (d e : Concrete) : Prop :=
    d.label.role = some r → e.label.role = some r' → d.span.Before e.span
  have hself : ∀ d ∈ s.children, R d d := by
    intro d _ hr hr'
    obtain rfl := Option.some.inj (hr.symm.trans hr')
    exact absurd hlater r.notMem_later
  have hforth : s.children.Pairwise R := hs.here.apart.imp fun hbefore _ _ => hbefore
  have hback : s.children.Pairwise (flip R) :=
    hfields.imp fun hnot hr hr' => absurd hlater (hnot r' hr' r hr)
  exact List.Pairwise.forall_of_forall_of_flip hself hforth hback (mem_of_field? hd) (mem_of_field? he)
    (role_of_field? hd) (role_of_field? he)

theorem pairwise_of_fields? (hroles : roles.Pairwise fun r r' => r' ∈ r.later)
    (h : s.fields? roles = some ds) : ds.Pairwise (·.span.Before ·.span) := by
  induction fields?_eq_some_iff.mp h with
  | nil => exact .nil
  | cons hfield hrest ih =>
    have hrest := fields?_eq_some_iff.mpr hrest
    obtain ⟨hlater, hroles⟩ := List.pairwise_cons.mp hroles
    refine List.pairwise_cons.mpr ⟨fun e he => ?_, ih hroles hrest⟩
    obtain ⟨r', hr', he⟩ := exists_field?_of_mem hrest he
    exact before_of_later hs hfields (hlater r' hr') hfield he

theorem pairwise_of_takes (h : s.Takes ds) : ds.Pairwise (·.span.Before ·.span) := by
  cases h with
  | nothing => exact .nil
  | proper => exact pairwise_proper hs
  | first =>
    cases s.proper.head? with
    | none => exact .nil
    | some d => exact List.pairwise_singleton _ d
  | fields hroles h => exact pairwise_of_fields? hs hfields hroles h
  | branches h =>
    refine List.pairwise_append.mpr ⟨pairwise_of_fields? hs hfields (by decide) h, ?_, ?_⟩
    · cases s.elseBranch? with
      | none => exact .nil
      | some d => exact List.pairwise_singleton _ d
    · intro d hd e he
      obtain ⟨r, hr, hd⟩ := exists_field?_of_mem h hd
      obtain ⟨clause, hclause, he⟩ := Option.bind_eq_some_iff.mp (Option.mem_toList.mp he)
      have hlater : Role.alternative ∈ r.later := by
        rcases List.mem_pair.mp hr with rfl | rfl <;> decide
      have horderly := hs.child (mem_of_field? hclause)
      exact (before_of_later hs hfields hlater hd hclause).of_inside (.refl _)
        (inside_of_mem_proper horderly (List.mem_of_head? he))
  | call hcallee harguments =>
    have hlist := (Option.filter_eq_some_iff.mp harguments).1
    have horderly := hs.child (mem_of_field? hlist)
    refine List.pairwise_cons.mpr ⟨fun e he => ?_, pairwise_proper horderly⟩
    exact (before_of_later hs hfields (by decide) hcallee hlist).of_inside (.refl _)
      (inside_of_mem_proper horderly he)

end Orderly

theorem span_abstract_inside (h : c.Orderly) : (c.abstract text).span.Inside c.span := by
  obtain ⟨s, hs, hkept, heq⟩ := exists_isKept text c
  rw [← heq, span_abstract hkept]
  exact h.inside hs

theorem inPlace_abstract (hkept : s.IsKept) (hs : s.Orderly) (hfields : s.FieldsInOrder) :
    (s.abstract text).InPlace := by
  have htaken := s.takes_taken
  have horderly : ∀ d ∈ s.taken, d.Orderly := fun d hd =>
    fun r hr => hs r (hr.trans (within_of_takes htaken hd))
  constructor
  · rw [span_abstract hkept]
    exact hs.here.forward
  · rw [children_abstract hkept, span_abstract hkept]
    intro t ht
    obtain ⟨d, hd, rfl⟩ := List.mem_map.mp ht
    exact (span_abstract_inside (horderly d hd)).trans (hs.inside (within_of_takes htaken hd))
  · rw [children_abstract hkept, List.pairwise_map]
    refine (pairwise_of_takes hs hfields htaken).imp_of_mem fun hd he hbefore => ?_
    exact hbefore.of_inside (span_abstract_inside (horderly _ hd)) (span_abstract_inside (horderly _ he))

theorem orderly_abstract (h : c.Orderly) (hfields : c.Throughout FieldsInOrder) :
    (c.abstract text).Orderly := by
  intro t ht
  obtain ⟨d, hd, rfl⟩ := exists_of_within ht
  obtain ⟨s, hs, hkept, heq⟩ := exists_isKept text d
  rw [← heq]
  have hwithin := hs.trans hd
  exact inPlace_abstract hkept (fun r hr => h r (hr.trans hwithin)) (hfields s hwithin)

/-- Let the spans of a concrete tree be in order and its fields stand as they do in a text. In its arena
nodes start in the order of their numbers, each node lies inside its parent, and a node lies behind all
nodes with smaller numbers that are not above it. Every tree that is read as a program is of this kind. -/
theorem toArena_in_document_order (c : Concrete) (text : List Char) :
    (c.Orderly → c.Throughout FieldsInOrder →
      let a := (c.abstract text).toArena c.tokens
      (∀ i j, i < j → j < a.size → (a.span i).start ≤ (a.span j).start) ∧
      (∀ i p, a.parent? i = some p → (a.span i).Inside (a.span p)) ∧
      (∀ i j, i < j → j < a.size → ¬ a.IsAbove i j → (a.span i).Before (a.span j))) ∧
    (Grammar.program text = .ok c → c.Orderly ∧ c.Throughout FieldsInOrder) := by
  constructor
  · intro h hfields a
    have ha : a.IsOf (c.abstract text) := Tree.toArena_isOf _ _
    have ht : (c.abstract text).Orderly := orderly_abstract h hfields
    exact ⟨fun _ _ => ha.start_le ht, fun _ _ => ha.inside_parent ht, fun _ _ => ha.before ht⟩
  · intro hprogram
    have hsound := sound_of_program hprogram
    exact ⟨fun s hs => (hsound s hs).inPlace, fun s hs => (hsound s hs).fieldsInOrder⟩

/-- Branches, a conditional, accesses and a call, with parentheses and an argument list among them. -/
def branchedCalls : String := "if (a) b.c(d, e[f]); else g ? h : (i);"

theorem toArena_in_document_order_branchedCalls :
    let c := treeOf branchedCalls
    let a := (c.abstract branchedCalls.toList).toArena c.tokens
    c.Orderly ∧ c.Throughout FieldsInOrder ∧ a.size = 17 ∧
      ∀ i j, i < j → j < a.size → (a.span i).start ≤ (a.span j).start := by
  intro c a
  have horderly : c.Orderly := by decide +kernel
  have hfields : c.Throughout FieldsInOrder := by decide +kernel
  refine ⟨horderly, hfields, by decide +kernel, ?_⟩
  exact ((toArena_in_document_order c branchedCalls.toList).1 horderly hfields).1

end Concrete

end CallChain.JavaScript
