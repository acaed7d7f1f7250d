import CallChain.Proofs.JavaScript.Gap
import CallChain.Proofs.JavaScript.Reading.Token
import CallChain.Proofs.JavaScript.Shapes

/-!
# Nodes that are read one behind the other

While a text is read, each node lies between the places before and behind it. Nodes that are read one after
the other make up a `Row`, and a construct over a row is sound and lies where the row lies. Constructs that
are looked into need more: each has a lemma that says of which children it is made.
-/
namespace CallChain.JavaScript

namespace Concrete

open Grammar

variable {lo lo' hi hi' mid : Nat} {c d : Concrete} {cs ds : List Concrete} {kind : String} {l : Label}
  {role : Role}

/-- The nodes are sound and lie one behind the other between two offsets. -/
def Lined (lo : Nat) : List Concrete → Nat → Prop
  | [], hi => lo ≤ hi
  | c :: cs, hi => lo ≤ c.span.start ∧ c.Throughout Sound ∧ Lined c.span.stop cs hi

theorem le_of_throughout (h : c.Throughout Sound) : c.span.start ≤ c.span.stop := h.here.inPlace.forward

theorem Lined.le (h : Lined lo cs hi) : lo ≤ hi := by
  induction cs generalizing lo with
  | nil => exact h
  | cons c cs ih =>
    obtain ⟨hstart, hsound, hrest⟩ := h
    exact hstart.trans ((le_of_throughout hsound).trans (ih hrest))

theorem Lined.mono (h : Lined lo cs hi) (hlo : lo' ≤ lo) (hhi : hi ≤ hi') : Lined lo' cs hi' := by
  induction cs generalizing lo lo' with
  | nil => exact hlo.trans (h.trans hhi)
  | cons c cs ih =>
    obtain ⟨hstart, hsound, hrest⟩ := h
    exact ⟨hlo.trans hstart, hsound, ih hrest (Nat.le_refl _)⟩

theorem Lined.append (h : Lined lo cs mid) (h' : Lined mid ds hi) : Lined lo (cs ++ ds) hi := by
  induction cs generalizing lo with
  | nil => exact h'.mono h (Nat.le_refl _)
  | cons c cs ih =>
    obtain ⟨hstart, hsound, hrest⟩ := h
    exact ⟨hstart, hsound, ih hrest⟩

theorem lined_append :
    Lined lo (cs ++ ds) hi ↔ ∃ mid, Lined lo cs mid ∧ Lined mid ds hi := by
  refine ⟨fun h => ?_, fun ⟨_, h, h'⟩ => h.append h'⟩
  induction cs generalizing lo with
  | nil => exact ⟨lo, Nat.le_refl _, h⟩
  | cons c cs ih =>
    obtain ⟨hstart, hsound, hrest⟩ := h
    obtain ⟨mid, hcs, hds⟩ := ih hrest
    exact ⟨mid, ⟨hstart, hsound, hcs⟩, hds⟩

theorem Lined.of_mem (h : Lined lo cs hi) (hc : c ∈ cs) :
    lo ≤ c.span.start ∧ c.span.stop ≤ hi ∧ c.Throughout Sound := by
  induction cs generalizing lo with
  | nil => cases hc
  | cons d cs ih =>
    obtain ⟨hstart, hsound, hrest⟩ := h
    rcases List.mem_cons.mp hc with rfl | hc
    · exact ⟨hstart, hrest.le, hsound⟩
    · obtain ⟨hlo, hhi, hc⟩ := ih hrest hc
      exact ⟨hstart.trans ((le_of_throughout hsound).trans hlo), hhi, hc⟩

theorem Lined.apart (h : Lined lo cs hi) : cs.Pairwise (·.span.Before ·.span) := by
  induction cs generalizing lo with
  | nil => exact .nil
  | cons c cs ih =>
    obtain ⟨-, -, hrest⟩ := h
    exact List.pairwise_cons.mpr ⟨fun d hd => (hrest.of_mem hd).1, ih hrest⟩

/-- The last node ends where the row may end. -/
theorem Lined.to_last (h : Lined lo cs hi) (hne : cs ≠ []) :
    Lined lo cs (cs.getLast hne).span.stop ∧ (cs.getLast hne).span.stop ≤ hi := by
  induction cs generalizing lo with
  | nil => exact absurd rfl hne
  | cons c cs ih =>
    obtain ⟨hstart, hsound, hrest⟩ := h
    cases cs with
    | nil => exact ⟨⟨hstart, hsound, Nat.le_refl _⟩, hrest⟩
    | cons d cs =>
      obtain ⟨hlast, hle⟩ := ih hrest (List.cons_ne_nil _ _)
      exact ⟨⟨hstart, hsound, hlast⟩, hle⟩

theorem Lined.to_head (h : Lined lo (c :: cs) hi) : Lined c.span.start (c :: cs) hi :=
  ⟨Nat.le_refl _, h.2⟩

theorem throughout_of_lined (h : Lined l.span.start cs l.span.stop)
    (hfields : (node l cs).FieldsInOrder) (hgrammar : (node l cs).FollowsGrammar) :
    (node l cs).Throughout Sound :=
  throughout_node.mpr ⟨⟨⟨h.le, fun _ hd => ⟨(h.of_mem hd).1, (h.of_mem hd).2.1⟩, h.apart⟩, hfields,
    hgrammar⟩, fun _ hd => (h.of_mem hd).2.2⟩

/-- The node is sound, lies between two offsets and has no role yet. -/
structure Placed (lo : Nat) (c : Concrete) (hi : Nat) : Prop where
  start : lo ≤ c.span.start
  stop : c.span.stop ≤ hi
  sound : c.Throughout Sound
  role : c.label.role = none

/-- Nodes without roles, one behind the other. -/
def Row (lo : Nat) (cs : List Concrete) (hi : Nat) : Prop :=
  Lined lo cs hi ∧ ∀ c ∈ cs, c.label.role = none

theorem Row.le (h : Row lo cs hi) : lo ≤ hi := h.1.le

grind_pattern Row.le => Row lo cs hi

theorem Placed.bounds (h : Placed lo c hi) :
    lo ≤ c.span.start ∧ c.span.start ≤ c.span.stop ∧ c.span.stop ≤ hi :=
  ⟨h.start, le_of_throughout h.sound, h.stop⟩

grind_pattern Placed.bounds => Placed lo c hi

theorem Placed.mono (h : Placed lo c hi) (hlo : lo' ≤ lo) (hhi : c.span.stop ≤ hi') :
    Placed lo' c hi' :=
  ⟨hlo.trans h.start, hhi, h.sound, h.role⟩

grind_pattern Placed.mono => Placed lo c hi, Placed lo' c hi'

@[grind =] theorem row_nil : Row lo [] hi ↔ lo ≤ hi :=
  ⟨fun h => h.1, fun h => ⟨h, fun _ hc => by cases hc⟩⟩

@[grind =] theorem row_cons :
    Row lo (c :: cs) hi ↔ Placed lo c c.span.stop ∧ Row c.span.stop cs hi := by
  constructor
  · rintro ⟨⟨hstart, hsound, hrest⟩, hrole⟩
    obtain ⟨hc, hcs⟩ := List.forall_mem_cons.mp hrole
    exact ⟨⟨hstart, Nat.le_refl _, hsound, hc⟩, hrest, hcs⟩
  · rintro ⟨hc, hrest, hcs⟩
    exact ⟨⟨hc.start, hc.sound, hrest⟩, List.forall_mem_cons.mpr ⟨hc.role, hcs⟩⟩

theorem Row.mono (h : Row lo cs hi) (hlo : lo' ≤ lo) (hhi : hi ≤ hi') : Row lo' cs hi' :=
  ⟨h.1.mono hlo hhi, h.2⟩

grind_pattern Row.mono => Row lo cs hi, Row lo' cs hi'

theorem Row.append (h : Row lo cs mid) (hlo : lo' ≤ lo) (h' : Row mid ds hi) :
    Row lo' (cs ++ ds) hi :=
  ⟨(h.1.append h'.1).mono hlo (Nat.le_refl _), List.forall_mem_append.mpr ⟨h.2, h'.2⟩⟩

grind_pattern Row.append => Row lo cs mid, Row lo' (cs ++ ds) hi

/-! ### Constructs and leaves -/

attribute [grind =] IsMark List.append_eq_nil_iff

/-- A construct or a named token other than `?.`. -/
@[grind =] def IsTree (c : Concrete) : Prop := c.isProper = true ∧ ¬ IsMark c.kind

instance : DecidablePred IsTree := fun c =>
  inferInstanceAs (Decidable (c.isProper = true ∧ ¬ IsMark c.kind))

/-- A name of leaves, which no construct goes by. -/
@[grind =] def IsLeafName (kind : String) : Prop :=
  kind ≠ "parenthesized_expression" ∧ kind ≠ "expression_statement" ∧ kind ≠ "else_clause" ∧
    kind ≠ "ternary_expression" ∧ kind ≠ "member_expression" ∧ kind ≠ "subscript_expression" ∧
    kind ≠ "call_expression" ∧ kind ≠ "if_statement"

/-- A name of constructs that may have any children. -/
@[grind =] def IsFreeName (kind : String) : Prop :=
  IsLeafName kind ∧ kind ≠ "optional_chain" ∧ kind ≠ "?." ∧ kind ≠ "identifier" ∧
    kind ≠ "property_identifier"

instance : DecidablePred IsLeafName := fun kind => by unfold IsLeafName; infer_instance

instance : DecidablePred IsFreeName := fun kind => by unfold IsFreeName; infer_instance

theorem rolesOf?_eq_none (h : IsLeafName kind) : rolesOf? kind = none := by
  obtain ⟨-, -, -, hternary, hmember, hsubscript, hcall, -⟩ := h
  unfold rolesOf?
  split <;> first | rfl | contradiction

/-- Nothing is asked of the children of a node with such a name. -/
theorem followsGrammar_of_isLeafName {s : Concrete} (hkind : IsLeafName s.kind)
    (hleaf : s.label.named = false ∨ IsMark s.kind ∨ s.kind = "identifier" ∨
      s.kind = "property_identifier" → s.children = []) : s.FollowsGrammar where
  leaf := hleaf
  single h := by
    simp only [List.mem_cons, List.not_mem_nil, or_false] at h
    obtain ⟨hparenthesis, hstatement, helse, -⟩ := hkind
    rcases h with h | h | h <;> contradiction
  fields roles h := by
    rw [rolesOf?_eq_none hkind] at h
    cases h
  branches h := absurd h hkind.2.2.2.2.2.2.2

/-- Only the roles that there are matter. -/
theorem fieldsInOrder_iff {s : Concrete} : s.FieldsInOrder ↔
    (s.children.filterMap (·.label.role)).Pairwise fun r r' => r ∉ r'.later := by
  rw [List.pairwise_filterMap]
  rfl

theorem filterMap_role_of_bare (h : ∀ c ∈ cs, c.label.role = none) :
    cs.filterMap (·.label.role) = [] :=
  List.filterMap_eq_nil_iff.mpr h

theorem fieldsInOrder_of_bare {l : Label} (h : ∀ c ∈ cs, c.label.role = none) :
    (node l cs).FieldsInOrder := by
  rw [fieldsInOrder_iff, children, filterMap_role_of_bare h]
  exact .nil

/-- A construct is placed where its children are. -/
theorem placed_construct_of_lined (h : Lined lo cs hi) (hne : cs ≠ [])
    (hfields : (construct kind cs).FieldsInOrder) (hgrammar : (construct kind cs).FollowsGrammar) :
    Placed lo (construct kind cs) hi := by
  obtain ⟨c, cs, rfl⟩ := List.exists_cons_of_ne_nil hne
  obtain ⟨hlast, hle⟩ := h.to_last hne
  have hspan : (construct kind (c :: cs)).span.start = c.span.start ∧
      (construct kind (c :: cs)).span.stop = ((c :: cs).getLast hne).span.stop := by
    simp [construct, span, label, List.getLast?_eq_some_getLast hne]
  refine ⟨hspan.1 ▸ h.1, hspan.2 ▸ hle, ?_, rfl⟩
  refine throughout_of_lined ?_ hfields hgrammar
  change Lined (construct kind (c :: cs)).span.start _ (construct kind (c :: cs)).span.stop
  rw [hspan.1, hspan.2]
  exact hlast.to_head

theorem placed_constructTo_of_lined {stop : Place} (h : Lined lo cs stop.offset) (hne : cs ≠ [])
    (hfields : (constructTo kind cs stop).FieldsInOrder)
    (hgrammar : (constructTo kind cs stop).FollowsGrammar) :
    Placed lo (constructTo kind cs stop) stop.offset := by
  obtain ⟨c, cs, rfl⟩ := List.exists_cons_of_ne_nil hne
  refine ⟨h.1, Nat.le_refl _, ?_, rfl⟩
  exact throughout_of_lined h.to_head hfields hgrammar

theorem followsGrammar_of_isFreeName {l : Label} (hkind : IsFreeName l.kind) (hnamed : l.named = true) :
    (node l cs).FollowsGrammar := by
  obtain ⟨hleaf, hmark, hmark', hname, hname'⟩ := hkind
  refine followsGrammar_of_isLeafName hleaf fun h => ?_
  rcases h with h | (h | h) | h | h
  · rw [label, hnamed] at h
    cases h
  all_goals contradiction

theorem placed_construct (hkind : IsFreeName kind) (hne : cs ≠ []) (h : Row lo cs hi) :
    Placed lo (construct kind cs) hi :=
  placed_construct_of_lined h.1 hne (fieldsInOrder_of_bare h.2) (followsGrammar_of_isFreeName hkind rfl)

theorem placed_constructTo {stop : Place} (hkind : IsFreeName kind) (hne : cs ≠ [])
    (h : Row lo cs stop.offset) : Placed lo (constructTo kind cs stop) stop.offset :=
  placed_constructTo_of_lined h.1 hne (fieldsInOrder_of_bare h.2) (followsGrammar_of_isFreeName hkind rfl)

grind_pattern placed_construct => Placed lo (construct kind cs) hi
grind_pattern placed_constructTo => Placed lo (constructTo kind cs stop) stop.offset

@[grind =] theorem isTree_construct :
    IsTree (construct kind cs) ↔ kind ≠ "optional_chain" ∧ kind ≠ "?." := by
  simp [IsTree, isProper, construct, Concrete.label, Concrete.kind, IsMark]

@[grind =] theorem isTree_constructTo {stop : Place} :
    IsTree (constructTo kind cs stop) ↔ kind ≠ "optional_chain" ∧ kind ≠ "?." := by
  simp [IsTree, isProper, constructTo, Concrete.label, Concrete.kind, IsMark]

theorem stop_construct :
    (construct kind cs).span.stop = (cs.getLast?.map fun c => c.span.stop).getD 0 := by
  cases h : cs.getLast? with
  | none => simp [construct, span, label, h, default, instInhabitedSpan.default]
  | some c => simp [construct, span, label, h]

/-- A leaf. -/
theorem placed_leaf {l : Label} (hkind : IsLeafName l.kind) (hlo : lo ≤ l.span.start)
    (hle : l.span.start ≤ l.span.stop) (hhi : l.span.stop ≤ hi) (hrole : l.role = none) :
    Placed lo (node l []) hi :=
  ⟨hlo, hhi, throughout_of_lined hle (fieldsInOrder_of_bare fun _ h => by cases h)
    (followsGrammar_of_isLeafName hkind fun _ => rfl), hrole⟩

theorem throughout_as : (c.as role).Throughout Sound ↔ c.Throughout Sound := by
  obtain ⟨l, cs⟩ := c
  have hsound : (node { l with role := some role } cs).Sound ↔ (node l cs).Sound := by
    constructor
    · rintro ⟨⟨hforward, hinside, hapart⟩, hfields, ⟨hleaf, hsingle, hroles, hbranches⟩⟩
      exact ⟨⟨hforward, hinside, hapart⟩, hfields, ⟨hleaf, hsingle, hroles, hbranches⟩⟩
    · rintro ⟨⟨hforward, hinside, hapart⟩, hfields, ⟨hleaf, hsingle, hroles, hbranches⟩⟩
      exact ⟨⟨hforward, hinside, hapart⟩, hfields, ⟨hleaf, hsingle, hroles, hbranches⟩⟩
  rw [as, throughout_node, throughout_node]
  exact and_congr_left' hsound

@[simp] theorem span_as : (c.as role).span = c.span := rfl

/-! ### Constructs that are looked into -/

/-- A construct that is made of its fields. -/
theorem followsGrammar_of_fields {roles : List Role} (hkind : rolesOf? kind = some roles)
    (h : (construct kind cs).fields? roles = some (construct kind cs).constructs) :
    (construct kind cs).FollowsGrammar := by
  have hname : kind = "ternary_expression" ∨ kind = "member_expression" ∨
      kind = "subscript_expression" ∨ kind = "call_expression" := by
    unfold rolesOf? at hkind
    split at hkind <;> simp_all
  refine ⟨fun h => ?_, fun h => ?_, fun roles' h' => ?_, fun h => ?_⟩
  · simp only [construct, label, Concrete.kind] at h
    rcases hname with rfl | rfl | rfl | rfl <;> simp at h
  · simp only [construct, label, Concrete.kind] at h
    rcases hname with rfl | rfl | rfl | rfl <;> simp at h
  · obtain rfl := Option.some.inj (hkind.symm.trans h')
    exact h
  · simp only [construct, label, Concrete.kind] at h
    rcases hname with rfl | rfl | rfl | rfl <;> simp at h

@[simp] theorem isTree_as : IsTree (c.as role) ↔ IsTree c := Iff.rfl

theorem constructs_construct (kind : String) (cs : List Concrete) :
    (construct kind cs).constructs = cs.filter fun c => IsTree c := by
  rw [constructs, proper, List.filter_filter]
  refine List.filter_congr fun c _ => ?_
  rw [Bool.and_comm]
  simp [IsTree]

theorem placed_member {left mark key : Concrete} (h : Row lo [left, mark, key] hi)
    (hleft : IsTree left) (hmark : ¬ IsTree mark) (hkey : IsTree key) :
    Placed lo (construct "member_expression" [left.as .object, mark, key.as .property]) hi := by
  have hrole : mark.label.role = none := h.2 mark (by simp)
  refine placed_construct_of_lined ?_ (List.cons_ne_nil _ _) ?_ (followsGrammar_of_fields rfl ?_)
  · simpa [Lined, throughout_as] using h.1
  · simp [fieldsInOrder_iff, construct, children, hrole, Role.later]
  · rw [constructs_construct]
    simp [fields?, field?, construct, children, hrole, hleft, hmark, hkey]

theorem filter_isTree_of_marks (h : ∀ c ∈ cs, ¬ IsTree c) : cs.filter (fun c => IsTree c) = [] :=
  List.filter_eq_nil_iff.mpr fun c hc => by simpa using h c hc

theorem find?_role_of_bare (h : ∀ c ∈ cs, c.label.role = none) (role : Role) :
    cs.find? (·.label.role == some role) = none :=
  List.find?_eq_none.mpr fun c hc => by simp [h c hc]

theorem placed_subscript {left opening index closing : Concrete} {marks : List Concrete}
    (h : Row lo (left :: marks ++ [opening, index, closing]) hi) (hleft : IsTree left)
    (hmarks : ∀ mark ∈ marks, ¬ IsTree mark) (hopening : ¬ IsTree opening) (hindex : IsTree index)
    (hclosing : ¬ IsTree closing) :
    Placed lo (construct "subscript_expression"
      (left.as .object :: marks ++ [opening, index.as .index, closing])) hi := by
  obtain ⟨-, hbare⟩ := List.forall_mem_cons.mp h.2
  obtain ⟨hbare, hrest⟩ := List.forall_mem_append.mp hbare
  have hrole : opening.label.role = none := hrest opening (by simp)
  have hrole' : closing.label.role = none := hrest closing (by simp)
  refine placed_construct_of_lined ?_ (List.cons_ne_nil _ _) ?_ (followsGrammar_of_fields rfl ?_)
  · simpa [Lined, lined_append, throughout_as] using h.1
  · simp [fieldsInOrder_iff, construct, children, filterMap_role_of_bare hbare, hrole, hrole', Role.later]
  · rw [constructs_construct]
    simp [fields?, field?, construct, children, List.find?_append, find?_role_of_bare hbare,
      filter_isTree_of_marks hmarks, hrole, hleft, hopening, hindex, hclosing]

theorem placed_call {callee arguments : Concrete} (marks : List Concrete)
    (h : Row lo (callee :: marks ++ [arguments]) hi) (hcallee : IsTree callee)
    (hmarks : ∀ mark ∈ marks, ¬ IsTree mark) (harguments : IsTree arguments) :
    Placed lo (construct "call_expression"
      (callee.as .function :: marks ++ [arguments.as .arguments])) hi := by
  obtain ⟨-, hbare⟩ := List.forall_mem_cons.mp h.2
  obtain ⟨hbare, -⟩ := List.forall_mem_append.mp hbare
  refine placed_construct_of_lined ?_ (List.cons_ne_nil _ _) ?_ (followsGrammar_of_fields rfl ?_)
  · simpa [Lined, lined_append, throughout_as] using h.1
  · simp [fieldsInOrder_iff, construct, children, filterMap_role_of_bare hbare, Role.later]
  · rw [constructs_construct]
    simp [fields?, field?, construct, children, List.find?_append, find?_role_of_bare hbare,
      filter_isTree_of_marks hmarks, hcallee, harguments]

theorem placed_ternary {test mark consequence colon alternative : Concrete}
    (h : Row lo [test, mark, consequence, colon, alternative] hi) (htest : IsTree test)
    (hmark : ¬ IsTree mark) (hconsequence : IsTree consequence) (hcolon : ¬ IsTree colon)
    (halternative : IsTree alternative) :
    Placed lo (construct "ternary_expression" [test.as .condition, mark, consequence.as .consequence,
      colon, alternative.as .alternative]) hi := by
  have hrole : mark.label.role = none := h.2 mark (by simp)
  have hrole' : colon.label.role = none := h.2 colon (by simp)
  refine placed_construct_of_lined ?_ (List.cons_ne_nil _ _) ?_ (followsGrammar_of_fields rfl ?_)
  · simpa [Lined, throughout_as] using h.1
  · simp [fieldsInOrder_iff, construct, children, hrole, hrole', Role.later]
  · rw [constructs_construct]
    simp [fields?, field?, construct, children, hrole, hrole', htest, hmark, hconsequence, hcolon,
      halternative]

/-- One construct among punctuation. -/
theorem followsGrammar_of_single {l : Label}
    (hkind : l.kind = "parenthesized_expression" ∨ l.kind = "expression_statement" ∨
      l.kind = "else_clause") (hnamed : l.named = true) (h : (cs.filter isProper).length = 1) :
    (node l cs).FollowsGrammar := by
  refine ⟨fun h => ?_, fun _ => h, fun roles h => ?_, fun h => ?_⟩ <;>
    simp only [label, Concrete.kind] at h <;> rcases hkind with hkind | hkind | hkind <;>
    simp [hkind, hnamed, rolesOf?] at h

theorem placed_parenthesized {opening inner closing : Concrete}
    (h : Row lo [opening, inner, closing] hi) (hopening : opening.isProper = false)
    (hinner : inner.isProper = true) (hclosing : closing.isProper = false) :
    Placed lo (construct "parenthesized_expression" [opening, inner, closing]) hi := by
  refine placed_construct_of_lined h.1 (List.cons_ne_nil _ _) (fieldsInOrder_of_bare h.2)
    (followsGrammar_of_single (by simp) rfl ?_)
  simp [hopening, hinner, hclosing]

theorem placed_expressionStatement {value : Concrete} {ending : List Concrete} {stop : Place}
    (h : Row lo (value :: ending) stop.offset) (hvalue : value.isProper = true)
    (hending : ∀ c ∈ ending, c.isProper = false) :
    Placed lo (constructTo "expression_statement" (value :: ending) stop) stop.offset := by
  refine placed_constructTo_of_lined h.1 (List.cons_ne_nil _ _) (fieldsInOrder_of_bare h.2)
    (followsGrammar_of_single (by simp) rfl ?_)
  have hnone : ending.filter isProper = [] :=
    List.filter_eq_nil_iff.mpr fun c hc => by simp [hending c hc]
  simp [hvalue, hnone]

theorem placed_elseClause {word body : Concrete} (h : Row lo [word, body] hi)
    (hword : word.isProper = false) (hbody : body.isProper = true) :
    Placed lo (construct "else_clause" [word, body]) hi := by
  refine placed_construct_of_lined h.1 (List.cons_ne_nil _ _) (fieldsInOrder_of_bare h.2)
    (followsGrammar_of_single (by simp) rfl ?_)
  simp [hword, hbody]

theorem followsGrammar_of_branches
    (h : ((construct "if_statement" cs).fields? [.condition, .consequence] =
        some (construct "if_statement" cs).constructs ∧
          (construct "if_statement" cs).field? .alternative = none) ∨
      ((construct "if_statement" cs).fields? [.condition, .consequence, .alternative] =
        some (construct "if_statement" cs).constructs ∧
          ∀ clause ∈ (construct "if_statement" cs).field? .alternative, clause.kind = "else_clause")) :
    (construct "if_statement" cs).FollowsGrammar := by
  refine ⟨fun h => ?_, fun h => ?_, fun roles h => ?_, fun _ => h⟩ <;>
    simp [construct, label, Concrete.kind, rolesOf?] at h

theorem placed_ifStatement {word condition consequence : Concrete}
    (h : Row lo [word, condition, consequence] hi) (hword : ¬ IsTree word)
    (hcondition : IsTree condition) (hconsequence : IsTree consequence) :
    Placed lo (construct "if_statement"
      [word, condition.as .condition, consequence.as .consequence]) hi := by
  have hrole : word.label.role = none := h.2 word (by simp)
  refine placed_construct_of_lined ?_ (List.cons_ne_nil _ _) ?_
    (followsGrammar_of_branches (Or.inl ⟨?_, ?_⟩))
  · simpa [Lined, throughout_as] using h.1
  · simp [fieldsInOrder_iff, construct, children, hrole, Role.later]
  · rw [constructs_construct]
    simp [fields?, field?, construct, children, hrole, hword, hcondition, hconsequence]
  · simp [field?, construct, children, hrole]

theorem placed_ifElseStatement {word condition consequence clause : Concrete}
    (h : Row lo [word, condition, consequence, clause] hi) (hword : ¬ IsTree word)
    (hcondition : IsTree condition) (hconsequence : IsTree consequence) (hclause : IsTree clause)
    (hkind : clause.kind = "else_clause") :
    Placed lo (construct "if_statement" [word, condition.as .condition, consequence.as .consequence,
      clause.as .alternative]) hi := by
  have hrole : word.label.role = none := h.2 word (by simp)
  refine placed_construct_of_lined ?_ (List.cons_ne_nil _ _) ?_
    (followsGrammar_of_branches (Or.inr ⟨?_, ?_⟩))
  · simpa [Lined, throughout_as] using h.1
  · simp [fieldsInOrder_iff, construct, children, hrole, Role.later]
  · rw [constructs_construct]
    simp [fields?, field?, construct, children, hrole, hword, hcondition, hconsequence, hclause]
  · simp [field?, construct, children, hrole, hkind]

/-- The arguments of a `new` are the only field in it. -/
theorem placed_newExpression {word built arguments : Concrete} (h : Row lo [word, built, arguments] hi) :
    Placed lo (construct "new_expression" [word, built, arguments.as .arguments]) hi := by
  have hrole : word.label.role = none := h.2 word (by simp)
  have hrole' : built.label.role = none := h.2 built (by simp)
  refine placed_construct_of_lined ?_ (List.cons_ne_nil _ _) ?_
    (followsGrammar_of_isFreeName (by simp [IsFreeName, IsLeafName]) rfl)
  · simpa [Lined, throughout_as] using h.1
  · simp [fieldsInOrder_iff, construct, children, hrole, hrole']

end Concrete

end CallChain.JavaScript
