import CallChain.Proofs.JavaScript.Reading.Placement.Program
import CallChain.Proofs.JavaScript.TrailingAllow
import CallChain.Proofs.Syntax.Numbering

/-!
# No access and no call is lost

In a tree with the shapes of the grammar, what a node does not take holds no access and no call: it is
punctuation, a `?.`, a comment, or the frame of an argument list or an `else` clause, whose content is
taken. So the accesses of the arena are those of the concrete tree, one by one and in the same order, and
so are the calls with an argument list.
-/
namespace CallChain.JavaScript.Concrete

open CallChain.Syntax

/-- A member access. -/
def isAccess (s : Concrete) : Bool :=
  !s.label.extra && (s.kind == "member_expression" || s.kind == "subscript_expression")

/-- A call with an argument list. -/
def isListCall (s : Concrete) : Bool :=
  !s.label.extra && s.kind == "call_expression" && s.argumentList?.isSome

/-- The nodes of some sort that are not inside a comment, each before those inside it. -/
def picked (keep : Concrete → Bool) (c : Concrete) : List Concrete := c.exposedNodes.filter keep

/-- Nodes of one sort have trees of one sort, and they are made of their fields. -/
structure Corresponds (text : List Char) (keep : Concrete → Bool) (test : Tree → Bool) : Prop where
  kind : ∀ {s : Concrete}, keep s = true → s.label.extra = false ∧ (rolesOf? s.kind).isSome = true
  node : ∀ {s : Concrete}, s.IsKept → s.FollowsGrammar → s.label.extra = false →
    test (s.abstract text) = keep s

section Picked

variable {text : List Char} {keep : Concrete → Bool} {test : Tree → Bool} {s d : Concrete}

theorem picked_of_open (h : s.label.extra = false) :
    s.picked keep = (if keep s then [s] else []) ++ s.children.flatMap (picked keep) := by
  obtain ⟨l, cs⟩ := s
  have hopen : ¬ l.extra = true := Bool.eq_false_iff.mp h
  rw [picked, exposedNodes_node, if_neg hopen, List.filter_cons, List.filter_flatMap]
  split <;> rfl

theorem roles_ne_nil {kind : String} {roles : List Role} (h : rolesOf? kind = some roles) :
    roles ≠ [] := by
  unfold rolesOf? at h
  split at h <;> cases h <;> exact List.cons_ne_nil _ _

theorem sizeOf_lt_of_mem_children (h : d ∈ s.children) : sizeOf d < sizeOf s := by
  obtain ⟨l, cs⟩ := s
  have hlt := List.sizeOf_lt_of_mem h
  simp only [children, node.sizeOf_spec] at hlt ⊢
  omega

theorem flatMap_filter_of_nil {α β : Type} {f : α → List β} {p : α → Bool} {xs : List α}
    (h : ∀ x ∈ xs, p x = false → f x = []) : (xs.filter p).flatMap f = xs.flatMap f := by
  induction xs with
  | nil => rfl
  | cons x xs ih =>
    obtain ⟨hx, hxs⟩ := List.forall_mem_cons.mp h
    cases hp : p x with
    | true => rw [List.filter_cons_of_pos hp, List.flatMap_cons, List.flatMap_cons, ih hxs]
    | false =>
      have hnot : ¬ p x = true := Bool.eq_false_iff.mp hp
      rw [List.filter_cons_of_neg hnot, List.flatMap_cons, hx hp, List.nil_append, ih hxs]

variable (hk : Corresponds text keep test)
include hk

theorem picked_of_leaf (hs : s.FollowsGrammar) (hleaf : s.children = []) : s.picked keep = [] := by
  have hnot : keep s = false := by
    refine Bool.eq_false_iff.mpr fun hkeep => ?_
    obtain ⟨roles, hroles⟩ := Option.isSome_iff_exists.mp (hk.kind hkeep).2
    have hfields := hs.fields roles hroles
    rw [constructs, proper, hleaf] at hfields
    exact roles_ne_nil hroles (List.forall₂_nil_right_iff.mp (fields?_eq_some_iff.mp hfields))
  obtain ⟨l, cs⟩ := s
  obtain rfl : cs = [] := hleaf
  rw [picked, exposedNodes_node]
  split <;> simp [hnot]

theorem picked_of_extra (h : s.label.extra = true) : s.picked keep = [] := by
  have hnot : keep s = false := by
    refine Bool.eq_false_iff.mpr fun hkeep => ?_
    rw [(hk.kind hkeep).1] at h
    cases h
  obtain ⟨l, cs⟩ := s
  have hextra : l.extra = true := h
  rw [picked, exposedNodes_node, if_pos hextra]
  simp [hnot]

theorem flatMap_proper (hcs : ∀ d ∈ s.children, d.FollowsGrammar) :
    s.proper.flatMap (picked keep) = s.children.flatMap (picked keep) := by
  refine flatMap_filter_of_nil fun d hd hnot => ?_
  cases hextra : d.label.extra with
  | true => exact picked_of_extra hk hextra
  | false =>
    have hnamed : d.label.named = false := by simpa [isProper, hextra] using hnot
    exact picked_of_leaf hk (hcs d hd) ((hcs d hd).leaf (Or.inl hnamed))

theorem flatMap_constructs (hcs : ∀ d ∈ s.children, d.FollowsGrammar) :
    s.constructs.flatMap (picked keep) = s.children.flatMap (picked keep) := by
  rw [← flatMap_proper hk hcs]
  refine flatMap_filter_of_nil fun d hd hmark => ?_
  have hs := hcs d (List.mem_of_mem_filter hd)
  exact picked_of_leaf hk hs (hs.leaf (Or.inr (Or.inl (not_not.mp (of_decide_eq_false hmark)))))

/-- A frame holds what its content holds. -/
theorem picked_of_frame (hopen : s.label.extra = false) (hframe : rolesOf? s.kind = none)
    (hcs : ∀ d ∈ s.children, d.FollowsGrammar) :
    s.picked keep = s.proper.flatMap (picked keep) := by
  have hnot : ¬ keep s = true := fun hkeep => by
    have hsome := (hk.kind hkeep).2
    rw [hframe] at hsome
    cases hsome
  rw [picked_of_open hopen, if_neg hnot, List.nil_append, flatMap_proper hk hcs]

end Picked

section Taken

variable {text : List Char} {keep : Concrete → Bool} {test : Tree → Bool} {s d : Concrete}

theorem toList_head?_of_length {α : Type} {xs : List α} (h : xs.length = 1) : xs.head?.toList = xs := by
  obtain ⟨x, rfl⟩ := List.length_eq_one_iff.mp h
  rfl

theorem exists_of_fields?_pair {r r' : Role} {ds : List Concrete} (h : s.fields? [r, r'] = some ds) :
    ∃ d e, s.field? r = some d ∧ s.field? r' = some e ∧ ds = [d, e] := by
  simp only [fields?_eq_some_iff, List.forall₂_cons_left_iff, List.forall₂_nil_left_iff] at h
  grind

theorem exists_of_fields?_triple {r r' r'' : Role} {ds : List Concrete}
    (h : s.fields? [r, r', r''] = some ds) :
    ∃ d e f, s.field? r = some d ∧ s.field? r' = some e ∧ s.field? r'' = some f ∧ ds = [d, e, f] := by
  simp only [fields?_eq_some_iff, List.forall₂_cons_left_iff, List.forall₂_nil_left_iff] at h
  grind

/-- A node takes its proper children or its constructs; an `if` statement and a call take the content of
the last of them. -/
theorem taken_cases (hs : s.FollowsGrammar) (hcs : ∀ d ∈ s.children, d.FollowsGrammar) :
    s.taken = s.proper ∨ s.taken = s.constructs ∨ ∃ front frame, s.constructs = front ++ [frame] ∧
      (frame.kind = "else_clause" ∨ frame.kind = "arguments") ∧ s.taken = front ++ frame.proper := by
  unfold taken
  split
  · next hkind =>
    exact Or.inl (toList_head?_of_length (hs.single (by simp [hkind])))
  · next hkind =>
    right
    rcases hs.branches hkind with ⟨hfields, hnone⟩ | ⟨hfields, hclause⟩
    · left
      simp [hfields, elseBranch?, hnone]
    · right
      obtain ⟨test, consequent, clause, htest, hconsequent, hfound, hconstructs⟩ :=
        exists_of_fields?_triple hfields
      have hclause := hclause clause hfound
      have hbranches : s.fields? [.condition, .consequence] = some [test, consequent] :=
        fields?_eq_some_iff.mpr (.cons htest (.cons hconsequent .nil))
      have hsingle := (hcs clause (mem_of_field? hfound)).single (by simp [hclause])
      refine ⟨[test, consequent], clause, hconstructs, Or.inl hclause, ?_⟩
      rw [hbranches, elseBranch?, hfound, Option.bind_some, toList_head?_of_length hsingle]
      rfl
  · next hkind => exact Or.inr (Or.inl (by rw [hs.fields _ (by rw [hkind]; rfl)]; rfl))
  · next hkind => exact Or.inr (Or.inl (by rw [hs.fields _ (by rw [hkind]; rfl)]; rfl))
  · next hkind => exact Or.inr (Or.inl (by rw [hs.fields _ (by rw [hkind]; rfl)]; rfl))
  · next hkind =>
    obtain ⟨callee, arguments, hcallee, harguments, hconstructs⟩ :=
      exists_of_fields?_pair (hs.fields _ (by rw [hkind]; rfl))
    rw [hcallee, argumentList?, harguments, Option.bind_some, Option.filter_some]
    by_cases hlist : arguments.kind = "arguments"
    · refine Or.inr (Or.inr ⟨[callee], arguments, hconstructs, Or.inr hlist, ?_⟩)
      simp [hlist]
    · left
      simp [hlist]
  · next hkind => exact Or.inl (by simp [proper, hs.leaf (by simp [hkind])])
  · next hkind => exact Or.inl (by simp [proper, hs.leaf (by simp [hkind])])
  · exact Or.inl rfl

theorem isProper_of_mem_constructs (h : d ∈ s.constructs) : d.isProper = true :=
  (List.mem_filter.mp (List.mem_of_mem_filter h)).2

theorem mem_children_of_mem_constructs (h : d ∈ s.constructs) : d ∈ s.children :=
  List.mem_of_mem_filter (List.mem_of_mem_filter h)

theorem open_of_isProper (h : d.isProper = true) : d.label.extra = false := by
  simpa using (Bool.and_eq_true_iff.mp h).2

/-- What is taken is proper, and it is a child or a child of a child. -/
theorem of_mem_taken (h : s.Throughout FollowsGrammar) (hd : d ∈ s.taken) :
    d.label.extra = false ∧ d.Throughout FollowsGrammar ∧ sizeOf d < sizeOf s := by
  have hcs : ∀ d ∈ s.children, d.FollowsGrammar := fun d hd => (h.child hd).here
  have hchild : ∀ {d}, d ∈ s.children → d.isProper = true →
      d.label.extra = false ∧ d.Throughout FollowsGrammar ∧ sizeOf d < sizeOf s := fun hmem hproper =>
    ⟨open_of_isProper hproper, h.child hmem, sizeOf_lt_of_mem_children hmem⟩
  rcases taken_cases h.here hcs with htaken | htaken | ⟨front, frame, hconstructs, -, htaken⟩
  · rw [htaken] at hd
    exact hchild (List.mem_of_mem_filter hd) (List.mem_filter.mp hd).2
  · rw [htaken] at hd
    exact hchild (mem_children_of_mem_constructs hd) (isProper_of_mem_constructs hd)
  · rw [htaken] at hd
    rcases List.mem_append.mp hd with hd | hd
    · have hmem : d ∈ s.constructs := by
        rw [hconstructs]
        exact List.mem_append_left _ hd
      exact hchild (mem_children_of_mem_constructs hmem) (isProper_of_mem_constructs hmem)
    · have hmem : frame ∈ s.constructs := by simp [hconstructs]
      have hframe := mem_children_of_mem_constructs hmem
      have hd' := List.mem_filter.mp hd
      refine ⟨open_of_isProper hd'.2, (h.child hframe).child hd'.1, ?_⟩
      exact (sizeOf_lt_of_mem_children hd'.1).trans (sizeOf_lt_of_mem_children hframe)

/-- Nothing is lost between what a node takes and its children. -/
theorem flatMap_taken (hk : Corresponds text keep test) (h : s.Throughout FollowsGrammar) :
    s.taken.flatMap (picked keep) = s.children.flatMap (picked keep) := by
  have hcs : ∀ d ∈ s.children, d.FollowsGrammar := fun d hd => (h.child hd).here
  rcases taken_cases h.here hcs with htaken | htaken | ⟨front, frame, hconstructs, hkind, htaken⟩
  · rw [htaken, flatMap_proper hk hcs]
  · rw [htaken, flatMap_constructs hk hcs]
  · have hmem : frame ∈ s.constructs := by simp [hconstructs]
    have hframe := h.child (mem_children_of_mem_constructs hmem)
    have hopen := open_of_isProper (isProper_of_mem_constructs hmem)
    have hnone : rolesOf? frame.kind = none := by rcases hkind with hkind | hkind <;> rw [hkind] <;> rfl
    have hpicked := picked_of_frame hk hopen hnone fun d hd => (hframe.child hd).here
    rw [htaken, ← flatMap_constructs hk hcs, hconstructs, List.flatMap_append, List.flatMap_append,
      List.flatMap_singleton, hpicked]

/-- The trees of one sort in the abstract tree are those of the nodes of this sort, in the same order. -/
theorem filter_preorder_abstract (hk : Corresponds text keep test) (c : Concrete)
    (h : c.Throughout FollowsGrammar) (hopen : c.label.extra = false) :
    (c.abstract text).preorder.filter test = (c.picked keep).map (·.abstract text) := by
  induction hn : sizeOf c using Nat.strongRecOn generalizing c with
  | ind n ih =>
    subst hn
    by_cases hkind : c.kind = "parenthesized_expression"
    · -- parentheses hold one construct, which stands for them
      obtain ⟨inner, hinner⟩ := List.length_eq_one_iff.mp (h.here.single (by simp [hkind]))
      have hmem : inner ∈ c.proper := by simp [hinner]
      obtain ⟨hchild, hproper⟩ := List.mem_filter.mp hmem
      have hnone : rolesOf? c.kind = none := by rw [hkind]; rfl
      rw [abstract_of_head? hkind (by rw [hinner]; rfl),
        ih _ (sizeOf_lt_of_mem_children hchild) inner (h.child hchild) (open_of_isProper hproper) rfl,
        picked_of_frame hk hopen hnone fun d hd => (h.child hd).here, hinner, List.flatMap_singleton]
    · have hkept : c.IsKept := fun hparenthesis => absurd hparenthesis hkind
      have hbelow : ∀ d ∈ c.taken,
          (d.abstract text).preorder.filter test = (d.picked keep).map (·.abstract text) := fun d hd => by
        obtain ⟨hopen, hd, hlt⟩ := of_mem_taken h hd
        exact ih _ hlt d hd hopen rfl
      rw [Tree.preorder_eq, children_abstract hkept, List.filter_cons, hk.node hkept h.here hopen,
        List.flatMap_map, List.filter_flatMap, List.flatMap_congr hbelow, ← List.map_flatMap,
        flatMap_taken hk h, picked_of_open hopen]
      split <;> rfl

end Taken

section Sorts

variable {text : List Char} {s : Concrete}

/-- The role of what is accessed. -/
def nameRole (s : Concrete) : Role := if s.kind = "subscript_expression" then .index else .property

theorem isAccess_iff : s.isAccess = true ↔ s.label.extra = false ∧
    (s.kind = "member_expression" ∨ s.kind = "subscript_expression") := by
  simp [isAccess]

theorem isListCall_iff : s.isListCall = true ↔ s.label.extra = false ∧ s.kind = "call_expression" ∧
    ∃ arguments, s.argumentList? = some arguments := by
  simp [isListCall, Option.isSome_iff_exists, and_assoc]

/-- Both kinds of access are read in one way. -/
theorem access_eq (text : List Char) (h : s.kind = "member_expression" ∨ s.kind = "subscript_expression") :
    rolesOf? s.kind = some [.object, s.nameRole] ∧ s.abstract text =
      Part.memberTree s.label (partAll text s.children) (s.kind == "subscript_expression")
        s.nameRole := by
  rw [abstract_eq_shape, Part.shape, nameRole]
  rw [kind] at h ⊢
  rcases h with hkind | hkind <;> simp [hkind, rolesOf?]

theorem exists_of_isAccess (text : List Char) (hs : s.FollowsGrammar) (h : s.isAccess = true) :
    ∃ object last, s.field? .object = some object ∧ s.field? s.nameRole = some last ∧
      s.abstract text = .member s.span (object.abstract text) (last.abstract text)
        (s.kind == "subscript_expression") s.hasMark := by
  obtain ⟨hroles, htree⟩ := access_eq text (isAccess_iff.mp h).2
  obtain ⟨object, last, hobject, hlast, -⟩ := exists_of_fields?_pair (hs.fields _ hroles)
  refine ⟨object, last, hobject, hlast, ?_⟩
  rw [htree, Part.memberTree, withRole?_partAll, withRole?_partAll, hobject, hlast,
    isOptional_partAll]
  rfl

theorem call_eq (h : s.kind = "call_expression") :
    s.abstract text = Part.callTree s.label (partAll text s.children) := by
  rw [abstract_eq_shape, Part.shape]
  rw [kind] at h
  simp only [h]

theorem exists_of_isListCall (text : List Char) (hs : s.FollowsGrammar) (h : s.isListCall = true) :
    ∃ callee arguments, s.field? .function = some callee ∧ s.argumentList? = some arguments ∧
      s.abstract text = .call s.span (callee.abstract text) (arguments.proper.map (·.abstract text))
        s.hasMark := by
  obtain ⟨-, hkind, arguments, harguments⟩ := isListCall_iff.mp h
  obtain ⟨callee, -, hcallee, -⟩ := exists_of_fields?_pair (hs.fields _ (by rw [hkind]; rfl))
  refine ⟨callee, arguments, hcallee, harguments, ?_⟩
  rw [call_eq hkind, Part.callTree, argumentList?_partAll, withRole?_partAll, hcallee, harguments,
    isOptional_partAll]
  simp only [Option.map_some, children_part, trees_partAll]
  rfl

theorem isAccess_of_isMember (hkept : s.IsKept) (hopen : s.label.extra = false)
    (h : (s.abstract text).isMember = true) : s.isAccess = true := by
  have hmade : Part.Made s.label (partAll text s.children) (s.abstract text) := made_abstract hkept
  generalize s.abstract text = t at h hmade
  cases t with
  | member _ _ _ computed =>
    have hkind := (hmade.kind (show [0, 0].length = 2 from rfl)).name
    refine isAccess_iff.mpr ⟨hopen, ?_⟩
    cases computed with
    | true => exact Or.inr (List.mem_singleton.mp hkind)
    | false => exact Or.inl (List.mem_singleton.mp hkind)
  | _ => cases h

theorem isListCall_of_isCall (hkept : s.IsKept) (hopen : s.label.extra = false)
    (h : (s.abstract text).isCall = true) : s.isListCall = true := by
  have hmade : Part.Made s.label (partAll text s.children) (s.abstract text) := made_abstract hkept
  have hkind : s.kind = "call_expression" := by
    generalize s.abstract text = t at h hmade
    cases t with
    | call _ _ arguments =>
      have hlength : (0 :: arguments.map fun _ => 0).length = arguments.length + 1 := by simp
      exact List.mem_singleton.mp (hmade.kind hlength).name
    | _ => cases h
  refine isListCall_iff.mpr ⟨hopen, hkind, Option.ne_none_iff_exists'.mp fun hnone => ?_⟩
  rw [call_eq hkind, Part.callTree, argumentList?_partAll, hnone] at h
  cases hcallee : Part.withRole? .function (partAll text s.children) <;>
    simp [hcallee, Part.asOther, Tree.isCall] at h

theorem corresponds_isAccess (text : List Char) : Corresponds text isAccess Tree.isMember where
  kind h := by
    obtain ⟨hopen, hkind⟩ := isAccess_iff.mp h
    exact ⟨hopen, by rcases hkind with hkind | hkind <;> rw [hkind] <;> rfl⟩
  node hkept hs hopen := by
    refine Bool.eq_iff_iff.mpr ⟨isAccess_of_isMember hkept hopen, fun h => ?_⟩
    obtain ⟨object, last, -, -, htree⟩ := exists_of_isAccess text hs h
    rw [htree]
    rfl

theorem corresponds_isListCall (text : List Char) : Corresponds text isListCall Tree.isCall where
  kind h := by
    obtain ⟨hopen, hkind, -⟩ := isListCall_iff.mp h
    exact ⟨hopen, by rw [hkind]; rfl⟩
  node hkept hs hopen := by
    refine Bool.eq_iff_iff.mpr ⟨isListCall_of_isCall hkept hopen, fun h => ?_⟩
    obtain ⟨callee, arguments, -, -, htree⟩ := exists_of_isListCall text hs h
    rw [htree]
    rfl

end Sorts

/-- The node under the number is the access: it has its span, it is computed where that is by index, and
it refers to the trees of the object and of what is accessed. -/
def IsAccessOf (a : Arena) (text : List Char) (i : NodeId) (s : Concrete) : Prop :=
  a.span i = s.span ∧ ∃ object last o l, s.field? .object = some object ∧
    s.field? s.nameRole = some last ∧
    a.kind? i = some (.member o l (s.kind == "subscript_expression") s.hasMark) ∧
    a.Shows o (object.abstract text) ∧ a.Shows l (last.abstract text)

/-- The node under the number is the call: it has its span, and it refers to the trees of what is called
and of the arguments, in the order in which they stand in their list. -/
def IsCallOf (a : Arena) (text : List Char) (i : NodeId) (s : Concrete) : Prop :=
  a.span i = s.span ∧ ∃ callee arguments f ids, s.field? .function = some callee ∧
    s.argumentList? = some arguments ∧ a.kind? i = some (.call f ids s.hasMark) ∧
    a.Shows f (callee.abstract text) ∧
    List.Forall₂ (fun id d => a.Shows id (d.abstract text)) ids arguments.proper

section Numbers

variable {a : Arena} {text : List Char} {c s : Concrete} {i : NodeId}

theorem isAccessOf_of_shows (hs : s.FollowsGrammar) (h : s.isAccess = true)
    (hshows : a.Shows i (s.abstract text)) : IsAccessOf a text i s := by
  obtain ⟨object, last, hobject, hlast, htree⟩ := exists_of_isAccess text hs h
  rw [htree] at hshows
  obtain ⟨hspan, ids, hkind, hids⟩ := hshows.kind?
  obtain ⟨o, _, ho, hrest, rfl⟩ := List.forall₂_cons_right_iff.mp hids
  obtain ⟨l, _, hl, hnil, rfl⟩ := List.forall₂_cons_right_iff.mp hrest
  obtain rfl := List.forall₂_nil_right_iff.mp hnil
  exact ⟨hspan, object, last, o, l, hobject, hlast, hkind, ho, hl⟩

theorem isCallOf_of_shows (hs : s.FollowsGrammar) (h : s.isListCall = true)
    (hshows : a.Shows i (s.abstract text)) : IsCallOf a text i s := by
  obtain ⟨callee, arguments, hcallee, harguments, htree⟩ := exists_of_isListCall text hs h
  rw [htree] at hshows
  obtain ⟨hspan, ids, hkind, hids⟩ := hshows.kind?
  obtain ⟨f, ids, hf, hrest, rfl⟩ := List.forall₂_cons_right_iff.mp hids
  exact ⟨hspan, callee, arguments, f, ids, hcallee, harguments, hkind, hf,
    List.forall₂_map_right_iff.mp hrest⟩

/-- What goes one by one with the trees of one sort goes one by one with the addresses of the nodes. -/
theorem exists_enumerates_of_corresponds {keep : Concrete → Bool} {test : Tree → Bool}
    {R : NodeId → Concrete → Prop} {ids : List NodeId} (hk : Corresponds text keep test)
    (hopen : c.label.extra = false) (h : c.Throughout FollowsGrammar)
    (hids : List.Forall₂ a.Shows ids ((c.abstract text).preorder.filter test))
    (hR : ∀ {i s}, s.FollowsGrammar → keep s = true → a.Shows i (s.abstract text) → R i s) :
    ∃ ps, c.Enumerates (fun s => keep s = true) ps ∧
      List.Forall₂ (fun i p => ∃ s, c.at? p = some s ∧ R i s) ids ps := by
  rw [filter_preorder_abstract hk c h hopen, List.forall₂_map_right_iff] at hids
  have hnodes : List.Forall₂ R ids (c.exposedNodes.filter keep) :=
    forall₂_imp_of_mem hids fun i s hs hshows => by
      obtain ⟨hs, hkeep⟩ := List.mem_filter.mp hs
      exact hR (h s (within_of_mem_exposedNodes hs)) hkeep hshows
  obtain ⟨ps, hps, hrel⟩ := exists_enumerates hnodes
  refine ⟨ps, hps, hrel.imp fun i p hp => ?_⟩
  obtain ⟨s, hexposes, hs⟩ := hp
  exact ⟨s, hexposes.at?_eq, hs⟩

end Numbers

/-- In a tree with the shapes of the grammar no access and no call is lost or made up: the member nodes of
the arena are the accesses outside comments, one by one and in the order of their addresses, and its call
nodes are the calls with an argument list. Every tree that is read as a program has these shapes. -/
theorem members_and_calls_correspond (c : Concrete) (text : List Char) :
    (c.label.extra = false → c.Throughout FollowsGrammar →
      let a := (c.abstract text).toArena c.tokens
      (∃ ps, c.Enumerates (fun s => s.isAccess = true) ps ∧
        List.Forall₂ (fun i p => ∃ s, c.at? p = some s ∧ IsAccessOf a text i s) a.members ps) ∧
      (∃ ps, c.Enumerates (fun s => s.isListCall = true) ps ∧
        List.Forall₂ (fun i p => ∃ s, c.at? p = some s ∧ IsCallOf a text i s) a.calls ps)) ∧
    (Grammar.program text = .ok c → c.label.extra = false ∧ c.Throughout FollowsGrammar) := by
  constructor
  · intro hopen h a
    have ha : a.IsOf (c.abstract text) := Tree.toArena_isOf _ _
    exact ⟨exists_enumerates_of_corresponds (corresponds_isAccess text) hopen h ha.forall₂_members
        isAccessOf_of_shows,
      exists_enumerates_of_corresponds (corresponds_isListCall text) hopen h ha.forall₂_calls
        isCallOf_of_shows⟩
  · intro hprogram
    exact ⟨extra_of_program hprogram, fun s hs => (sound_of_program hprogram s hs).followsGrammar⟩

/-- Accesses and calls in the places that are looked into: behind `?.`, in an index, among arguments, in
parentheses, behind `else`, in a template, and as its tag. -/
def scatteredAccesses : String := "if (a?.b) c.d(e, f[g.h]); else (i)`$\x7bj.k()\x7d` ? (l.m) : n;"

theorem members_and_calls_correspond_scatteredAccesses :
    let c := treeOf scatteredAccesses
    let a := (c.abstract scatteredAccesses.toList).toArena c.tokens
    c.label.extra = false ∧ c.Throughout FollowsGrammar ∧ a.members.length = 6 ∧ a.calls.length = 2 ∧
      ∃ ps, c.Enumerates (fun s => s.isListCall = true) ps ∧
        List.Forall₂ (fun i p => ∃ s, c.at? p = some s ∧ IsCallOf a scatteredAccesses.toList i s)
          a.calls ps := by
  intro c a
  have hopen : c.label.extra = false := by decide +kernel
  have hshapes : c.Throughout FollowsGrammar := by decide +kernel
  refine ⟨hopen, hshapes, by decide +kernel, by decide +kernel, ?_⟩
  exact ((members_and_calls_correspond c scatteredAccesses.toList).1 hopen hshapes).2

end CallChain.JavaScript.Concrete
