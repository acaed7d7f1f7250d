import CallChain.Chain.Finding
import CallChain.Proofs.Chain.Operator
import CallChain.Proofs.Chain.Spine
import CallChain.Proofs.JavaScript.ChainAbstract
import CallChain.Proofs.Syntax.Layout

/-!
# The arena of a chain

In the table of nodes that a chain is read to, each link takes two numbers, for its call and for the access
that is called, before those of the links in front of it. So both walks along the chain can be followed
from any link, and the accesses of the table are the links.
-/
namespace CallChain.JavaScript

open CallChain.Syntax Grammar Chain

/-- The arena that a chain is read to. -/
def chainArena (glue base : List Char) (names : List (List Char)) : Arena :=
  (programTree glue base names).toArena (chainTokens glue base names)

theorem read_chain {glue base : List Char} {names : List (List Char)}
    (hglue : ∀ c ∈ glue, isSpace c = true) (hbase : isIdentifier base = true)
    (hword : String.ofList base ∉ keywords) (hnames : ∀ m ∈ names, isIdentifier m = true) :
    read (String.ofList (chain glue base names.reverse)) = .ok (chainArena glue base names.reverse) := by
  rw [read, String.toList_ofList]
  simp only [program_chain hglue hbase hword hnames, abstract_programNode, tokens_programNode]
  rfl

/-- A link that stands in a table of nodes: a call, the access that it calls, and the name. -/
structure HoldsLink (nodes : Array Node) (glue base name : List Char) (earlier : List (List Char))
    (parent : Option Nat) (i property : Nat) : Prop where
  call : nodes[i]? = some ⟨.call (i + 1) [] false, spanOf [] (chain glue base (name :: earlier)), parent⟩
  access : nodes[i + 1]? = some ⟨.member (i + 2) property false false,
    spanOf [] (chain glue base earlier ++ glue ++ ['.'] ++ name), some i⟩
  property : nodes[property]? = some ⟨.identifier (String.ofList name),
    spanOf (chain glue base earlier ++ glue ++ ['.']) name, some (i + 1)⟩

variable {nodes : Array Node} {glue base name : List Char} {names earlier : List (List Char)}
  {parent : Option Nat} {i stop : Nat}

theorem holdsAt_link (h : HoldsAt nodes parent i (chainTree glue base (name :: earlier)) stop) :
    ∃ property, stop = property + 1 ∧ HoldsLink nodes glue base name earlier parent i property ∧
      HoldsAt nodes (some (i + 1)) (i + 2) (chainTree glue base earlier) property := by
  rcases h with ⟨hcall, hcallee⟩
  rcases hcallee with _ | ⟨hmember, hnone⟩
  cases hnone
  rcases hmember with ⟨hmember, hchildren⟩
  rcases hchildren with _ | ⟨hobject, hproperty⟩
  rcases hproperty with _ | ⟨hproperty, hnone⟩
  cases hnone
  rcases hproperty with ⟨hproperty, hnone⟩
  cases hnone
  exact ⟨_, rfl, ⟨hcall, hmember, hproperty⟩, hobject⟩

/-- The chain of the first links stands inside that of all of them; each link takes two numbers before
it. -/
theorem holdsAt_earlier {p : Nat} {later : List (List Char)}
    (h : HoldsAt nodes (some p) (p + 1) (chainTree glue base (later ++ earlier)) stop) :
    ∃ last, HoldsAt nodes (some (p + 2 * later.length)) (p + 2 * later.length + 1)
      (chainTree glue base earlier) last := by
  induction later generalizing p stop with
  | nil => exact ⟨stop, h⟩
  | cons name later ih =>
    obtain ⟨property, -, -, hinner⟩ := holdsAt_link h
    obtain ⟨last, hlast⟩ := ih hinner
    refine ⟨last, ?_⟩
    rw [List.length_cons, show p + 2 * (later.length + 1) = p + 1 + 1 + 2 * later.length by omega]
    exact hlast

/-- The base of a chain has no children, and is neither a call nor an access. -/
theorem isLeaf_operandTree (base : List Char) (ids : List Nat) :
    (operandTree base).children = [] ∧ ((operandTree base).kindWith ids).isCall = false ∧
      ((operandTree base).kindWith ids).isMember = false := by
  rw [operandTree]
  split <;> exact ⟨rfl, rfl, rfl⟩

theorem span_chainTree (glue base : List Char) (names : List (List Char)) :
    (chainTree glue base names).span = spanOf [] (chain glue base names) := by
  cases names with
  | nil =>
    change (operandTree base).span = spanOf [] base
    rw [operandTree]
    split <;> rfl
  | cons name earlier => rfl

/-- The arena has a statement for its second node, which is a chain. -/
structure HoldsChain (a : Arena) (glue base : List Char) (names : List (List Char)) : Prop where
  root : a.kind? 0 = some (.program [1])
  statement : a.kind? 1 = some (.expressionStatement 2)
  tree : HoldsAt a.nodes (some 1) 2 (chainTree glue base names) a.size

theorem chainArena_holds (glue base : List Char) (names : List (List Char)) :
    HoldsChain (chainArena glue base names) glue base names := by
  have hholds : HoldsAt (chainArena glue base names).nodes none 0 (programTree glue base names)
      (chainArena glue base names).size := (Tree.toArena_isOf _ _).holds
  generalize chainArena glue base names = a at hholds
  generalize hsize : a.size = size at hholds
  rcases hholds with ⟨hroot, hbody⟩
  rcases hbody with _ | ⟨hstatement, hnone⟩
  cases hnone
  rcases hstatement with ⟨hstatement, hexpression⟩
  rcases hexpression with _ | ⟨hchain, hnone⟩
  cases hnone
  exact ⟨Arena.kind?_of_getElem? hroot, Arena.kind?_of_getElem? hstatement, hsize ▸ hchain⟩

namespace HoldsLink

variable {a : Arena} {property : Nat} (h : HoldsLink a.nodes glue base name earlier parent i property)
include h

theorem kind?_call : a.kind? i = some (.call (i + 1) [] false) := Arena.kind?_of_getElem? h.call

theorem kind?_access : a.kind? (i + 1) = some (.member (i + 2) property false false) :=
  Arena.kind?_of_getElem? h.access

theorem span_property : a.span property = spanOf (chain glue base earlier ++ glue ++ ['.']) name :=
  Arena.span_of_getElem? h.property

theorem calledBy : CalledBy a (i + 1) i where
  access := by
    refine ⟨_, _, _, h.kind?_access, ?_⟩
    rw [Arena.isIdentifier, Arena.kind?_of_getElem? h.property]
    rfl
  parent := Arena.parent?_of_getElem? h.access
  callee := ⟨_, _, h.kind?_call⟩

theorem methodCall?_eq : methodCall? a (i + 1) = some i := methodCall?_eq_some_iff.mpr h.calledBy

theorem memberObject?_eq : memberObject? a (i + 1) = some (i + 2) :=
  memberObject?_eq_some_iff.mpr ⟨_, _, _, h.kind?_access⟩

theorem parent?_call : a.parent? i = parent := Arena.parent?_of_getElem? h.call

end HoldsLink

namespace HoldsChain

variable {a : Arena} {later : List (List Char)}

theorem exists_link (h : HoldsChain a glue base (later ++ name :: earlier)) :
    ∃ property, HoldsLink a.nodes glue base name earlier (some (2 * later.length + 1))
      (2 * later.length + 2) property := by
  obtain ⟨last, hinner⟩ := holdsAt_earlier h.tree
  rw [Nat.add_comm 1] at hinner
  obtain ⟨property, -, hlink, -⟩ := holdsAt_link hinner
  exact ⟨property, hlink⟩

theorem methodCall?_link (h : HoldsChain a glue base (later ++ name :: earlier)) :
    methodCall? a (2 * later.length + 3) = some (2 * later.length + 2) := by
  obtain ⟨property, hlink⟩ := h.exists_link
  exact hlink.methodCall?_eq

theorem memberObject?_link (h : HoldsChain a glue base (later ++ name :: earlier)) :
    memberObject? a (2 * later.length + 3) = some (2 * later.length + 4) := by
  obtain ⟨property, hlink⟩ := h.exists_link
  exact hlink.memberObject?_eq

/-- What the links of `later` are called on. -/
theorem exists_object (h : HoldsChain a glue base (later ++ earlier)) :
    ∃ ids, a.nodes[2 * later.length + 2]? = some ⟨(chainTree glue base earlier).kindWith ids,
      (chainTree glue base earlier).span, some (2 * later.length + 1)⟩ := by
  obtain ⟨last, hinner⟩ := holdsAt_earlier h.tree
  rw [Nat.add_comm 1] at hinner
  rcases hinner with ⟨hnode, -⟩
  exact ⟨_, hnode⟩

theorem span_object (h : HoldsChain a glue base (later ++ earlier)) :
    a.span (2 * later.length + 2) = spanOf [] (chain glue base earlier) := by
  obtain ⟨ids, hnode⟩ := h.exists_object
  rw [Arena.span_of_getElem? hnode]
  exact span_chainTree glue base earlier

theorem callee?_base (h : HoldsChain a glue base names) : callee? a (2 * names.length + 2) = none := by
  rw [← List.append_nil names] at h
  obtain ⟨ids, hnode⟩ := h.exists_object
  rw [Option.eq_none_iff_forall_ne_some]
  intro callee hcallee
  obtain ⟨arguments, optional, hcall⟩ := callee?_eq_some_iff.mp hcallee
  rw [Arena.kind?_of_getElem? hnode] at hcall
  have htrue : NodeKind.isCall _ = true := congrArg NodeKind.isCall (Option.some.inj hcall)
  exact absurd (htrue.symm.trans (isLeaf_operandTree base _).2.1) (by decide)

theorem callsAbove_of_next {m call next n : Nat} (hcall : methodCall? a m = some call)
    (hparent : a.parent? call = some next) (hobject : memberObject? a next = some call) :
    callsAbove a (n + 1) m = call :: callsAbove a n next := by
  rw [callsAbove, hcall]
  simp [hparent, hobject, Option.filter]

theorem callsAbove_of_top {m call next n : Nat} (hcall : methodCall? a m = some call)
    (hparent : a.parent? call = some next) (hobject : memberObject? a next = none) :
    callsAbove a (n + 1) m = [call] := by
  rw [callsAbove, hcall]
  simp [hparent, hobject, Option.filter]

/-- The walk up meets the calls of the link and of those behind it, and ends at the whole chain. -/
theorem callsAbove_link (h : HoldsChain a glue base (later ++ name :: earlier)) {fuel : Nat}
    (hfuel : later.length < fuel) :
    (callsAbove a fuel (2 * later.length + 3)).length = later.length + 1 ∧
      (callsAbove a fuel (2 * later.length + 3)).getLast? = some 2 := by
  induction later using List.reverseRecOn generalizing name earlier fuel with
  | nil =>
    obtain ⟨n, rfl⟩ := Nat.exists_eq_add_one.mpr hfuel
    obtain ⟨property, hlink⟩ := h.exists_link
    have hnone : memberObject? a 1 = none := by rw [memberObject?, h.statement]
    have hcalls : callsAbove a (n + 1) 3 = [2] :=
      callsAbove_of_top hlink.methodCall?_eq hlink.parent?_call hnone
    exact ⟨congrArg List.length hcalls, congrArg List.getLast? hcalls⟩
  | append_singleton later next ih =>
    obtain ⟨n, rfl⟩ := Nat.exists_eq_add_one.mpr (Nat.zero_lt_of_lt hfuel)
    obtain ⟨property, hlink⟩ := h.exists_link
    rw [List.append_assoc, List.singleton_append] at h
    obtain ⟨property', hnext⟩ := h.exists_link
    rw [List.length_append, List.length_singleton] at hfuel hlink ⊢
    obtain ⟨hlength, hlast⟩ := ih h (Nat.lt_of_succ_lt_succ hfuel)
    have hcalls : callsAbove a (n + 1) (2 * (later.length + 1) + 3) =
        (2 * (later.length + 1) + 2) :: callsAbove a n (2 * later.length + 3) :=
      callsAbove_of_next hlink.methodCall?_eq hlink.parent?_call hnext.memberObject?_eq
    rw [hcalls, List.length_cons, hlength, List.getLast?_cons, hlast]
    exact ⟨rfl, rfl⟩

/-- The walk down meets the links before this one. -/
theorem length_linksBelow_link (h : HoldsChain a glue base (later ++ name :: earlier)) {fuel : Nat}
    (hfuel : earlier.length < fuel) :
    (linksBelow a fuel (2 * later.length + 3)).length = earlier.length := by
  induction earlier generalizing later name fuel with
  | nil =>
    obtain ⟨n, rfl⟩ := Nat.exists_eq_add_one.mpr hfuel
    have hbase : callee? a (2 * later.length + 4) = none := by
      have hnone := h.callee?_base
      rwa [List.length_append, List.length_singleton] at hnone
    rw [linksBelow, h.methodCall?_link, h.memberObject?_link]
    simp [hbase]
  | cons before earlier ih =>
    obtain ⟨n, rfl⟩ := Nat.exists_eq_add_one.mpr (Nat.zero_lt_of_lt hfuel)
    have hinner : HoldsChain a glue base ((later ++ [name]) ++ before :: earlier) := by
      rwa [List.append_assoc, List.singleton_append]
    obtain ⟨property', hbefore⟩ := hinner.exists_link
    have hbelow := ih hinner (Nat.lt_of_succ_lt_succ hfuel)
    rw [List.length_append, List.length_singleton] at hbefore hbelow
    have hcallee : callee? a (2 * later.length + 4) = some (2 * later.length + 5) :=
      callee?_eq_some_iff.mpr ⟨_, _, hbefore.kind?_call⟩
    rw [linksBelow, h.methodCall?_link, h.memberObject?_link]
    simp only [Option.isNone_some, Bool.false_eq_true, if_false, Option.bind_some, hcallee,
      List.length_cons]
    exact congrArg (· + 1) hbelow

theorem lt_size (h : HoldsChain a glue base names) : 2 * names.length + 2 < a.size := by
  rw [← List.append_nil names] at h
  obtain ⟨ids, hnode⟩ := h.exists_object
  exact (Array.getElem?_eq_some_iff.mp hnode).1

/-- All links of a chain have as many calls as there are links, and the same outermost call. -/
theorem depth_link (h : HoldsChain a glue base (later ++ name :: earlier)) :
    depth a (2 * later.length + 3) = ((later ++ name :: earlier).length, 2) := by
  have hsize := h.lt_size
  rw [List.length_append, List.length_cons] at hsize
  obtain ⟨hlength, hlast⟩ := h.callsAbove_link (show later.length < a.size by omega)
  have hbelow := h.length_linksBelow_link (show earlier.length < a.size by omega)
  rw [depth, methodsAfter, methodsBefore, hlength, hlast, hbelow, List.length_append, List.length_cons]
  simp only [Option.getD_some, Prod.mk.injEq, and_true]
  omega

end HoldsChain

/-- The numbers of the accesses in a chain whose parent is `p`, in the order of the text. -/
def linkNumbers (p : Nat) : List (List Char) → List Nat
  | [] => []
  | _ :: earlier => linkNumbers (p + 2) earlier ++ [p + 2]

theorem lt_of_mem_linkNumbers {p j : Nat} (h : j ∈ linkNumbers p names) : p + 1 < j := by
  induction names generalizing p with
  | nil => cases h
  | cons name earlier ih =>
    rcases List.mem_append.mp h with h | h
    · have hlt := ih h
      omega
    · obtain rfl := List.mem_singleton.mp h
      omega

theorem nodup_linkNumbers (p : Nat) (names : List (List Char)) : (linkNumbers p names).Nodup := by
  induction names generalizing p with
  | nil => exact .nil
  | cons name earlier ih =>
    rw [linkNumbers, List.nodup_append]
    refine ⟨ih (p + 2), List.nodup_singleton _, fun j hj k hk => ?_⟩
    have hlt := lt_of_mem_linkNumbers hj
    have hk := List.mem_singleton.mp hk
    omega

theorem lt_stop_of_mem_linkNumbers {p j : Nat}
    (h : HoldsAt nodes (some p) (p + 1) (chainTree glue base names) stop)
    (hj : j ∈ linkNumbers p names) : j < stop := by
  induction names generalizing p stop with
  | nil => cases hj
  | cons name earlier ih =>
    obtain ⟨property, rfl, -, hinner⟩ := holdsAt_link h
    have hlt := hinner.lt
    rcases List.mem_append.mp hj with hj | hj
    · have hlast := ih hinner hj
      omega
    · obtain rfl := List.mem_singleton.mp hj
      omega

/-- The accesses of a chain are the links. -/
theorem isMember_iff {p j : Nat} {node : Node}
    (h : HoldsAt nodes (some p) (p + 1) (chainTree glue base names) stop) (hp : p < j) (hj : j < stop)
    (hnode : nodes[j]? = some node) : node.kind.isMember = true ↔ j ∈ linkNumbers p names := by
  induction names generalizing p stop with
  | nil =>
    rcases h with ⟨hroot, hnone⟩
    have hchildren : (chainTree glue base []).children = [] := (isLeaf_operandTree base []).1
    rw [hchildren] at hnone
    cases hnone
    obtain rfl : j = p + 1 := by omega
    obtain rfl := Option.some.inj (hroot.symm.trans hnode)
    simp only [linkNumbers, List.not_mem_nil, iff_false, Bool.not_eq_true]
    exact (isLeaf_operandTree base []).2.2
  | cons name earlier ih =>
    obtain ⟨property, rfl, hlink, hinner⟩ := holdsAt_link h
    have hbound := hinner.lt
    have hless : ∀ k ∈ linkNumbers (p + 2) earlier, p + 3 < k ∧ k < property :=
      fun k hk => ⟨lt_of_mem_linkNumbers hk, lt_stop_of_mem_linkNumbers hinner hk⟩
    rw [linkNumbers, List.mem_append, List.mem_singleton]
    rcases (by omega : j = p + 1 ∨ j = p + 2 ∨ (p + 2 < j ∧ j < property) ∨ j = property) with
      rfl | rfl | ⟨hlow, hhigh⟩ | rfl
    · obtain rfl := Option.some.inj (hlink.call.symm.trans hnode)
      have hnot : p + 1 ∉ linkNumbers (p + 2) earlier := fun hk => by
        have hk := hless _ hk
        omega
      simp [hnot, NodeKind.isMember]
    · obtain rfl := Option.some.inj (hlink.access.symm.trans hnode)
      simp [NodeKind.isMember]
    · rw [ih hinner hlow hhigh]
      constructor
      · exact Or.inl
      · rintro (hk | rfl)
        · exact hk
        · omega
    · obtain rfl := Option.some.inj (hlink.property.symm.trans hnode)
      have hnot : j ∉ linkNumbers (p + 2) earlier := fun hk => by
        have hk := hless _ hk
        omega
      have hne : j ≠ p + 2 := by omega
      simp [hnot, hne, NodeKind.isMember]

theorem HoldsChain.members_perm {a : Arena} (h : HoldsChain a glue base names) :
    a.members.Perm (linkNumbers 1 names) := by
  refine (List.perm_ext_iff_of_nodup (List.nodup_range.filter _) (nodup_linkNumbers 1 names)).mpr ?_
  intro j
  rw [List.mem_filter, List.mem_range]
  constructor
  · rintro ⟨hj, hmember⟩
    obtain ⟨node, hnode⟩ : ∃ node, a.nodes[j]? = some node := ⟨_, Array.getElem?_eq_getElem hj⟩
    have hkind := Arena.kind?_of_getElem? hnode
    rw [hkind, Option.map_some, Option.getD_some] at hmember
    have hpos : 1 < j := by
      by_contra hle
      obtain rfl | rfl : j = 0 ∨ j = 1 := by omega
      · rw [Option.some.inj (hkind.symm.trans h.root)] at hmember
        cases hmember
      · rw [Option.some.inj (hkind.symm.trans h.statement)] at hmember
        cases hmember
    exact (isMember_iff h.tree hpos hj hnode).mp hmember
  · intro hj
    have hstop := lt_stop_of_mem_linkNumbers h.tree hj
    have hlow := lt_of_mem_linkNumbers hj
    obtain ⟨node, hnode⟩ : ∃ node, a.nodes[j]? = some node := ⟨_, Array.getElem?_eq_getElem hstop⟩
    have hmember := (isMember_iff h.tree (by omega) hstop hnode).mpr hj
    refine ⟨hstop, ?_⟩
    rw [Arena.kind?_of_getElem? hnode]
    exact hmember

end CallChain.JavaScript
