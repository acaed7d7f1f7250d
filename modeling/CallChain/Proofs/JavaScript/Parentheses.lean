import CallChain.Proofs.JavaScript.Reading.Regular
import CallChain.Proofs.JavaScript.StandIn
import CallChain.Proofs.JavaScript.TrailingAllow

/-!
# Parentheses are transparent

`strip` takes the parentheses away from a concrete tree: each is replaced by the first construct in it,
which takes over its role. What is left of a node stands for the node, so that trees which match without
their parentheses have matching arenas, and the chains in them are judged alike.
-/
namespace CallChain.JavaScript

open CallChain.Syntax

namespace Concrete

variable {R : Span → Span → Prop} {text text' : List Char} {c d : Concrete}

/-- The same node in another role, or in none. -/
def inRole (c : Concrete) (role : Option Role) : Concrete := node { c.label with role } c.children

mutual

/-- The tree without its parentheses. Those that hold no construct stay. -/
def strip : Concrete → Concrete
  | node l cs =>
    if l.kind = "parenthesized_expression" then
      match stripFirst? cs with
      | some inner => inner.inRole l.role
      | none => node l (stripAll cs)
    else node l (stripAll cs)

def stripAll : List Concrete → List Concrete
  | [] => []
  | c :: cs => strip c :: stripAll cs

/-- The first construct, without its parentheses. -/
def stripFirst? : List Concrete → Option Concrete
  | [] => none
  | c :: cs => if c.isProper then some (strip c) else stripFirst? cs

end

theorem stripAll_eq (cs : List Concrete) : stripAll cs = cs.map strip := by
  induction cs with
  | nil => rfl
  | cons c cs ih => rw [stripAll, ih, List.map_cons]

theorem stripFirst?_eq (cs : List Concrete) : stripFirst? cs = (cs.find? isProper).map strip := by
  induction cs with
  | nil => rfl
  | cons c cs ih =>
    rw [stripFirst?, List.find?_cons]
    cases c.isProper with
    | true => rfl
    | false => exact ih

/-- A node either stays, over what is left of its children, or is replaced by what it holds. -/
theorem strip_cases (l : Label) (cs : List Concrete) :
    ((l.kind = "parenthesized_expression" → cs.find? isProper = none) ∧
      strip (node l cs) = node l (cs.map strip)) ∨
    ∃ inner, l.kind = "parenthesized_expression" ∧ cs.find? isProper = some inner ∧
      strip (node l cs) = (strip inner).inRole l.role := by
  rw [strip, stripFirst?_eq, stripAll_eq]
  by_cases hkind : l.kind = "parenthesized_expression"
  · rw [if_pos hkind]
    cases hinner : cs.find? isProper with
    | none => exact Or.inl ⟨fun _ => rfl, rfl⟩
    | some inner => exact Or.inr ⟨inner, hkind, rfl, rfl⟩
  · rw [if_neg hkind]
    exact Or.inl ⟨fun h => absurd h hkind, rfl⟩

mutual

/-- Trees over two texts that differ at most in their spans. -/
def Matches (R : Span → Span → Prop) (text text' : List Char) : Concrete → Concrete → Prop
  | node l cs, node l' cs' => l.Matches R text text' l' ∧ MatchAll R text text' cs cs'

def MatchAll (R : Span → Span → Prop) (text text' : List Char) :
    List Concrete → List Concrete → Prop
  | [], [] => True
  | c :: cs, d :: ds => Matches R text text' c d ∧ MatchAll R text text' cs ds
  | _, _ => False

end

mutual

def decideMatches [DecidableRel R] : ∀ c d : Concrete, Decidable (c.Matches R text text' d)
  | node l cs, node l' ds =>
    have := decideMatchAll cs ds
    inferInstanceAs (Decidable (l.Matches R text text' l' ∧ MatchAll R text text' cs ds))

def decideMatchAll [DecidableRel R] : ∀ cs ds : List Concrete, Decidable (MatchAll R text text' cs ds)
  | [], [] => inferInstanceAs (Decidable True)
  | [], _ :: _ => inferInstanceAs (Decidable False)
  | _ :: _, [] => inferInstanceAs (Decidable False)
  | c :: cs, d :: ds =>
    have := decideMatches c d
    have := decideMatchAll cs ds
    inferInstanceAs (Decidable (c.Matches R text text' d ∧ MatchAll R text text' cs ds))

end

instance [DecidableRel R] (c d : Concrete) : Decidable (c.Matches R text text' d) := decideMatches c d

theorem matchAll_iff {cs ds : List Concrete} :
    MatchAll R text text' cs ds ↔ List.Forall₂ (Matches R text text') cs ds := by
  induction cs generalizing ds with
  | nil => cases ds <;> simp [MatchAll]
  | cons c cs ih => cases ds <;> simp [MatchAll, ih]

theorem Matches.refl (text : List Char) (c : Concrete) : c.Matches Eq text text c := by
  cases c with
  | node l cs =>
    refine ⟨⟨rfl, rfl, rfl, rfl, rfl, fun _ => rfl⟩, ?_⟩
    rw [matchAll_iff, List.forall₂_same]
    intro d hd
    have hlt := List.sizeOf_lt_of_mem hd
    exact Matches.refl text d
  termination_by sizeOf c

/-- A role that one of the trees is given can as well be given to the other. -/
theorem Matches.inRole {role : Option Role} (h : (c.inRole role).Matches R text text' d) :
    c.Matches R text text' (d.inRole c.label.role) := by
  obtain ⟨l, cs⟩ := c
  obtain ⟨l', ds⟩ := d
  obtain ⟨hlabel, hbelow⟩ := h
  exact ⟨⟨hlabel.kind, hlabel.named, hlabel.extra, rfl, hlabel.span, hlabel.name⟩, hbelow⟩

theorem Matches.role {role : Option Role} (h : (c.inRole role).Matches R text text' d) :
    role = d.label.role := by
  obtain ⟨l', ds⟩ := d
  exact h.1.role

theorem isProper_part (text : List Char) (c : Concrete) : (c.part text).isProper = c.isProper := by
  rw [Part.isProper, label_part, isProper]

/-- A role says nothing about the tree. -/
theorem part_inRole (text : List Char) (c : Concrete) (role : Option Role) :
    (c.inRole role).part text =
      .mk { c.label with role } (c.abstract text) (partAll text c.children) := by
  cases c
  rfl

theorem exists_of_within_inRole {s : Concrete} {role : Option Role} (h : s.Within (c.inRole role)) :
    ∃ s' : Concrete, s'.Within c ∧ s'.kind = s.kind ∧ s'.children = s.children := by
  obtain ⟨l, cs⟩ := c
  cases h with
  | here => exact ⟨node l cs, .here _, rfl, rfl⟩
  | inside hd h => exact ⟨s, .inside hd h, rfl, rfl⟩

/-- Parentheses have the tree of what they hold. -/
theorem abstract_parenthesis {l : Label} {cs : List Concrete} {inner : Concrete}
    (hkind : l.kind = "parenthesized_expression") (hinner : cs.find? isProper = some inner) :
    (node l cs).abstract text = inner.abstract text := by
  have hproper : Part.isProper ∘ part text = isProper := funext (isProper_part text)
  have hfirst : (Part.proper (partAll text cs)).head? = some (inner.part text) := by
    rw [Part.proper, List.head?_filter, partAll_eq, List.find?_map, hproper, hinner, Option.map_some]
  change Part.shape text l (partAll text cs) = _
  simp only [Part.shape, hkind, hfirst]
  rfl

theorem kind_ne_of_withRole? {cs : List Concrete} {role : Role}
    (h : ∀ d ∈ cs, d.kind = "parenthesized_expression" → d.label.role ≠ some role) {p : Part}
    (hp : Part.withRole? role (partAll text cs) = some p) :
    p.label.kind ≠ "parenthesized_expression" := by
  obtain ⟨d, hd, rfl⟩ := mem_partAll.mp (List.mem_of_find?_eq_some hp)
  have hbeq := List.find?_some hp
  have hrole : (d.part text).label.role = some role := eq_of_beq hbeq
  rw [label_part] at hrole ⊢
  exact fun hkind => h d hd hkind hrole

/-- What is left of a node without parentheses, and all that matches it, stands for the node. -/
theorem standsFor_of_strip : ∀ c u : Concrete, c.Regular → (strip c).Matches R text text' u →
    Part.StandsFor R (c.part text) (u.part text')
  | node l cs, u, hregular, hmatch => by
    obtain ⟨hencloses, hfields⟩ := hregular _ (.here _)
    have ih : ∀ d ∈ cs, ∀ e, (strip d).Matches R text text' e →
        Part.StandsFor R (d.part text) (e.part text') := fun d hd e hde =>
      have hlt := List.sizeOf_lt_of_mem hd
      standsFor_of_strip d e (hregular.child hd) hde
    rcases strip_cases l cs with ⟨-, hstrip⟩ | ⟨inner, hkind, hinner, hstrip⟩ <;> rw [hstrip] at hmatch
    · obtain ⟨l', us⟩ := u
      obtain ⟨hlabel, hbelow⟩ := hmatch
      rw [matchAll_iff, List.forall₂_map_left_iff] at hbelow
      have hparts : List.Forall₂ (Part.StandsFor R) (partAll text cs) (partAll text' us) := by
        rw [partAll_eq, partAll_eq, List.forall₂_map_left_iff, List.forall₂_map_right_iff]
        exact ((List.forall₂_and_left _ _).mpr ⟨ih, hbelow⟩).imp fun _ e ⟨h, hde⟩ => h e hde
      constructor
      · refine Part.shape_matches hparts hlabel (fun hkind p hp => ?_) (fun hkind p hp => ?_)
        · exact kind_ne_of_withRole? (fun d hd hd' => (hfields d hd hd').1 hkind) hp
        · exact kind_ne_of_withRole? (fun d hd hd' => (hfields d hd hd').2 hkind) hp
      · exact hlabel.role
      · exact congrArg₂ (fun named extra => named && !extra) hlabel.named hlabel.extra
      · exact iff_of_eq (congrArg IsMark hlabel.kind)
      · exact fun _ => hlabel.kind
      · exact fun _ => Part.trees_match hparts
    · -- what is in the parentheses stands for them, in their role
      obtain ⟨hproper, hmark⟩ := hencloses hkind inner hinner
      have hstands := ih inner (List.mem_of_find?_eq_some hinner) _ hmatch.inRole
      rw [part_inRole] at hstands
      have hmarkOuter : ¬ IsMark l.kind := by
        rw [hkind]
        decide
      constructor
      · change Tree.Matches R ((node l cs).abstract text) (u.abstract text')
        rw [abstract_parenthesis hkind hinner]
        exact hstands.tree
      · rw [label_part text' u]
        exact hmatch.role
      · have hinnerProper : inner.isProper = true := List.find?_some hinner
        rw [← isProper_part text, hstands.isProper] at hinnerProper
        rw [isProper_part, isProper_part]
        exact hproper.trans hinnerProper.symm
      · have hinnerMark := hstands.mark
        rw [label_part] at hinnerMark
        rw [label_part text' u]
        exact iff_of_false hmarkOuter fun h => hmark (hinnerMark.mpr h)
      · exact fun hne => absurd hkind hne
      · exact fun hne => absurd hkind hne
  termination_by c => sizeOf c

theorem isProper_strip (h : c.Regular) : (strip c).isProper = c.isProper := by
  have hstands := standsFor_of_strip c (strip c) h (Matches.refl [] _)
  rw [← isProper_part [], ← isProper_part [], hstands.isProper]

/-- No parentheses around a construct are left. -/
theorem find?_isProper_of_within_strip : ∀ c : Concrete, c.Regular → ∀ s : Concrete,
    s.Within (strip c) → s.kind = "parenthesized_expression" → s.children.find? isProper = none
  | node l cs, hregular, s, hs, hkind => by
    have ih : ∀ d ∈ cs, ∀ s : Concrete, s.Within (strip d) → s.kind = "parenthesized_expression" →
        s.children.find? isProper = none := fun d hd =>
      have hlt := List.sizeOf_lt_of_mem hd
      find?_isProper_of_within_strip d (hregular.child hd)
    rcases strip_cases l cs with ⟨hkept, hstrip⟩ | ⟨inner, -, hinner, hstrip⟩ <;> rw [hstrip] at hs
    · cases hs with
      | here =>
        have hnone := List.find?_eq_none.mp (hkept hkind)
        refine List.find?_eq_none.mpr fun d hd => ?_
        obtain ⟨e, he, rfl⟩ := List.mem_map.mp hd
        rw [isProper_strip (hregular.child he)]
        exact hnone e he
      | inside hd hsd =>
        obtain ⟨e, he, rfl⟩ := List.mem_map.mp hd
        exact ih e he s hsd hkind
    · obtain ⟨s', hs', hkind', hchildren⟩ := exists_of_within_inRole hs
      rw [← hchildren]
      exact ih inner (List.mem_of_find?_eq_some hinner) s' hs' (hkind'.trans hkind)
  termination_by c => sizeOf c

/-- Trees that match without their parentheses have matching arenas. -/
theorem toArena_matches {t u : Concrete} (ht : t.Regular) (hu : u.Regular)
    (h : (strip t).Matches R text text' (strip u)) :
    ((t.abstract text).toArena t.tokens).Matches R ((u.abstract text').toArena u.tokens) := by
  have ht' := (standsFor_of_strip t (strip u) ht h).tree.toArena t.tokens u.tokens
  have hu' := (standsFor_of_strip u (strip u) hu (Matches.refl text' _)).tree.toArena u.tokens u.tokens
  refine ⟨ht'.root.trans hu'.root.symm, ht'.size.trans hu'.size.symm, fun i => ?_⟩
  have hnode := ht'.node? i
  rw [← hu'.node?_eq i] at hnode
  exact hnode

end Concrete

/-- The chain of each link has the same length and the same outermost call in both trees, and both accept
it whatever its length or neither does. -/
def ChainsAlike (a b : Arena) : Prop :=
  ∀ m, Chain.depth a m = Chain.depth b m ∧
    Chain.isExempt a (Chain.depth a m).2 = Chain.isExempt b (Chain.depth b m).2

theorem chainsAlike_of_matches {R : Span → Span → Prop} {a b : Arena} (h : a.Matches R b) :
    ChainsAlike a b := by
  intro m
  rw [Chain.depth_of_sameShape h.sameShape, Chain.isExempt_of_sameShape h.sameShape]
  exact ⟨rfl, rfl⟩

/-- Taking the parentheses off a tree leaves none around a construct and changes no node of its arena.
Trees that match without their parentheses, over any two texts, have arenas that match number by number,
and their chains are judged alike. All trees that are read are regular. `Regular` asks for more than fields
without parentheses, in `Encloses`: parentheses around a construct are named and no comment, or else their
parent would pass over them and not over what is left of them, and they hold no `?.`, which would otherwise
come to stand below that parent and make it optional. -/
theorem parentheses_transparent :
    (∀ (text : List Char) (t : Concrete), Grammar.program text = .ok t → t.Regular) ∧
    ∀ (text : List Char) (t : Concrete), t.Regular →
      let a := (t.abstract text).toArena t.tokens
      let bare := (t.strip.abstract text).toArena t.strip.tokens
      (∀ s : Concrete, s.Within t.strip → s.kind = "parenthesized_expression" →
        s.children.find? Concrete.isProper = none) ∧
      (a.root = bare.root ∧ a.size = bare.size ∧ (∀ i, a.node? i = bare.node? i) ∧
        ChainsAlike a bare) ∧
      ∀ (R : Span → Span → Prop) (text' : List Char) (u : Concrete), u.Regular →
        t.strip.Matches R text text' u.strip →
          a.Matches R ((u.abstract text').toArena u.tokens) ∧
            ChainsAlike a ((u.abstract text').toArena u.tokens) := by
  refine ⟨fun _ _ => regular_of_program, fun text t ht => ?_⟩
  intro a bare
  have hbare : a.Matches Eq bare :=
    (Concrete.standsFor_of_strip t _ ht (.refl text _)).tree.toArena _ _
  refine ⟨Concrete.find?_isProper_of_within_strip t ht, ?_, fun R text' u hu hmatch => ?_⟩
  · exact ⟨hbare.root, hbare.size, hbare.node?_eq, chainsAlike_of_matches hbare⟩
  · have hmatches := Concrete.toArena_matches ht hu hmatch
    exact ⟨hmatches, chainsAlike_of_matches hmatches⟩

/-- Parentheses around an object, a callee, an operand and a branch, some of them twice. -/
def wrapped : String := "if ((a.b()).c()) (((f)(x)) ? ((y)) : z).g();\n"

def unwrapped : String := "if (a.b().c()) (f(x) ? y : z).g();\n"

/-- Fifteen nodes more are read from the one text than from the other, and both arenas have the same nineteen. -/
theorem parentheses_transparent_wrapped :
    let earlier : Span → Span → Prop := fun s s' => s'.start ≤ s.start ∧ s'.stop ≤ s.stop
    let t := treeOf wrapped
    let u := treeOf unwrapped
    let a := (t.abstract wrapped.toList).toArena t.tokens
    let b := (u.abstract unwrapped.toList).toArena u.tokens
    t.Regular ∧ u.Regular ∧
      t.strip.Matches earlier wrapped.toList unwrapped.toList u.strip ∧
      a.Matches earlier b ∧ ChainsAlike a b ∧
      t.size = 59 ∧ u.size = 44 ∧ a.size = 19 ∧
      b.nodes.toList.map (·.kind) =
        [.program [1], .ifStatement 2 9 none,
          .call 3 [] false, .member 4 8 false false, .call 5 [] false, .member 6 7 false false,
          .identifier "a", .identifier "b", .identifier "c",
          .expressionStatement 10, .call 11 [] false, .member 12 18 false false,
          .conditional 13 16 17, .call 14 [15] false, .identifier "f", .identifier "x",
          .identifier "y", .identifier "z", .identifier "g"] ∧
      [3, 5, 11].map (Chain.depth a) = [(2, 2), (2, 2), (1, 10)] := by
  intro earlier t u a b
  have ht : t.Regular :=
    parentheses_transparent.1 wrapped.toList t (program_eq_treeOf (by decide +kernel))
  have hu : u.Regular :=
    parentheses_transparent.1 unwrapped.toList u (program_eq_treeOf (by decide +kernel))
  have hmatch : t.strip.Matches earlier wrapped.toList unwrapped.toList u.strip := by
    decide +kernel
  obtain ⟨-, -, hall⟩ := parentheses_transparent.2 wrapped.toList t ht
  obtain ⟨hmatches, halike⟩ := hall earlier unwrapped.toList u hu hmatch
  refine ⟨ht, hu, hmatch, hmatches, halike, ?_, ?_, ?_, ?_, ?_⟩
  · decide +kernel
  · decide +kernel
  · rw [hmatches.size]
    decide +kernel
  · decide +kernel
  · decide +kernel

end CallChain.JavaScript
