import Mathlib
import CallChain.Chain.Link

/-!
# Chains as maximal runs of links

The depth of a chain is found by two walks from one of its links, up to the outermost call and down to
the base. Here a chain is a list: links of which each one's object is the call of the one before, and
which cannot be made longer at either end. In an arena whose children have the right parents every link
lies on such a spine, and the walks from any of its links give the depth and the top of the spine.
-/
namespace CallChain.Syntax.Arena

/-- Nodes and parents agree. Numbers are handed out from the root down, so that a child has a larger one
than its parent. -/
structure Linked (a : Arena) : Prop where
  forward : ∀ {i c : Nat} {k : NodeKind}, a.kind? i = some k → c ∈ k.children → i < c
  parent : ∀ {i c : NodeId} {k : NodeKind}, a.kind? i = some k → c ∈ k.children → a.parent? c = some i
  listed : ∀ {i c : NodeId}, a.parent? c = some i → ∃ k, a.kind? i = some k ∧ c ∈ k.children

theorem lt_size_of_kind? {a : Arena} {i : Nat} {k : NodeKind} (h : a.kind? i = some k) :
    i < a.size := by
  obtain ⟨node, hn, -⟩ := Option.map_eq_some_iff.mp h
  obtain ⟨hi, -⟩ := Array.getElem?_eq_some_iff.mp hn
  exact hi

/-- Each child has a larger number than the node that lists it, and that node for its parent. Nothing is
asked of a node that is not listed; it may have any parent. -/
structure ChildrenLinked (a : Arena) : Prop where
  forward : ∀ {i c : Nat} {k : NodeKind}, a.kind? i = some k → c ∈ k.children → i < c
  parent : ∀ {i c : NodeId} {k : NodeKind}, a.kind? i = some k → c ∈ k.children → a.parent? c = some i

theorem childrenLinked_iff {a : Arena} : a.ChildrenLinked ↔
    ∀ i < a.size, ∀ k ∈ a.kind? i, ∀ c ∈ k.children, i < c ∧ a.parent? c = some i := by
  constructor
  · exact fun h i _ k hk c hc => ⟨h.forward hk hc, h.parent hk hc⟩
  · intro h
    exact ⟨fun hk hc => (h _ (lt_size_of_kind? hk) _ hk _ hc).1,
      fun hk hc => (h _ (lt_size_of_kind? hk) _ hk _ hc).2⟩

instance (a : Arena) : Decidable a.ChildrenLinked := decidable_of_iff _ childrenLinked_iff.symm

theorem Linked.childrenLinked {a : Arena} (h : a.Linked) : a.ChildrenLinked := ⟨h.forward, h.parent⟩

theorem linked_iff {a : Arena} : a.Linked ↔ a.ChildrenLinked ∧
    ∀ c < a.size, ∀ i ∈ a.parent? c, ∃ k ∈ a.kind? i, c ∈ k.children := by
  constructor
  · exact fun h => ⟨h.childrenLinked, fun c _ i hp => h.listed hp⟩
  · rintro ⟨hdown, hup⟩
    refine ⟨hdown.forward, hdown.parent, fun {i c} hp => ?_⟩
    obtain ⟨node, hn, -⟩ := Option.bind_eq_some_iff.mp hp
    obtain ⟨hc, -⟩ := Array.getElem?_eq_some_iff.mp hn
    exact hup c hc i hp

instance (a : Arena) : Decidable a.Linked := decidable_of_iff _ linked_iff.symm

end CallChain.Syntax.Arena

namespace CallChain.Chain

open CallChain.Syntax

variable {a : Arena} {m next call : Nat}

/-- `m` is a link and `call` is its call: a member access with a plain name for its property, which is
the callee of its parent. -/
structure CalledBy (a : Arena) (m call : NodeId) : Prop where
  access : ∃ object property optional, a.kind? m = some (.member object property false optional) ∧
    a.isIdentifier property = true
  parent : a.parent? m = some call
  callee : ∃ arguments optional, a.kind? call = some (.call m arguments optional)

theorem callee?_eq_some_iff {callee : NodeId} :
    callee? a call = some callee ↔
      ∃ arguments optional, a.kind? call = some (.call callee arguments optional) := by
  unfold callee?
  split
  · next c arguments optional hk => simp [hk]
  · next hk => simpa using fun arguments optional => hk callee arguments optional

theorem memberObject?_eq_some_iff {object : NodeId} :
    memberObject? a m = some object ↔ ∃ property computed optional,
      a.kind? m = some (.member object property computed optional) := by
  unfold memberObject?
  split
  · next o property computed optional hk => simp [hk]
  · next hk => simpa using fun property computed optional => hk object property computed optional

theorem methodCall?_eq_some_iff : methodCall? a m = some call ↔ CalledBy a m call := by
  unfold methodCall?
  constructor
  · intro h
    split at h
    · next object property computed optional hk =>
      split at h
      · cases h
      · next hplain =>
        rw [Bool.or_eq_true, not_or, Bool.not_eq_true, Bool.not_eq_true, Bool.not_eq_false'] at hplain
        obtain ⟨rfl, hname⟩ := hplain
        obtain ⟨hp, hc⟩ := Option.filter_eq_some_iff.mp h
        exact ⟨⟨object, property, optional, hk, hname⟩, hp,
          callee?_eq_some_iff.mp (decide_eq_true_eq.mp hc)⟩
    · cases h
  · rintro ⟨⟨object, property, optional, hk, hname⟩, hp, hc⟩
    simp only [hk, hname, Bool.not_true, Bool.or_false, Bool.false_eq_true, if_false]
    exact Option.filter_eq_some_iff.mpr ⟨hp, decide_eq_true (callee?_eq_some_iff.mpr hc)⟩

theorem CalledBy.call_eq {call' : NodeId} (h : CalledBy a m call) (h' : CalledBy a m call') :
    call = call' :=
  Option.some.inj (h.parent.symm.trans h'.parent)

theorem CalledBy.lt_size (h : CalledBy a m call) : m < a.size := by
  obtain ⟨object, property, optional, hk, -⟩ := h.access
  exact Arena.lt_size_of_kind? hk

theorem CalledBy.lt (hl : a.ChildrenLinked) (h : CalledBy a m call) : call < m := by
  obtain ⟨arguments, optional, hk⟩ := h.callee
  exact hl.forward hk List.mem_cons_self

/-- What a link is called on: its object is the call of the link `m`. -/
structure Follows (a : Arena) (m next : NodeId) : Prop where
  object : ∃ call, CalledBy a m call ∧ memberObject? a next = some call
  link : ∃ outer, CalledBy a next outer

theorem Follows.parent (hl : a.ChildrenLinked) (hc : CalledBy a m call) (h : Follows a m next) :
    memberObject? a next = some call ∧ a.parent? call = some next ∧ next < call := by
  obtain ⟨call', hc', ho⟩ := h.object
  obtain rfl := hc.call_eq hc'
  obtain ⟨property, computed, optional, hk⟩ := memberObject?_eq_some_iff.mp ho
  exact ⟨ho, hl.parent hk List.mem_cons_self, hl.forward hk List.mem_cons_self⟩

theorem Follows.lt (hl : a.ChildrenLinked) (h : Follows a m next) : next < m := by
  obtain ⟨call, hc, -⟩ := h.object
  have hcall := hc.lt hl
  have hnext := (h.parent hl hc).2.2
  omega

/-- A maximal run of links, from the base of a chain to its outermost call. -/
structure Spine (a : Arena) (links : List NodeId) : Prop where
  isLink : ∀ m ∈ links, ∃ call, CalledBy a m call
  joined : links.IsChain (Follows a)
  first : ∀ m l, links.head? = some l → ¬ Follows a m l
  last : ∀ l m, links.getLast? = some l → ¬ Follows a l m

/-- The object of a link is itself a call. -/
def onCall (a : Arena) (m : NodeId) : Bool := ((memberObject? a m).bind (callee? a)).isSome

/-- How many calls a run of links has, the one at its base included. -/
def spineDepth (a : Arena) (links : List NodeId) : Nat :=
  links.length + if links.head?.any (onCall a) then 1 else 0

/-- `top` is the call of the last link. -/
def IsTop (a : Arena) (links : List NodeId) (top : NodeId) : Prop :=
  ∃ l, links.getLast? = some l ∧ CalledBy a l top

theorem callsAbove_of_not_link (h : methodCall? a m = none) (fuel : Nat) :
    callsAbove a fuel m = [] := by
  cases fuel with
  | zero => rfl
  | succ fuel => rw [callsAbove, h]

theorem linksBelow_of_not_link (h : methodCall? a m = none) (fuel : Nat) :
    linksBelow a fuel m = [] := by
  cases fuel with
  | zero => rfl
  | succ fuel => rw [linksBelow, h]; rfl

/-- What is no link has no depth, and is its own top. -/
theorem depth_of_not_link (h : methodCall? a m = none) : depth a m = (0, m) := by
  rw [depth, methodsAfter, methodsBefore, callsAbove_of_not_link h, linksBelow_of_not_link h]
  rfl

/-- The walk up from a link meets the calls of the links above it. Numbers fall on the way, so that one
turn for each number up to that of the link is enough. -/
theorem callsAbove_eq (hl : a.ChildrenLinked) {above : List Nat} {fuel : Nat} (hf : m < fuel)
    (hlinks : ∀ l ∈ m :: above, ∃ call, CalledBy a l call)
    (hjoined : (m :: above).IsChain (Follows a))
    (hlast : ∀ l n, (m :: above).getLast? = some l → ¬ Follows a l n) :
    (callsAbove a fuel m).map some = (m :: above).map (methodCall? a) := by
  induction above generalizing m fuel with
  | nil =>
    obtain ⟨call, hc⟩ := hlinks m List.mem_cons_self
    obtain ⟨turns, rfl⟩ := Nat.exists_eq_add_one.mpr (Nat.zero_lt_of_lt hf)
    have hcall := methodCall?_eq_some_iff.mpr hc
    have hstop : ∀ next, (a.parent? call).filter (fun n => memberObject? a n = some call) = some next →
        methodCall? a next = none := by
      intro next hnext
      obtain ⟨-, ho⟩ := Option.filter_eq_some_iff.mp hnext
      by_contra hne
      obtain ⟨outer, houter⟩ := Option.ne_none_iff_exists'.mp hne
      have hlink := methodCall?_eq_some_iff.mp houter
      exact hlast m next rfl ⟨⟨call, hc, decide_eq_true_eq.mp ho⟩, outer, hlink⟩
    rw [callsAbove, hcall]
    simp only [List.map_cons, List.map_nil, hcall]
    split
    · next next hnext => rw [callsAbove_of_not_link (hstop next hnext)]; rfl
    · rfl
  | cons n above ih =>
    obtain ⟨call, hc⟩ := hlinks m List.mem_cons_self
    obtain ⟨turns, rfl⟩ := Nat.exists_eq_add_one.mpr (Nat.zero_lt_of_lt hf)
    obtain ⟨hfollows, hrest⟩ := List.isChain_cons_cons.mp hjoined
    obtain ⟨ho, hp, -⟩ := hfollows.parent hl hc
    have hlt := hfollows.lt hl
    have hcall := methodCall?_eq_some_iff.mpr hc
    have hfilter : (a.parent? call).filter (fun n => memberObject? a n = some call) = some n :=
      Option.filter_eq_some_iff.mpr ⟨hp, decide_eq_true ho⟩
    have hup := ih (show n < turns by omega) (fun l h => hlinks l (List.mem_cons_of_mem m h)) hrest
      fun l k h => hlast l k (by rw [List.getLast?_cons_cons, h])
    rw [callsAbove, hcall]
    simp only [hfilter]
    rw [List.map_cons, hup, List.map_cons, List.map_cons, List.map_cons, hcall]

/-- The walk down from a link counts the links up to it, without the first unless that is called on a
call. Numbers grow on the way and stay below the size of the arena. -/
theorem length_linksBelow (hl : a.ChildrenLinked) {below : List Nat} {fuel : Nat} (hf : a.size ≤ m + fuel)
    (hlinks : ∀ l ∈ below ++ [m], ∃ call, CalledBy a l call)
    (hjoined : (below ++ [m]).IsChain (Follows a))
    (hfirst : ∀ n l, (below ++ [m]).head? = some l → ¬ Follows a n l) :
    (linksBelow a fuel m).length + 1 = spineDepth a (below ++ [m]) := by
  induction below using List.reverseRecOn generalizing m fuel with
  | nil =>
    obtain ⟨call, hc⟩ := hlinks m List.mem_cons_self
    have hm := hc.lt_size
    obtain ⟨turns, rfl⟩ := Nat.exists_eq_add_one.mpr (show 0 < fuel by omega)
    have hcall := methodCall?_eq_some_iff.mpr hc
    rw [List.nil_append, linksBelow, hcall]
    cases hbase : (memberObject? a m).bind (callee? a) with
    | none =>
      have hon : onCall a m = false := by rw [onCall, hbase, Option.isSome_none]
      simp [spineDepth, hon]
    | some callee =>
      have hon : onCall a m = true := by rw [onCall, hbase, Option.isSome_some]
      obtain ⟨base, ho, hcallee⟩ := Option.bind_eq_some_iff.mp hbase
      have hnot : methodCall? a callee = none := by
        by_contra hne
        obtain ⟨outer, houter⟩ := Option.ne_none_iff_exists'.mp hne
        have hlink := methodCall?_eq_some_iff.mp houter
        obtain ⟨arguments, opt, hbk⟩ := callee?_eq_some_iff.mp hcallee
        have hparent := hl.parent hbk List.mem_cons_self
        have houter_eq : base = outer := Option.some.inj (hparent.symm.trans hlink.parent)
        exact hfirst callee m rfl ⟨⟨base, houter_eq ▸ hlink, ho⟩, call, hc⟩
      simp [spineDepth, hon, linksBelow_of_not_link hnot]
  | append_singleton below l ih =>
    obtain ⟨call, hc⟩ := hlinks m (by simp)
    have hm := hc.lt_size
    obtain ⟨turns, rfl⟩ := Nat.exists_eq_add_one.mpr (show 0 < fuel by omega)
    have hcall := methodCall?_eq_some_iff.mpr hc
    obtain ⟨hbelow, -, hstep⟩ := List.isChain_append.mp hjoined
    have hfollows : Follows a l m := hstep l (by simp) m (by simp)
    have hlt := hfollows.lt hl
    obtain ⟨base, hb, ho⟩ := hfollows.object
    have hbase : (memberObject? a m).bind (callee? a) = some l := by
      rw [ho]
      exact callee?_eq_some_iff.mpr hb.callee
    have hhead : (below ++ [l] ++ [m]).head? = (below ++ [l]).head? := by cases below <;> rfl
    have hdown := ih (show a.size ≤ l + turns by omega)
      (fun k h => hlinks k (List.mem_append_left _ h)) hbelow fun n k h => hfirst n k (hhead.trans h)
    have hdepth : spineDepth a (below ++ [l] ++ [m]) = spineDepth a (below ++ [l]) + 1 := by
      have hlen : (below ++ [l] ++ [m]).length = (below ++ [l]).length + 1 := by simp
      rw [spineDepth, spineDepth, hhead, hlen]
      omega
    rw [linksBelow, hcall, hdepth, ← hdown]
    simp [hbase]

/-- Every link of a spine sees the depth and the top of the spine. -/
theorem depth_of_spine (hl : a.ChildrenLinked) {links : List Nat} (hs : Spine a links) (hm : m ∈ links) :
    ∃ top, IsTop a links top ∧ depth a m = (spineDepth a links, top) := by
  obtain ⟨below, above, rfl⟩ := List.append_of_mem hm
  obtain ⟨hbelow, habove⟩ := List.isChain_split.mp hs.joined
  obtain ⟨call, hc⟩ := hs.isLink m hm
  have hsize := hc.lt_size
  have hlasteq : (below ++ m :: above).getLast? = (m :: above).getLast? := by
    rw [List.getLast?_append, List.getLast?_cons, Option.some_or]
  have hheadeq : (below ++ m :: above).head? = (below ++ [m]).head? := by cases below <;> rfl
  have hup := callsAbove_eq hl hsize (fun l h => hs.isLink l (List.mem_append_right below h)) habove
    fun l n h => hs.last l n (hlasteq.trans h)
  have hdown := length_linksBelow hl (show a.size ≤ m + a.size by omega)
    (fun l h => hs.isLink l (by simp at h ⊢; tauto)) hbelow fun n l h => hs.first n l (hheadeq.trans h)
  have hlength : (callsAbove a a.size m).length = above.length + 1 := by
    have h := congrArg List.length hup
    simpa using h
  have hlast := List.getLast?_eq_some_getLast (List.cons_ne_nil m above)
  generalize (m :: above).getLast _ = l at hlast
  obtain ⟨top, htop⟩ := hs.isLink l (List.mem_of_getLast? (hlasteq.trans hlast))
  have htopeq : (callsAbove a a.size m).getLast? = some top := by
    have h := congrArg List.getLast? hup
    rw [List.getLast?_map, List.getLast?_map, hlast, Option.map_some,
      methodCall?_eq_some_iff.mpr htop] at h
    obtain ⟨t, ht, he⟩ := Option.map_eq_some_iff.mp h
    rw [ht, he]
  refine ⟨top, ⟨l, hlasteq.trans hlast, htop⟩, ?_⟩
  rw [depth, methodsAfter, methodsBefore, htopeq, hlength, Option.getD_some]
  rw [spineDepth] at hdown ⊢
  rw [hheadeq]
  simp only [List.length_append, List.length_cons, List.length_nil] at hdown ⊢
  exact Prod.ext (by omega) rfl

theorem exists_above (hl : a.ChildrenLinked) (hc : CalledBy a m call) :
    ∃ above : List Nat, (∀ l ∈ m :: above, ∃ call, CalledBy a l call) ∧
      (m :: above).IsChain (Follows a) ∧ ∀ l n, (m :: above).getLast? = some l → ¬ Follows a l n := by
  induction m using Nat.strong_induction_on generalizing call with
  | h m ih =>
    by_cases hnext : ∃ next, Follows a m next
    · obtain ⟨next, hfollows⟩ := hnext
      obtain ⟨outer, houter⟩ := hfollows.link
      obtain ⟨above, hlinks, hjoined, hlast⟩ := ih next (hfollows.lt hl) houter
      refine ⟨next :: above, ?_, List.isChain_cons_cons.mpr ⟨hfollows, hjoined⟩, ?_⟩
      · intro l h
        rcases List.mem_cons.mp h with rfl | h
        · exact ⟨call, hc⟩
        · exact hlinks l h
      · intro l n h
        rw [List.getLast?_cons_cons] at h
        exact hlast l n h
    · refine ⟨[], ?_, List.isChain_singleton m, ?_⟩
      · intro l h
        obtain rfl := List.mem_singleton.mp h
        exact ⟨call, hc⟩
      · intro l n h hfollows
        obtain rfl : m = l := by simpa using h
        exact hnext ⟨n, hfollows⟩

theorem exists_below (hl : a.ChildrenLinked) (hc : CalledBy a m call) :
    ∃ below : List Nat, (∀ l ∈ below ++ [m], ∃ call, CalledBy a l call) ∧
      (below ++ [m]).IsChain (Follows a) ∧ ∀ n l, (below ++ [m]).head? = some l → ¬ Follows a n l := by
  -- Links below have larger numbers, so the induction is on the room up to the size of the arena.
  induction hroom : a.size - m using Nat.strong_induction_on generalizing m call with
  | h room ih =>
    by_cases hprev : ∃ prev, Follows a prev m
    · obtain ⟨prev, hfollows⟩ := hprev
      obtain ⟨inner, hinner, -⟩ := hfollows.object
      have hsize := hinner.lt_size
      have hlt := hfollows.lt hl
      obtain ⟨below, hlinks, hjoined, hfirst⟩ := ih (a.size - prev) (by omega) hinner rfl
      refine ⟨below ++ [prev], ?_, ?_, ?_⟩
      · intro l h
        rcases List.mem_append.mp h with h | h
        · exact hlinks l h
        · obtain rfl := List.mem_singleton.mp h
          exact ⟨call, hc⟩
      · refine hjoined.append (List.isChain_singleton m) ?_
        intro x hx y hy
        obtain rfl : prev = x := by simpa using hx
        obtain rfl : m = y := by simpa using hy
        exact hfollows
      · intro n l h
        refine hfirst n l (Eq.trans ?_ h)
        cases below <;> rfl
    · refine ⟨[], ?_, List.isChain_singleton m, ?_⟩
      · intro l h
        obtain rfl := List.mem_singleton.mp h
        exact ⟨call, hc⟩
      · intro n l h hfollows
        obtain rfl : m = l := by simpa using h
        exact hprev ⟨n, hfollows⟩

/-- Every link lies on a spine. -/
theorem exists_spine (hl : a.ChildrenLinked) (hc : CalledBy a m call) :
    ∃ links, Spine a links ∧ m ∈ links := by
  obtain ⟨above, hlinks, hjoined, hlast⟩ := exists_above hl hc
  obtain ⟨below, hlinks', hjoined', hfirst⟩ := exists_below hl hc
  refine ⟨below ++ m :: above, ⟨?_, List.isChain_split.mpr ⟨hjoined', hjoined⟩, ?_, ?_⟩, by simp⟩
  · intro l h
    rcases List.mem_append.mp h with h | h
    · exact hlinks' l (List.mem_append_left _ h)
    · exact hlinks l h
  · intro n l h
    refine hfirst n l (Eq.trans ?_ h)
    cases below <;> rfl
  · intro l n h
    rw [List.getLast?_append, List.getLast?_cons, Option.some_or, ← List.getLast?_cons] at h
    exact hlast l n h

/-- The tree of `f().b()`, which stands on one line. -/
def twoCalls : Arena :=
  let onLine (start stop : Nat) : Span := ⟨start, stop, ⟨1, start⟩, ⟨1, stop⟩⟩
  { nodes := #[⟨.call 1 [] false, onLine 0 7, none⟩, ⟨.member 2 4 false false, onLine 0 5, some 0⟩,
      ⟨.call 3 [] false, onLine 0 3, some 1⟩, ⟨.identifier "f", onLine 0 1, some 2⟩,
      ⟨.identifier "b", onLine 4 5, some 1⟩]
    tokens := #[⟨"identifier", onLine 0 1⟩, ⟨"(", onLine 1 2⟩, ⟨")", onLine 2 3⟩, ⟨".", onLine 3 4⟩,
      ⟨"property_identifier", onLine 4 5⟩, ⟨"(", onLine 5 6⟩, ⟨")", onLine 6 7⟩]
    root := 0 }

example : depth twoCalls 1 = (2, 0) := by decide

end CallChain.Chain
