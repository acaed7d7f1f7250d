import CallChain.Proofs.Chain.Spine

/-!
# The depth of a chain

A link lies on exactly one spine: the link above it is the parent of its call, and the link below it is
the callee of its object. So the two walks, which count in opposite directions and stop on different
grounds, tell each link of a chain the same depth and the same outermost call.
-/
namespace CallChain.Chain

open CallChain.Syntax

variable {a : Arena} {m next : NodeId}

/-- Two runs from one element up to their ends are equal, where each element has one successor at most. -/
theorem eq_of_isChain {R : NodeId → NodeId → Prop} (hR : ∀ {x y z}, R x y → R x z → y = z)
    {x : NodeId} {ys zs : List NodeId} (hys : (x :: ys).IsChain R) (hzs : (x :: zs).IsChain R)
    (hylast : ∀ l n, (x :: ys).getLast? = some l → ¬ R l n)
    (hzlast : ∀ l n, (x :: zs).getLast? = some l → ¬ R l n) : ys = zs := by
  induction ys generalizing x zs with
  | nil =>
    cases zs with
    | nil => rfl
    | cons z zs => exact absurd (List.isChain_cons_cons.mp hzs).1 (hylast x z rfl)
  | cons y ys ih =>
    cases zs with
    | nil => exact absurd (List.isChain_cons_cons.mp hys).1 (hzlast x y rfl)
    | cons z zs =>
      obtain ⟨hxy, hys⟩ := List.isChain_cons_cons.mp hys
      obtain ⟨hxz, hzs⟩ := List.isChain_cons_cons.mp hzs
      obtain rfl := hR hxy hxz
      rw [List.getLast?_cons_cons] at hylast hzlast
      rw [ih hys hzs hylast hzlast]

/-- There is at most one link above a link: the parent of its call. -/
theorem Follows.next_eq (hl : a.ChildrenLinked) {next' : NodeId} (h : Follows a m next)
    (h' : Follows a m next') : next = next' := by
  obtain ⟨call, hc, -⟩ := h.object
  exact Option.some.inj ((h.parent hl hc).2.1.symm.trans (h'.parent hl hc).2.1)

/-- There is at most one link below a link: the callee of its object. -/
theorem Follows.link_eq {m' : NodeId} (h : Follows a m next) (h' : Follows a m' next) : m = m' := by
  obtain ⟨call, hc, ho⟩ := h.object
  obtain ⟨call', hc', ho'⟩ := h'.object
  obtain rfl := Option.some.inj (ho.symm.trans ho')
  have hm := callee?_eq_some_iff.mpr hc.callee
  have hm' := callee?_eq_some_iff.mpr hc'.callee
  exact Option.some.inj (hm.symm.trans hm')

theorem Spine.unique (hl : a.ChildrenLinked) {links links' : List NodeId} (hs : Spine a links)
    (hs' : Spine a links') (hm : m ∈ links) (hm' : m ∈ links') : links' = links := by
  obtain ⟨below, above, rfl⟩ := List.append_of_mem hm
  obtain ⟨below', above', rfl⟩ := List.append_of_mem hm'
  obtain ⟨hbelow, habove⟩ := List.isChain_split.mp hs.joined
  obtain ⟨hbelow', habove'⟩ := List.isChain_split.mp hs'.joined
  have hlast : ∀ below above : List NodeId,
      (below ++ m :: above).getLast? = (m :: above).getLast? := by
    intro below above
    rw [List.getLast?_append, List.getLast?_cons, Option.some_or]
  -- Turned around, what is below the link is a run from the link as well.
  have hturn : ∀ below : List NodeId, (below ++ [m]).IsChain (Follows a) →
      (m :: below.reverse).IsChain (flip (Follows a)) := by
    intro below h
    rwa [← List.reverse_concat, List.isChain_reverse]
  have hhead : ∀ below above : List NodeId,
      (m :: below.reverse).getLast? = (below ++ m :: above).head? := by
    intro below above
    rw [← List.reverse_concat, List.getLast?_reverse]
    cases below <;> rfl
  have hup : above = above' :=
    eq_of_isChain (R := Follows a) (fun h h' => h.next_eq hl h') habove habove'
      (fun l n h => hs.last l n ((hlast below above).trans h))
      (fun l n h => hs'.last l n ((hlast below' above').trans h))
  have hdown : below.reverse = below'.reverse :=
    eq_of_isChain (R := flip (Follows a)) (fun h h' => h.link_eq h') (hturn below hbelow)
      (hturn below' hbelow')
      (fun l n h => hs.first n l ((hhead below above).symm.trans h))
      (fun l n h => hs'.first n l ((hhead below' above').symm.trans h))
  rw [hup, List.reverse_injective hdown]

/-- A link lies on one spine, and each link of it has the spine's depth and its top; an access that is no
link has no depth, and is its own top. -/
theorem depth_same_along_chain (a : Arena) (hl : a.ChildrenLinked) (m : NodeId) :
    (∀ call, CalledBy a m call → ∃ links top, Spine a links ∧ m ∈ links ∧
      (∀ links', Spine a links' → m ∈ links' → links' = links) ∧ IsTop a links top ∧
      ∀ l ∈ links, depth a l = (spineDepth a links, top)) ∧
    ∀ object property computed optional,
      a.kind? m = some (.member object property computed optional) →
      (∀ call, ¬ CalledBy a m call) → depth a m = (0, m) := by
  refine ⟨fun call hc => ?_, fun _ _ _ _ _ hnot => ?_⟩
  · obtain ⟨links, hspine, hm⟩ := exists_spine hl hc
    obtain ⟨top, htop, -⟩ := depth_of_spine hl hspine hm
    refine ⟨links, top, hspine, hm, fun links' hs' hm' => hspine.unique hl hs' hm hm', htop, ?_⟩
    intro l hlinks
    obtain ⟨top', htop', hdepth⟩ := depth_of_spine hl hspine hlinks
    obtain ⟨last, hlast, hcall⟩ := htop
    obtain ⟨last', hlast', hcall'⟩ := htop'
    obtain rfl := Option.some.inj (hlast.symm.trans hlast')
    rw [hdepth, hcall.call_eq hcall']
  · apply depth_of_not_link
    by_contra hne
    obtain ⟨call, hcall⟩ := Option.ne_none_iff_exists'.mp hne
    exact hnot call (methodCall?_eq_some_iff.mp hcall)

/-- The tree of `f().b().c().d`. -/
def threeCalls : Arena where
  nodes := #[⟨.member 1 9 false false, default, none⟩, ⟨.call 2 [] false, default, some 0⟩,
    ⟨.member 3 8 false false, default, some 1⟩, ⟨.call 4 [] false, default, some 2⟩,
    ⟨.member 5 7 false false, default, some 3⟩, ⟨.call 6 [] false, default, some 4⟩,
    ⟨.identifier "f", default, some 5⟩, ⟨.identifier "b", default, some 4⟩,
    ⟨.identifier "c", default, some 2⟩, ⟨.identifier "d", default, some 0⟩]
  tokens := #[]
  root := 0

/-- Both links are on one spine of three calls; the last access is not called. -/
theorem depth_same_along_threeCalls :
    threeCalls.ChildrenLinked ∧
      (∃ links top, Spine threeCalls links ∧ 4 ∈ links ∧
        (∀ links', Spine threeCalls links' → 4 ∈ links' → links' = links) ∧
        IsTop threeCalls links top ∧
        ∀ l ∈ links, depth threeCalls l = (spineDepth threeCalls links, top)) ∧
      depth threeCalls 4 = (3, 1) ∧ depth threeCalls 2 = (3, 1) ∧ depth threeCalls 0 = (0, 0) := by
  have hl : threeCalls.ChildrenLinked := by decide
  have hlink : CalledBy threeCalls 4 3 := methodCall?_eq_some_iff.mp (by decide)
  have hnot : ∀ call, ¬ CalledBy threeCalls 0 call := by
    intro call hc
    cases hc.parent
  exact ⟨hl, (depth_same_along_chain threeCalls hl 4).1 3 hlink, by decide, by decide,
    (depth_same_along_chain threeCalls hl 0).2 1 9 false false rfl hnot⟩

end CallChain.Chain
