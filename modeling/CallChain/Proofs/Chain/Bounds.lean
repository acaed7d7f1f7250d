import CallChain.Proofs.Chain.Spine
import CallChain.Proofs.Directive
import CallChain.Proofs.Text.Boundary
import CallChain.Chain.Rule

/-!
# Checking without a step out of bounds

`Guarded.check` is the check with all its readings made explicit. A node, token or line is read at an
index that has to be there, a text is cut at bytes that have to be boundaries, and a walk has to end before
it has met as many nodes as there are; where one of these fails, the outcome is `none`. In an arena whose
nodes have larger numbers than the nodes that store them as children nothing of this happens, whatever
parents, spans and tokens it has.

One sum is left, that of a span's column and one, which a report makes of each place it names. It wraps in a
build without overflow checks and is a fault in a build with them. So the check fails if overflow is checked
and one of the reported spans starts in the last column of all, and in no other way.
-/
namespace CallChain

open CallChain.Syntax

/-- Children have larger numbers than the nodes that store them. Parents are any nodes of the arena. -/
structure Syntax.Arena.Forward (a : Arena) : Prop where
  child : ∀ {i c : Nat} {k : NodeKind}, a.kind? i = some k → c ∈ k.children → i < c ∧ c < a.size
  parent : ∀ {i p : Nat}, a.parent? i = some p → p < a.size

/-- Byte offset of the first `phrase`. -/
def Text.offsetOf? (phrase : List Char) : List Char → Option Nat
  | [] => if phrase.isEmpty then some 0 else none
  | c :: cs =>
    if phrase.isPrefixOf (c :: cs) then some 0 else (offsetOf? phrase cs).map (c.utf8Size + ·)

namespace Chain.Guarded

def methodCall (a : Arena) (id : NodeId) : Option (Option NodeId) := do
  match ← a.kind? id with
  | .member _ property computed _ =>
    if computed then return none
    else if !(← a.kind? property).isIdentifier then return none
    else
      match (← a.node? id).parent with
      | none => return none
      | some call =>
        match ← a.kind? call with
        | .call callee _ _ => return if callee = id then some call else none
        | _ => return none
  | _ => return none

def memberObject (a : Arena) (id : NodeId) : Option (Option NodeId) := do
  match ← a.kind? id with
  | .member object _ _ _ => return some object
  | _ => return none

/-- Where the walk up goes from a node. -/
def above (a : Arena) (id : NodeId) : Option (Option NodeId) := do
  match ← methodCall a id with
  | none => return none
  | some call =>
    match (← a.node? call).parent with
    | none => return none
    | some next => return if (← memberObject a next) = some call then some next else none

/-- Where the walk down goes from a node. -/
def below (a : Arena) (id : NodeId) : Option (Option NodeId) := do
  match ← methodCall a id with
  | none => return none
  | some _ =>
    match ← memberObject a id with
    | none => return none
    | some object =>
      match ← a.kind? object with
      | .call callee _ _ => return some callee
      | _ => return none

/-- The nodes that a walk meets, if it ends within so many of them. -/
def visit (step : NodeId → Option (Option NodeId)) : Nat → NodeId → Option (List NodeId)
  | 0, _ => none
  | n + 1, id => do
    match ← step id with
    | none => return [id]
    | some next => return id :: (← visit step n next)

def methodsAfter (a : Arena) (id : NodeId) : Option (Nat × NodeId) := do
  let calls := (← (← visit (above a) a.size id).mapM (methodCall a)).reduceOption
  return (calls.length, calls.getLast?.getD id)

def methodsBefore (a : Arena) (id : NodeId) : Option Nat := do
  return (← visit (below a) a.size id).length - 1

def isExempt (a : Arena) (top : NodeId) : Option Bool := do
  match (← a.node? top).parent with
  | none => return false
  | some parent =>
    match ← a.kind? parent with
    | .conditional .. => return true
    | .ifStatement test _ _ => return test = top
    | _ => return false

def span (a : Arena) (id : NodeId) : Option Span := do return (← a.node? id).span

def hasLineBreak (a : Arena) (link : NodeId) : Option Bool := do
  match ← memberObject a link with
  | none => return false
  | some object => return (← span a link).stopPos.line ≠ (← span a object).stopPos.line

/-- The tokens from `first` on are a slice, for which `first` must not be behind the last. -/
def operator (a : Arena) (object property : NodeId) : Option (Option Token) := do
  let first := a.tokenIndex (← span a object).stop
  let stop := (← span a property).start
  guard (first ≤ a.tokens.size)
  match ((a.tokens.toList.drop first).takeWhile (·.span.start < stop)).find? isAccess with
  | some t => return some t
  | none => return a.tokens[first]?

/-- A span that does not fit the text is no fault: it has the empty text. -/
def textOf (s : Source) (id : NodeId) : Option String := do return s.textIn (← span s.tree id)

def callText (s : Source) (link property : NodeId) : Option String := do
  let name ← textOf s property
  match (← s.tree.node? link).parent with
  | none => return name
  | some parent =>
    match ← s.tree.kind? parent with
    | .call callee arguments _ =>
      if callee = link then
        return name ++ "(" ++ ",".intercalate (← arguments.mapM (textOf s)) ++ ")"
      else return name
    | _ => return name

def finding (threshold : Nat) (s : Source) (link : NodeId) : Option (Option Finding) := do
  match ← s.tree.kind? link with
  | .member object property _ _ =>
    let (after, top) ← methodsAfter s.tree link
    let chainings := (← methodsBefore s.tree link) + after
    if chainings ≤ threshold then return none
    else if ← isExempt s.tree top then return none
    else if ← hasLineBreak s.tree link then return none
    else
      match ← operator s.tree object property with
      | none => return none
      | some operator =>
        let last ← span s.tree property
        return some {
          link, chainings
          callText := ← callText s link property
          nodeCode := ← textOf s top
          chain := ← span s.tree top
          operator := operator.span
          span := ⟨operator.span.start, last.stop, operator.span.startPos, last.stopPos⟩ }
  | _ => return none

/-- The text before and after the first `phrase`, cut out by its byte offset. -/
def splitFirst (phrase cs : List Char) : Option (Option (List Char × List Char)) := do
  match Text.offsetOf? phrase cs with
  | none => return none
  | some n =>
    return some (← Text.takeBytes? n cs, ← Text.dropBytes? (n + Text.byteLength phrase) cs)

def reason (tail : List Char) : Option (Option String) := do
  match "reason=".toList.isPrefixOf? (Text.trim tail) with
  | none => return none
  | some quoted =>
    match ['"'].isPrefixOf? (Text.trim quoted) with
    | none => return none
    | some opened => return (← splitFirst ['"'] opened).map fun (reason, _) => String.ofList reason

def directive (line : List Char) : Option (Option Directive) := do
  match ← splitFirst ['/', '/'] line with
  | none => return none
  | some (_, comment) =>
    match "chain-lint:".toList.isPrefixOf? (Text.trim comment) with
    | none => return none
    | some directive =>
      match "allow(".toList.isPrefixOf? (Text.trim directive) with
      | none => return none
      | some opened =>
        match ← splitFirst [')'] (Text.trim opened) with
        | none => return none
        | some (inside, tail) =>
          match Directive.readNames inside with
          | [] => return none
          | rules => return some { rules, reason := ← reason tail }

/-- Lines are counted from one; a number that is no line's is passed over. -/
def directiveOn (content : List Char) (n : Nat) (rule : String) : Option (Option Directive) := do
  let lines := Text.lines content
  if n = 0 || lines.length < n then return none
  else return (← directive (← lines[n - 1]?)).filter (·.names rule)

def allowance (content : List Char) (line : Nat) (rule : String) : Option Allowance := do
  match ← directiveOn content (line - 1) rule with
  | some directive => return .allowed directive.reason
  | none =>
    match ← directiveOn content line rule with
    | some directive => return .allowed directive.reason
    | none => return .denied

/-- The sum of machine words. If overflow is checked it has to be one itself, else it wraps. -/
def add (checked : Bool) (x y : Nat) : Option Nat :=
  if checked && Word.bound ≤ x + y then none else some (Word.add x y)

def location (checked : Bool) (file : Path) (s : Span) : Option Location := do
  let column ← add checked s.startPos.column 1
  return (Location.ofLineColumn file s.startPos.line column).withRange s.start s.length

/-- What is reported of a finding. -/
def violation (checked : Bool) (settings : Settings) (ctx : FileContext) (f : Finding) :
    Option (Option Violation) := do
  let location := location checked ctx.relativePath
  match ← allowance ctx.content.toList f.operator.startPos.line ruleName with
  | .denied =>
    return some (f.violationAt settings.severity (← location f.span) (← location f.operator)
      (← location f.chain))
  | .allowed none =>
    if settings.requireReason then return some (Finding.missingReasonAt (← location f.span))
    else return none
  | .allowed (some _) => return none

/-- What is reported of a member access. -/
def report (checked : Bool) (settings : Settings) (ctx : FileContext) (tree : Arena) (link : NodeId) :
    Option (Option Violation) := do
  match ← finding settings.threshold ⟨ctx.content.toList, tree⟩ link with
  | none => return none
  | some f => violation checked settings ctx f

def check (checked : Bool) (settings : Settings) (ctx : FileContext) (tree : Arena) :
    Option (List Violation) := do
  let reports ← tree.members.mapM (report checked settings ctx tree)
  return reports.reduceOption.mergeSort Violation.inText

end Chain.Guarded

namespace Syntax.Arena

variable {a : Arena} {i : Nat}

theorem exists_node?_of_lt (h : i < a.size) : ∃ node, a.node? i = some node :=
  ⟨_, Array.getElem?_eq_getElem h⟩

theorem exists_kind?_of_lt (h : i < a.size) : ∃ k, a.kind? i = some k := by
  obtain ⟨node, hn⟩ := exists_node?_of_lt h
  exact ⟨node.kind, by rw [kind?, hn]; rfl⟩

theorem forward_iff : a.Forward ↔ ∀ i < a.size,
    (∀ k ∈ a.kind? i, ∀ c ∈ k.children, i < c ∧ c < a.size) ∧ ∀ p ∈ a.parent? i, p < a.size := by
  constructor
  · intro h i _
    exact ⟨fun k hk c hc => h.child hk hc, fun p hp => h.parent hp⟩
  · intro h
    refine ⟨fun {i c k} hk hc => (h i (lt_size_of_kind? hk)).1 k hk c hc, fun {i p} hp => ?_⟩
    obtain ⟨node, hn, -⟩ := Option.bind_eq_some_iff.mp hp
    obtain ⟨hi, -⟩ := Array.getElem?_eq_some_iff.mp hn
    exact (h i hi).2 p hp

instance (a : Arena) : Decidable a.Forward := decidable_of_iff _ forward_iff.symm

end Syntax.Arena

namespace Chain

variable {a : Arena} {id : Nat}

/-- What is reported of a node. -/
def reportAt (settings : Settings) (ctx : FileContext) (a : Arena) (id : NodeId) : Option Violation :=
  (Finding.of? settings.threshold ⟨ctx.content.toList, a⟩ id).bind (Finding.report? settings ctx)

/-- The spans whose places a report on a finding names. -/
def Finding.places (settings : Settings) (ctx : FileContext) (f : Finding) : List Span :=
  match Allowance.find ctx.content f.operator.startPos.line ruleName with
  | .denied => [f.span, f.operator, f.chain]
  | .allowed none => if settings.requireReason then [f.span] else []
  | .allowed (some _) => []

/-- The spans whose places are named by what is reported of a tree. -/
def reportedSpans (settings : Settings) (ctx : FileContext) (a : Arena) : List Span :=
  (Finding.all settings.threshold ⟨ctx.content.toList, a⟩).flatMap (Finding.places settings ctx)

/-- Where the walk up goes from a node. -/
def above? (a : Arena) (id : NodeId) : Option NodeId :=
  (methodCall? a id).bind fun call =>
    (a.parent? call).filter fun next => memberObject? a next = some call

/-- Where the walk down goes from a node. -/
def below? (a : Arena) (id : NodeId) : Option NodeId :=
  (methodCall? a id).bind fun _ => (memberObject? a id).bind (callee? a)

/-- The nodes that a walk meets from one of them to its end. -/
inductive Visits (step : NodeId → Option NodeId) : NodeId → List NodeId → Prop
  | stop {i : NodeId} (h : step i = none) : Visits step i [i]
  | go {i j : NodeId} {seen : List NodeId} (h : step i = some j) (hrest : Visits step j seen) :
      Visits step i (i :: seen)

theorem callsAbove_of_visits {seen : List NodeId} (h : Visits (above? a) id seen) {fuel : Nat}
    (hfuel : seen.length ≤ fuel) : callsAbove a fuel id = seen.filterMap (methodCall? a) := by
  induction h generalizing fuel with
  | @stop i hstop =>
    obtain ⟨n, rfl⟩ := Nat.exists_eq_add_one.mpr (Nat.lt_of_lt_of_le Nat.zero_lt_one hfuel)
    rw [callsAbove]
    cases hcall : methodCall? a i with
    | none => simp [hcall]
    | some call =>
      rw [above?, hcall, Option.bind_some] at hstop
      simp [hcall, hstop]
  | @go i j seen hgo _ ih =>
    obtain ⟨n, rfl⟩ := Nat.exists_eq_add_one.mpr (Nat.lt_of_lt_of_le (Nat.succ_pos _) hfuel)
    obtain ⟨call, hcall, hnext⟩ := Option.bind_eq_some_iff.mp hgo
    have hrest := ih (Nat.le_of_succ_le_succ hfuel)
    rw [callsAbove, List.filterMap_cons_some hcall, hcall]
    simp only [hnext, hrest]

theorem linksBelow_of_visits {seen : List NodeId} (h : Visits (below? a) id seen) {fuel : Nat}
    (hfuel : seen.length ≤ fuel) : linksBelow a fuel id = seen.dropLast := by
  induction h generalizing fuel with
  | @stop i hstop =>
    obtain ⟨n, rfl⟩ := Nat.exists_eq_add_one.mpr (Nat.lt_of_lt_of_le Nat.zero_lt_one hfuel)
    rw [linksBelow]
    cases hcall : methodCall? a i with
    | none => simp
    | some call =>
      rw [below?, hcall, Option.bind_some] at hstop
      simp [hstop]
  | @go i j seen hgo hrest ih =>
    obtain ⟨n, rfl⟩ := Nat.exists_eq_add_one.mpr (Nat.lt_of_lt_of_le (Nat.succ_pos _) hfuel)
    obtain ⟨call, hcall, hnext⟩ := Option.bind_eq_some_iff.mp hgo
    have hbelow := ih (Nat.le_of_succ_le_succ hfuel)
    have hne : seen ≠ [] := by cases hrest <;> simp
    rw [linksBelow, hcall, List.dropLast_cons_of_ne_nil hne]
    simp [hnext, hbelow]

namespace Visits

variable {step : NodeId → Option NodeId} {seen : List NodeId}

/-- A walk along which a number below `bound` falls ends before it has met `bound` nodes. -/
theorem exists_of_measure (inside : Nat → Prop) (measure : Nat → Nat)
    (hstep : ∀ {i j : Nat}, inside i → step i = some j → inside j ∧ measure j < measure i)
    {i : Nat} (hi : inside i) :
    ∃ seen, Visits step i seen ∧ seen.length ≤ measure i + 1 ∧ ∀ j ∈ seen, inside j := by
  induction hm : measure i using Nat.strong_induction_on generalizing i with
  | h m ih =>
    cases hnext : step i with
    | none =>
      refine ⟨[i], .stop hnext, by simp, ?_⟩
      intro j hj
      rwa [List.mem_singleton.mp hj]
    | some j =>
      obtain ⟨hj, hlt⟩ := hstep hi hnext
      obtain ⟨seen, hseen, hlength, hinside⟩ := ih (measure j) (hm ▸ hlt) hj rfl
      refine ⟨i :: seen, .go hnext hseen, ?_, ?_⟩
      · rw [List.length_cons]
        omega
      · intro k hk
        rcases List.mem_cons.mp hk with rfl | hk
        · exact hi
        · exact hinside k hk

/-- What holds of each step holds of any two nodes that are met one after the other. -/
theorem pairwise {r : Nat → Nat → Prop} (htrans : ∀ {i j k : Nat}, r i j → r j k → r i k)
    (hstep : ∀ {i j : Nat}, step i = some j → r i j) (h : Visits step id seen) : seen.Pairwise r := by
  induction h with
  | stop _ => exact List.pairwise_singleton _ _
  | @go i j seen hgo hrest ih =>
    refine List.pairwise_cons.mpr ⟨fun k hk => ?_, ih⟩
    have hij := hstep hgo
    cases hrest with
    | stop _ =>
      obtain rfl := List.mem_singleton.mp hk
      exact hij
    | go _ _ =>
      rcases List.mem_cons.mp hk with rfl | hk
      · exact hij
      · exact htrans hij ((List.pairwise_cons.mp ih).1 k hk)

/-- A guarded walk meets the same nodes if none of its steps fails. -/
theorem guarded {strict : NodeId → Option (Option NodeId)} (h : Visits step id seen)
    (hstrict : ∀ i ∈ seen, strict i = some (step i)) {fuel : Nat} (hfuel : seen.length ≤ fuel) :
    Guarded.visit strict fuel id = some seen := by
  induction h generalizing fuel with
  | @stop i hstop =>
    obtain ⟨n, rfl⟩ := Nat.exists_eq_add_one.mpr (Nat.lt_of_lt_of_le Nat.zero_lt_one hfuel)
    have hi := hstrict i List.mem_cons_self
    simp [Guarded.visit, hi, hstop]
  | @go i j seen hgo hrest ih =>
    obtain ⟨n, rfl⟩ := Nat.exists_eq_add_one.mpr (Nat.lt_of_lt_of_le (Nat.succ_pos _) hfuel)
    have hi := hstrict i List.mem_cons_self
    have hseen := ih (fun k hk => hstrict k (List.mem_cons_of_mem i hk)) (Nat.le_of_succ_le_succ hfuel)
    simp [Guarded.visit, hi, hgo, hseen]

end Visits

section Forward

variable (ha : a.Forward)
include ha

theorem above?_lt {i j : Nat} (h : above? a i = some j) : j < i := by
  obtain ⟨call, hcall, hnext⟩ := Option.bind_eq_some_iff.mp h
  obtain ⟨arguments, optional, hk⟩ := (methodCall?_eq_some_iff.mp hcall).callee
  obtain ⟨-, hobject⟩ := Option.filter_eq_some_iff.mp hnext
  obtain ⟨property, computed, opt, hj⟩ := memberObject?_eq_some_iff.mp (decide_eq_true_eq.mp hobject)
  have hup := (ha.child hk List.mem_cons_self).1
  have hnextUp := (ha.child hj List.mem_cons_self).1
  omega

theorem below?_lt {i j : Nat} (h : below? a i = some j) : i < j ∧ j < a.size := by
  obtain ⟨call, -, hnext⟩ := Option.bind_eq_some_iff.mp h
  obtain ⟨object, hobject, hcallee⟩ := Option.bind_eq_some_iff.mp hnext
  obtain ⟨property, computed, optional, hi⟩ := memberObject?_eq_some_iff.mp hobject
  obtain ⟨arguments, opt, hk⟩ := callee?_eq_some_iff.mp hcallee
  have hdown := (ha.child hi List.mem_cons_self).1
  have hnextDown := ha.child hk List.mem_cons_self
  omega

theorem exists_visits_above (hid : id < a.size) :
    ∃ seen, Visits (above? a) id seen ∧ seen.length ≤ a.size ∧ seen.Pairwise (· > ·) ∧
      ∀ i ∈ seen, i < a.size := by
  obtain ⟨seen, hseen, hlength, hinside⟩ :=
    Visits.exists_of_measure (· < a.size) (fun i => i)
      (fun hi h => ⟨(above?_lt ha h).trans hi, above?_lt ha h⟩) hid
  refine ⟨seen, hseen, by omega, ?_, hinside⟩
  exact hseen.pairwise (fun hij hjk => hjk.trans hij) (above?_lt ha)

theorem exists_visits_below (hid : id < a.size) :
    ∃ seen, Visits (below? a) id seen ∧ seen.length ≤ a.size ∧ seen.Pairwise (· < ·) ∧
      ∀ i ∈ seen, i < a.size := by
  have hfalls : ∀ {i j : Nat}, i < a.size → below? a i = some j →
      j < a.size ∧ a.size - 1 - j < a.size - 1 - i := by
    intro i j hi h
    have hlt := below?_lt ha h
    omega
  obtain ⟨seen, hseen, hlength, hinside⟩ :=
    Visits.exists_of_measure (· < a.size) (fun i => a.size - 1 - i) hfalls hid
  refine ⟨seen, hseen, by omega, ?_, hinside⟩
  exact hseen.pairwise Nat.lt_trans fun h => (below?_lt ha h).1

namespace Guarded

theorem methodCall_eq (hid : id < a.size) : methodCall a id = some (methodCall? a id) := by
  obtain ⟨node, hn⟩ := Arena.exists_node?_of_lt hid
  have hk : a.kind? id = some node.kind := by rw [Arena.kind?, hn]; rfl
  have hp : a.parent? id = node.parent := by rw [Arena.parent?, hn]; rfl
  rw [methodCall, methodCall?, hk]
  cases hkind : node.kind with
  | member object property computed optional =>
    rw [hkind] at hk
    have hin : property < a.size := (ha.child hk (by simp [NodeKind.children])).2
    obtain ⟨k, hproperty⟩ := Arena.exists_kind?_of_lt hin
    have hname : a.isIdentifier property = k.isIdentifier := by rw [Arena.isIdentifier, hproperty]; rfl
    cases computed with
    | true => simp
    | false =>
      cases hplain : k.isIdentifier with
      | false => simp [hproperty, hname, hplain]
      | true =>
        cases hparent : node.parent with
        | none => simp [hproperty, hname, hplain, hn, hp, hparent]
        | some call =>
          obtain ⟨kc, hkc⟩ := Arena.exists_kind?_of_lt (ha.parent (hp.trans hparent))
          cases kc <;>
            simp [hproperty, hname, hplain, hn, hp, hparent, hkc, callee?, Option.filter]
  | _ => simp

omit ha in
theorem memberObject_eq (hid : id < a.size) : memberObject a id = some (memberObject? a id) := by
  obtain ⟨k, hk⟩ := Arena.exists_kind?_of_lt hid
  rw [memberObject, memberObject?, hk]
  cases k <;> rfl

theorem above_eq (hid : id < a.size) : above a id = some (above? a id) := by
  rw [above, methodCall_eq ha hid, above?]
  cases hcall : methodCall? a id with
  | none => rfl
  | some call =>
    obtain ⟨arguments, optional, hk⟩ := (methodCall?_eq_some_iff.mp hcall).callee
    obtain ⟨node, hn⟩ := Arena.exists_node?_of_lt (Arena.lt_size_of_kind? hk)
    have hp : a.parent? call = node.parent := by rw [Arena.parent?, hn]; rfl
    cases hparent : node.parent with
    | none => simp [hn, hp, hparent]
    | some next =>
      have hnext := memberObject_eq (ha.parent (hp.trans hparent))
      simp [hn, hp, hparent, hnext, Option.filter]

theorem below_eq (hid : id < a.size) : below a id = some (below? a id) := by
  rw [below, methodCall_eq ha hid, memberObject_eq hid, below?]
  cases methodCall? a id with
  | none => rfl
  | some call =>
    cases hobject : memberObject? a id with
    | none => rfl
    | some object =>
      obtain ⟨property, computed, optional, hk⟩ := memberObject?_eq_some_iff.mp hobject
      obtain ⟨k, ho⟩ := Arena.exists_kind?_of_lt (ha.child hk List.mem_cons_self).2
      cases k <;> simp [ho, callee?]

theorem visit_above_eq {seen : List NodeId} (h : Visits (above? a) id seen)
    (hlength : seen.length ≤ a.size) (hin : ∀ i ∈ seen, i < a.size) :
    visit (above a) a.size id = some seen :=
  h.guarded (fun i hi => above_eq ha (hin i hi)) hlength

theorem visit_below_eq {seen : List NodeId} (h : Visits (below? a) id seen)
    (hlength : seen.length ≤ a.size) (hin : ∀ i ∈ seen, i < a.size) :
    visit (below a) a.size id = some seen :=
  h.guarded (fun i hi => below_eq ha (hin i hi)) hlength

omit ha in
/-- Readings that all succeed are collected. -/
theorem mapM_eq_some {α β : Type} {f : α → Option β} {g : α → β} {xs : List α}
    (h : ∀ x ∈ xs, f x = some (g x)) : xs.mapM f = some (xs.map g) := by
  induction xs with
  | nil => rfl
  | cons x xs ih =>
    rw [List.mapM_cons, h x List.mem_cons_self, ih fun y hy => h y (List.mem_cons_of_mem x hy)]
    rfl

omit ha in
theorem reduceOption_map {α β : Type} (f : α → Option β) (xs : List α) :
    (xs.map f).reduceOption = xs.filterMap f := by
  rw [List.reduceOption, List.filterMap_map]
  rfl

theorem methodsAfter_eq (hid : id < a.size) : methodsAfter a id = some (Chain.methodsAfter a id) := by
  obtain ⟨seen, hseen, hlength, -, hin⟩ := exists_visits_above ha hid
  have hcalls : seen.mapM (methodCall a) = some (seen.map (methodCall? a)) :=
    mapM_eq_some fun i hi => methodCall_eq ha (hin i hi)
  have hwalk := callsAbove_of_visits hseen hlength
  rw [methodsAfter, visit_above_eq ha hseen hlength hin, Chain.methodsAfter, hwalk]
  simp only [Option.bind_eq_bind, Option.bind_some, hcalls, reduceOption_map]
  rfl

theorem methodsBefore_eq (hid : id < a.size) :
    methodsBefore a id = some (Chain.methodsBefore a id) := by
  obtain ⟨seen, hseen, hlength, -, hin⟩ := exists_visits_below ha hid
  have hwalk := linksBelow_of_visits hseen hlength
  rw [methodsBefore, visit_below_eq ha hseen hlength hin, Chain.methodsBefore, hwalk,
    List.length_dropLast]
  rfl

omit ha in
theorem lt_size_of_mem_callsAbove {fuel : Nat} {call : NodeId} (h : call ∈ callsAbove a fuel id) :
    call < a.size := by
  induction fuel generalizing id with
  | zero => cases h
  | succ fuel ih =>
    rw [callsAbove] at h
    split at h
    · cases h
    · next outer houter =>
      rcases List.mem_cons.mp h with rfl | h
      · obtain ⟨arguments, optional, hk⟩ := (methodCall?_eq_some_iff.mp houter).callee
        exact Arena.lt_size_of_kind? hk
      · split at h
        · exact ih h
        · cases h

omit ha in
/-- The outermost call is a node of the arena. -/
theorem top_lt (hid : id < a.size) : (Chain.methodsAfter a id).2 < a.size := by
  rw [Chain.methodsAfter]
  cases hlast : (callsAbove a a.size id).getLast? with
  | none => simpa [hlast] using hid
  | some call => simpa [hlast] using lt_size_of_mem_callsAbove (List.mem_of_getLast? hlast)

theorem isExempt_eq (hid : id < a.size) : isExempt a id = some (Chain.isExempt a id) := by
  obtain ⟨node, hn⟩ := Arena.exists_node?_of_lt hid
  have hp : a.parent? id = node.parent := by rw [Arena.parent?, hn]; rfl
  rw [isExempt, Chain.isExempt, hn, hp]
  cases hparent : node.parent with
  | none => simp [hparent]
  | some parent =>
    obtain ⟨k, hk⟩ := Arena.exists_kind?_of_lt (ha.parent (hp.trans hparent))
    cases k <;> simp [hparent, hk]

omit ha in
theorem span_eq (hid : id < a.size) : span a id = some (a.span id) := by
  obtain ⟨node, hn⟩ := Arena.exists_node?_of_lt hid
  rw [span, Arena.span, hn]
  rfl

theorem hasLineBreak_eq (hid : id < a.size) :
    hasLineBreak a id = some (Chain.hasLineBreak a id) := by
  rw [hasLineBreak, memberObject_eq hid, Chain.hasLineBreak]
  cases hobject : memberObject? a id with
  | none => rfl
  | some object =>
    obtain ⟨property, computed, optional, hk⟩ := memberObject?_eq_some_iff.mp hobject
    have ho := span_eq (ha.child hk List.mem_cons_self).2
    simp [span_eq hid, ho]

omit ha in
/-- The search by halves ends inside the array or right behind it, sorted or not. -/
theorem partitionFrom_le {xs : Array Token} {p : Token → Bool} {lo hi : Nat} (h : lo ≤ hi) :
    partitionFrom xs p lo hi ≤ hi := by
  fun_induction partitionFrom xs p lo hi with
  | case1 lo hi hlt mid x hx hpx ih => exact ih (by omega)
  | case2 lo hi hlt mid x hx hpx ih =>
    have hle := ih (by omega)
    omega
  | case3 => exact h
  | case4 => exact h

omit ha in
theorem operator_eq {object property : NodeId} (ho : object < a.size) (hp : property < a.size) :
    operator a object property = some (operator? a object property) := by
  have hfirst : a.tokenIndex (a.span object).stop ≤ a.tokens.size := partitionFrom_le (Nat.zero_le _)
  rw [operator, span_eq ho, span_eq hp, operator?, Arena.tokenAfter?]
  simp only [Option.bind_eq_bind, Option.bind_some, guard, hfirst, if_true, Option.pure_def]
  split
  · next t ht => rw [ht]; rfl
  · next ht => rw [ht]; rfl

omit ha in
theorem textOf_eq {text : List Char} (hid : id < a.size) :
    textOf ⟨text, a⟩ id = some (Source.textOf ⟨text, a⟩ id) := by
  rw [textOf, span_eq hid]
  rfl

theorem callText_eq {text : List Char} {property : NodeId} (hid : id < a.size)
    (hp : property < a.size) :
    callText ⟨text, a⟩ id property = some (Chain.callText ⟨text, a⟩ id property) := by
  obtain ⟨node, hn⟩ := Arena.exists_node?_of_lt hid
  have hparent : a.parent? id = node.parent := by rw [Arena.parent?, hn]; rfl
  rw [callText, textOf_eq hp, Chain.callText, hparent]
  simp only [hn, Option.bind_eq_bind, Option.bind_some]
  cases hnode : node.parent with
  | none => rfl
  | some parent =>
    have hin := ha.parent (hparent.trans hnode)
    obtain ⟨k, hk⟩ := Arena.exists_kind?_of_lt hin
    simp only [hk, Option.bind_some]
    cases k with
    | call callee arguments optional =>
      have harguments : arguments.mapM (textOf ⟨text, a⟩) =
          some (arguments.map (Source.textOf ⟨text, a⟩)) :=
        mapM_eq_some fun c hc => textOf_eq (ha.child hk (List.mem_cons_of_mem callee hc)).2
      simp only [harguments]
      split <;> rfl
    | _ => rfl

theorem finding_eq {threshold : Nat} {text : List Char} (hid : id < a.size) :
    finding threshold ⟨text, a⟩ id = some (Finding.of? threshold ⟨text, a⟩ id) := by
  obtain ⟨k, hk⟩ := Arena.exists_kind?_of_lt hid
  rw [finding, Finding.of?]
  simp only [hk, Option.bind_eq_bind, Option.bind_some]
  cases k with
  | member object property computed optional =>
    have ho : object < a.size := (ha.child hk (List.mem_cons_self)).2
    have hp : property < a.size := (ha.child hk (by simp [NodeKind.children])).2
    have htop := top_lt hid
    simp only [depth, methodsAfter_eq ha hid, methodsBefore_eq ha hid, isExempt_eq ha htop,
      hasLineBreak_eq ha hid, operator_eq ho hp, span_eq hp, span_eq htop, callText_eq ha hid hp,
      textOf_eq htop, Option.bind_some]
    by_cases hle : Chain.methodsBefore a id + (Chain.methodsAfter a id).1 ≤ threshold
    · simp [hle]
    · by_cases hexempt : Chain.isExempt a (Chain.methodsAfter a id).2 = true
      · simp [hexempt]
      · by_cases hbreak : Chain.hasLineBreak a id = true
        · simp [hbreak]
        · cases operator? a object property <;> simp [hle, hexempt, hbreak]
  | _ => rfl

end Guarded

end Forward

end Chain

namespace Text

/-- The offset of a phrase is the length of what stands before it. -/
theorem offsetOf?_eq (phrase cs : List Char) :
    offsetOf? phrase cs = (splitFirst? phrase cs).map fun cut => byteLength cut.1 := by
  induction cs with
  | nil => cases phrase <;> rfl
  | cons c cs ih =>
    rw [offsetOf?, splitFirst?, ← List.isSome_isPrefixOf?_eq_isPrefixOf, ih]
    cases phrase.isPrefixOf? (c :: cs) with
    | some behind => rfl
    | none => cases splitFirst? phrase cs <;> rfl

end Text

namespace Chain.Guarded

theorem splitFirst_eq (phrase cs : List Char) :
    splitFirst phrase cs = some (Text.splitFirst? phrase cs) := by
  rw [splitFirst, Text.offsetOf?_eq]
  cases hsplit : Text.splitFirst? phrase cs with
  | none => rfl
  | some cut =>
    obtain ⟨before, rest⟩ := cut
    have hcs := Text.eq_append_of_splitFirst? hsplit
    have htake : Text.takeBytes? (Text.byteLength before) cs = some before := by
      rw [hcs, Text.takeBytes?_append]
    have hdrop : Text.dropBytes? (Text.byteLength before + Text.byteLength phrase) cs = some rest := by
      rw [hcs, ← Text.byteLength_append, ← List.append_assoc, Text.dropBytes?_append]
    simp [htake, hdrop]

theorem reason_eq (tail : List Char) : reason tail = some (Directive.readReason tail) := by
  rw [reason, Directive.readReason]
  cases "reason=".toList.isPrefixOf? (Text.trim tail) with
  | none => rfl
  | some quoted =>
    simp only [Option.bind_eq_bind, Option.bind_some]
    cases ['"'].isPrefixOf? (Text.trim quoted) with
    | none => rfl
    | some opened =>
      simp only [splitFirst_eq, Option.bind_some]
      cases Text.splitFirst? ['"'] opened <;> rfl

theorem directive_eq (line : List Char) : directive line = some (Directive.ofLine? line) := by
  rw [directive, Directive.ofLine?, splitFirst_eq]
  cases Text.splitFirst? ['/', '/'] line with
  | none => rfl
  | some cut =>
    simp only [Option.bind_eq_bind, Option.bind_some]
    cases "chain-lint:".toList.isPrefixOf? (Text.trim cut.2) with
    | none => rfl
    | some rest =>
      simp only [Option.bind_some]
      cases "allow(".toList.isPrefixOf? (Text.trim rest) with
      | none => rfl
      | some opened =>
        simp only [splitFirst_eq, Option.bind_some]
        cases Text.splitFirst? [')'] (Text.trim opened) with
        | none => rfl
        | some parts =>
          simp only [Option.bind_some, reason_eq]
          cases Directive.readNames parts.1 <;> rfl

theorem directiveOn_eq (content : List Char) (n : Nat) (rule : String) :
    directiveOn content n rule = some (Directive.onLine? content n rule) := by
  rw [directiveOn, Directive.onLine?, Text.line?]
  by_cases hn : n = 0
  · simp [hn]
  · by_cases hlines : (Text.lines content).length < n
    · have hnone : (Text.lines content)[n - 1]? = none := List.getElem?_eq_none (by omega)
      simp [hn, hlines, hnone]
    · obtain ⟨line, hline⟩ : ∃ line, (Text.lines content)[n - 1]? = some line :=
        ⟨_, List.getElem?_eq_getElem (by omega)⟩
      simp [hn, hlines, hline, directive_eq]

theorem allowance_eq (content : String) (line : Nat) (rule : String) :
    allowance content.toList line rule = some (Allowance.find content line rule) := by
  rw [allowance, directiveOn_eq, directiveOn_eq, Allowance.find]
  simp only [Option.bind_eq_bind, Option.bind_some]
  cases Directive.onLine? content.toList (line - 1) rule with
  | some directive => rfl
  | none => cases Directive.onLine? content.toList line rule <;> rfl

/-- The column of a span can be counted from one. -/
def fits (checked : Bool) (s : Span) : Bool := !(checked && Word.bound ≤ s.startPos.column + 1)

theorem location_eq (checked : Bool) (file : Path) (s : Span) :
    location checked file s = if fits checked s then some (.ofSpan file s) else none := by
  rw [location, add, fits]
  cases checked && decide (Word.bound ≤ s.startPos.column + 1) <;> rfl

/-- A report fails only at a place that it names. -/
theorem violation_eq (checked : Bool) (settings : Settings) (ctx : FileContext) (f : Finding) :
    violation checked settings ctx f =
      if (f.places settings ctx).all (fits checked) then some (f.report? settings ctx) else none := by
  simp only [violation, allowance_eq, location_eq, Option.bind_eq_bind, Option.bind_some]
  unfold Finding.places Finding.report?
  cases Allowance.find ctx.content f.operator.startPos.line ruleName with
  | denied =>
    cases hspan : fits checked f.span <;> cases hoperator : fits checked f.operator <;>
      cases hchain : fits checked f.chain <;>
      simp [hspan, hoperator, hchain, Finding.toViolation]
  | allowed reason =>
    cases reason with
    | some _ => rfl
    | none =>
      cases settings.requireReason <;> cases hspan : fits checked f.span <;>
        simp [hspan, Finding.missingReason]

theorem report_eq {a : Arena} (ha : a.Forward) (checked : Bool) (settings : Settings)
    (ctx : FileContext) {id : Nat} (hid : id < a.size) :
    report checked settings ctx a id =
      if (Finding.of? settings.threshold ⟨ctx.content.toList, a⟩ id).all fun f =>
          (f.places settings ctx).all (fits checked)
      then some (reportAt settings ctx a id) else none := by
  rw [report, finding_eq ha hid, reportAt]
  cases Finding.of? settings.threshold ⟨ctx.content.toList, a⟩ id with
  | none => rfl
  | some f => exact violation_eq checked settings ctx f

/-- Readings that succeed or fail one by one. -/
theorem mapM_eq_ite {α β : Type} {f : α → Option β} {g : α → β} {p : α → Bool} {xs : List α}
    (h : ∀ x ∈ xs, f x = if p x then some (g x) else none) :
    xs.mapM f = if xs.all p then some (xs.map g) else none := by
  induction xs with
  | nil => rfl
  | cons x xs ih =>
    rw [List.mapM_cons, h x List.mem_cons_self, ih fun y hy => h y (List.mem_cons_of_mem x hy),
      List.all_cons]
    cases p x <;> cases xs.all p <;> rfl

end Chain.Guarded

namespace Chain

variable {a : Arena}

theorem check_eq_sorted (settings : Settings) (ctx : FileContext) (a : Arena) :
    check settings ctx a =
      (a.members.filterMap (reportAt settings ctx a)).mergeSort Violation.inText := by
  rw [check, Finding.all, List.filterMap_filterMap]
  rfl

theorem lt_size_of_mem_members {id : Nat} (h : id ∈ a.members) : id < a.size :=
  List.mem_range.mp (List.mem_of_mem_filter h)

/-- The check fails only at a place that is reported. -/
theorem Guarded.check_eq (ha : a.Forward) (checked : Bool) (settings : Settings) (ctx : FileContext) :
    Guarded.check checked settings ctx a =
      if (reportedSpans settings ctx a).all (fits checked) then some (Chain.check settings ctx a)
      else none := by
  have hreports := mapM_eq_ite fun id hid =>
    report_eq ha checked settings ctx (lt_size_of_mem_members hid)
  have hall : (reportedSpans settings ctx a).all (fits checked) = a.members.all fun id =>
      (Finding.of? settings.threshold ⟨ctx.content.toList, a⟩ id).all fun f =>
        (f.places settings ctx).all (fits checked) := by
    rw [reportedSpans, List.all_flatMap, Finding.all, List.all_filterMap]
    rfl
  rw [Guarded.check, hreports, hall, check_eq_sorted, ← reduceOption_map]
  split <;> rfl

theorem mem_tokens_of_operator? {object property : NodeId} {t : Token}
    (h : operator? a object property = some t) : t ∈ a.tokens := by
  rcases Option.or_eq_some_iff.mp h with hfind | ⟨-, hafter⟩
  · have hmem := (List.takeWhile_sublist _).mem (List.mem_of_find?_eq_some hfind)
    exact Array.mem_toList_iff.mp (List.mem_of_mem_drop hmem)
  · exact Array.mem_of_getElem? hafter

/-- A finding starts at a token, and its chain is a node. -/
theorem Finding.spans_of_of? {threshold : Nat} {text : List Char} {id : NodeId} {f : Finding}
    (h : Finding.of? threshold ⟨text, a⟩ id = some f) :
    (∃ t ∈ a.tokens, f.operator = t.span ∧ f.span.startPos = t.span.startPos) ∧
      f.chain = a.span (depth a id).2 := by
  unfold Finding.of? at h
  split at h
  · dsimp only at h
    split at h
    · cases h
    · obtain ⟨t, ht, rfl⟩ := Option.map_eq_some_iff.mp h
      exact ⟨⟨t, mem_tokens_of_operator? ht, rfl, rfl⟩, rfl⟩
  · cases h

/-- Reports name places at which tokens and nodes start. -/
theorem startPos_of_mem_reportedSpans {settings : Settings} {ctx : FileContext} {s : Span}
    (h : s ∈ reportedSpans settings ctx a) :
    (∃ t ∈ a.tokens, s.startPos = t.span.startPos) ∨
      ∃ node ∈ a.nodes, s.startPos = node.span.startPos := by
  obtain ⟨f, hf, hs⟩ := List.mem_flatMap.mp h
  obtain ⟨id, hid, hof⟩ := List.mem_filterMap.mp hf
  obtain ⟨⟨t, ht, hoperator, hspan⟩, hchain⟩ := Finding.spans_of_of? hof
  have hplace : s = f.span ∨ s = f.operator ∨ s = f.chain := by
    unfold Finding.places at hs
    split at hs
    · simpa using hs
    · split at hs
      · exact Or.inl (List.mem_singleton.mp hs)
      · cases hs
    · cases hs
  rcases hplace with rfl | rfl | rfl
  · exact Or.inl ⟨t, ht, hspan⟩
  · exact Or.inl ⟨t, ht, by rw [hoperator]⟩
  · obtain ⟨node, hn⟩ := Arena.exists_node?_of_lt (Guarded.top_lt (lt_size_of_mem_members hid))
    refine Or.inr ⟨node, Array.mem_of_getElem? hn, ?_⟩
    rw [hchain]
    simp [depth, Arena.span, hn]

/-- An arena in which two accesses have the wrong parents, spans are inverted or behind the text, and
the only token starts inside a character. -/
def tangled : Arena where
  nodes := #[
    ⟨.member 1 2 false false, ⟨9, 2, ⟨1, 9⟩, ⟨1, 2⟩⟩, some 3⟩,
    ⟨.call 3 [] false, ⟨0, 70, ⟨1, 0⟩, ⟨5, 0⟩⟩, some 0⟩,
    ⟨.identifier "m", ⟨3, 1, ⟨1, 3⟩, ⟨1, 1⟩⟩, some 2⟩,
    ⟨.member 4 5 false false, ⟨0, 1, ⟨1, 0⟩, ⟨1, 1⟩⟩, some 1⟩,
    ⟨.identifier "b", ⟨8, 0, ⟨1, 0⟩, ⟨1, 0⟩⟩, some 0⟩,
    ⟨.identifier "n", ⟨1, 1, ⟨1, 1⟩, ⟨1, 1⟩⟩, none⟩]
  tokens := #[⟨".", ⟨1, 0, ⟨7, 1⟩, ⟨1, 0⟩⟩⟩]
  root := 4

/-- The tree of `f().b()` with its dot in the last column of all. -/
def lastColumn : Arena :=
  { twoCalls with
    tokens := twoCalls.tokens.modify 3 fun t =>
      { t with span := { t.span with startPos := ⟨1, Word.bound - 1⟩ } } }

end Chain

end CallChain
