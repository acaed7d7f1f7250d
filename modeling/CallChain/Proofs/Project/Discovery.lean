import CallChain.Project
import CallChain.Proofs.FileTree

/-!
# The files that are found

The walk leads to each file by one path: the files to look at have strictly ascending paths, and no two of
them are the same file.
-/
namespace CallChain

theorem FileTree.isName_of_mem_names {t : FileTree} (h : t.Named) {place : Place} {s : String}
    (hs : s ∈ t.names place) : Path.IsName s := by
  rw [names, List.mem_eraseDups, List.mem_filterMap] at hs
  obtain ⟨⟨p, e⟩, he, hs⟩ := hs
  simp only at hs
  split at hs
  · exact h (p, e) he s (List.mem_of_getElem? hs)
  · cases hs

theorem nodup_eraseDups (names : List String) : names.eraseDups.Nodup := by
  induction hlen : names.length using Nat.strong_induction_on generalizing names with
  | h n ih =>
    cases names with
    | nil => simp
    | cons s names =>
      rw [List.eraseDups_cons, List.nodup_cons]
      refine ⟨by simp, ih _ ?_ _ rfl⟩
      rw [← hlen, List.length_cons]
      exact Nat.lt_succ_of_le (List.length_filter_le _ _)

namespace Linter

variable {l : Linter} {t : FileTree}

/-- Two paths lead to different files and are not the same path in another spelling. -/
def Apart (t : FileTree) (p q : Path) : Prop :=
  p.components ≠ q.components ∧ t.resolve p ≠ t.resolve q

theorem Apart.symm {p q : Path} (h : Apart t p q) : Apart t q p := ⟨h.1.symm, h.2.symm⟩

/-- The path adds names to that of a directory, and leads to the place that they give below it. -/
def LeadsBelow (t : FileTree) (place : Place) (path : Path) (names : List String) (p : Path) : Prop :=
  p.components = path.components ++ names.map .name ∧ t.resolve p = some (place ++ names)

/-- The first name behind the directory's path tells two files apart. -/
theorem apart_of_names {place : Place} {path p q : Path} {s s' : String} {names names' : List String}
    (hne : s ≠ s') (hp : LeadsBelow t place path (s :: names) p)
    (hq : LeadsBelow t place path (s' :: names') q) : Apart t p q := by
  constructor
  · rw [hp.1, hq.1]
    simp [hne]
  · rw [hp.2, hq.2]
    simp [hne]

/-- What the walk finds under one name of a directory. -/
def filesAt (t : FileTree) (respect : Bool) (n : Nat) (levels : List Ignore.Level) (place : Place)
    (path : Path) (name : String) : List Path :=
  if Ignore.skips levels (place ++ [name]) (t.isDirectoryAt (place ++ [name])) then []
  else if t.isDirectoryAt (place ++ [name]) then
    filesBelow t respect n levels (place ++ [name]) (path.join ⟨name⟩)
  else [path.join ⟨name⟩]

theorem filesBelow_succ (t : FileTree) (respect : Bool) (n : Nat) (above : List Ignore.Level)
    (place : Place) (path : Path) :
    filesBelow t respect (n + 1) above place path =
      (t.names place).flatMap
        (filesAt t respect n (Ignore.Level.of t respect place :: above) place path) := rfl

/-- Each file below a directory is found once, under the names that lead to it. -/
theorem filesBelow_spec (ht : t.Named) {respect : Bool} {n : Nat} {above : List Ignore.Level}
    {place : Place} {path : Path} (hpath : t.follow [] path.components = some place)
    (hd : t.isDirectoryAt place = true) :
    (∀ p ∈ filesBelow t respect n above place path, ∃ names, LeadsBelow t place path names p) ∧
      (filesBelow t respect n above place path).Pairwise (Apart t) := by
  induction n generalizing above place path with
  | zero => exact ⟨fun p hp => absurd hp List.not_mem_nil, .nil⟩
  | succ n ih =>
    let levels := Ignore.Level.of t respect place :: above
    have hat : ∀ s ∈ t.names place,
        (∀ p ∈ filesAt t respect n levels place path s,
          ∃ names, LeadsBelow t place path (s :: names) p) ∧
          (filesAt t respect n levels place path s).Pairwise (Apart t) := by
      intro s hs
      have hname := FileTree.isName_of_mem_names ht hs
      rw [filesAt]
      split
      · exact ⟨fun p hp => absurd hp List.not_mem_nil, .nil⟩
      · split
        · next hinner =>
          obtain ⟨hbelow, hapart⟩ := ih (FileTree.follow_join hname hpath hd) hinner
          refine ⟨fun p hp => ?_, hapart⟩
          obtain ⟨names, hpc, hpr⟩ := hbelow p hp
          refine ⟨names, ?_, ?_⟩
          · rw [hpc, Path.components_join hname]
            simp
          · rw [hpr]
            simp
        · refine ⟨fun p hp => ?_, List.pairwise_singleton _ _⟩
          obtain rfl := List.mem_singleton.mp hp
          exact ⟨[], Path.components_join hname path, FileTree.resolve_join hname hpath hd⟩
    rw [filesBelow_succ]
    constructor
    · intro p hp
      obtain ⟨s, hs, hp⟩ := List.mem_flatMap.mp hp
      obtain ⟨names, hleads⟩ := (hat s hs).1 p hp
      exact ⟨s :: names, hleads⟩
    · refine List.pairwise_flatMap.mpr ⟨fun s hs => (hat s hs).2, ?_⟩
      refine (nodup_eraseDups _).imp_of_mem fun {s s'} hs hs' hne p hp q hq => ?_
      obtain ⟨names, hleads⟩ := (hat s hs).1 p hp
      obtain ⟨names', hleads'⟩ := (hat s' hs').1 q hq
      exact apart_of_names hne hleads hleads'

theorem walk_apart (ht : t.Named) {files : List Path} (h : l.walk t = .ok files) :
    files.Pairwise (Apart t) := by
  unfold walk at h
  split at h
  · cases h
  · next place hplace =>
    split at h
    · cases h
      exact List.pairwise_singleton _ _
    · split at h
      · next hd =>
        cases h
        exact (filesBelow_spec ht (FileTree.follow_of_resolve hplace) hd).2
      · cases h

/-- The files to look at have a front end, and come in the order of their paths. -/
theorem of_discover {files : List Path} (h : l.discover t = .ok files) :
    (∀ path ∈ files, (l.frontEnd? path).isSome = true) ∧
      files.Pairwise fun p q => (p.compare q).isLE = true := by
  rw [discover] at h
  cases hwalk : l.walk t with
  | error e => rw [hwalk] at h; cases h
  | ok met =>
    rw [hwalk] at h
    cases h
    refine ⟨fun path hpath => ?_, ?_⟩
    · have hmem := List.mem_filter.mp (List.mem_mergeSort.mp hpath)
      exact (Bool.and_eq_true_iff.mp hmem.2).1
    · exact List.pairwise_mergeSort (fun p q r => Std.TransCmp.isLE_trans) Path.isLE_total _

/-- The files to look at come in the order of their paths, each of them once. -/
theorem discover_pairwise (ht : t.Named) {files : List Path} (h : l.discover t = .ok files) :
    files.Pairwise fun p q => p.compare q = .lt ∧ t.resolve p ≠ t.resolve q := by
  have hsorted := (of_discover h).2
  rw [discover] at h
  cases hwalk : l.walk t with
  | error e => rw [hwalk] at h; cases h
  | ok found =>
    rw [hwalk] at h
    cases h
    let files := found.filter fun path => (l.frontEnd? path).isSome && !l.isExcluded path
    let le := fun p q : Path => (p.compare q).isLE
    have hapart : (files.mergeSort le).Pairwise (Apart t) :=
      (List.Perm.pairwise_iff Apart.symm (List.mergeSort_perm files le)).mpr
        ((walk_apart ht hwalk).sublist List.filter_sublist)
    refine (hsorted.and hapart).imp fun {p q} hpq => ⟨?_, hpq.2.2⟩
    have hle : (p.compare q).isLE = true := hpq.1
    cases hcompare : p.compare q with
    | lt => rfl
    | eq => exact absurd (Path.components_eq_of_compare hcompare) hpq.2.1
    | gt => rw [hcompare] at hle; cases hle

end Linter

end CallChain
