import CallChain.Proofs.Chain.Copies
import CallChain.Proofs.Linter.Passes
import CallChain.Proofs.Project.Discovery

/-!
# What a run leaves of the files

Files are mended one after the other, and each of them is left as it was or with a text that can be
parsed. A run that stops at a file has finished the files before it and touched no other.
-/
namespace CallChain.Linter

open FileTree (SameFolders)

variable {l : Linter} {locked : List Place} {t t' t₁ : FileTree} {path : Path} {place : Place}
  {content : String} {done : List Path}

/-- The file is as a run leaves it: mended if it can be, else with the text it had. -/
def Finished (l : Linter) (t t' : FileTree) (path : Path) : Prop :=
  ∃ place content, t.resolve path = some place ∧ t.content? place = some (.text content) ∧
    ((∃ fixed, l.fix path content = .ok fixed ∧ t'.content? place = some (.text fixed.output)) ∨
      ∃ e, l.fix path content = .error e ∧ l.passOver e = .ok () ∧
        t'.content? place = some (.text content))

/-- Why a run stops at a file: it cannot be read, or mended, or written. -/
inductive Stops (l : Linter) (locked : List Place) (t : FileTree) (path : Path) : Error → Prop
  | unread (hread : t.readText? path = none) : Stops l locked t path (.unreadable path)
  | unmended {content : String} {e e' : Error} (hread : t.readText? path = some content)
      (hfix : l.fix path content = .error e) (hpass : l.passOver e = .error e') :
      Stops l locked t path e'
  | unwritten {content : String} {fixed : Fixed} (hread : t.readText? path = some content)
      (hfix : l.fix path content = .ok fixed) (hchanged : fixed.changed = true)
      (hwrite : t.write? path fixed.output locked = none) : Stops l locked t path (.unreadable path)

/-- Mending the text leaves it as it is, or fails in a way that is passed over. -/
def Keeps (l : Linter) (path : Path) (content : String) : Prop :=
  (∃ fixed, l.fix path content = .ok fixed ∧ fixed.output = content) ∨
    ∃ e, l.fix path content = .error e ∧ l.passOver e = .ok ()

/-- Mending the file changes its text. -/
def changes (l : Linter) (t : FileTree) (path : Path) : Bool :=
  match t.readText? path with
  | some content =>
    match l.fix path content with
    | .ok fixed => fixed.changed
    | .error _ => false
  | none => false

/-- A run that finished some files and left all else as it was. -/
structure Ran (l : Linter) (t t' : FileTree) (done : List Path) : Prop where
  folders : SameFolders t t'
  finished : ∀ p ∈ done, Finished l t t' p
  kept : ∀ place, (∀ p ∈ done, t.resolve p ≠ some place) → t'.content? place = t.content? place

theorem ran_nil (l : Linter) (t : FileTree) : Ran l t t [] :=
  ⟨fun _ => rfl, by simp, fun _ _ => rfl⟩

/-- A file that needs no write comes first. -/
theorem Ran.cons_kept (h : Ran l t t' done) (hapart : ∀ p ∈ done, t.resolve path ≠ t.resolve p)
    (hplace : t.resolve path = some place) (hcontent : t.content? place = some (.text content))
    (hself : Keeps l path content) : Ran l t t' (path :: done) := by
  have hkept : t'.content? place = some (.text content) := by
    rw [h.kept place fun p hp he => hapart p hp (by rw [hplace, he]), hcontent]
  refine ⟨h.folders, fun p hp => ?_, fun q hq => ?_⟩
  · rcases List.mem_cons.mp hp with rfl | hp
    · refine ⟨place, content, hplace, hcontent, ?_⟩
      rcases hself with ⟨fixed, hfix, houtput⟩ | ⟨e, hfix, hpass⟩
      · exact Or.inl ⟨fixed, hfix, by rw [hkept, houtput]⟩
      · exact Or.inr ⟨e, hfix, hpass, hkept⟩
    · exact h.finished p hp
  · exact h.kept q fun p hp => hq p (List.mem_cons_of_mem path hp)

/-- A file that is written comes first: the rest of the run starts from the tree after the write. -/
theorem Ran.cons_written {fixed : Fixed} (hapart : ∀ p ∈ done, t.resolve path ≠ t.resolve p)
    (hplace : t.resolve path = some place) (hcontent : t.content? place = some (.text content))
    (hfix : l.fix path content = .ok fixed) (hwrite : t.write? path fixed.output locked = some t₁)
    (h : Ran l t₁ t' done) : Ran l t t' (path :: done) := by
  obtain ⟨hfolders, hwritten⟩ := FileTree.of_write? hwrite hplace hcontent
  have hresolve := FileTree.resolve_of_sameFolders hfolders
  refine ⟨fun q => (h.folders q).trans (hfolders q), fun p hp => ?_, fun q hq => ?_⟩
  · rcases List.mem_cons.mp hp with rfl | hp
    · refine ⟨place, content, hplace, hcontent, Or.inl ⟨fixed, hfix, ?_⟩⟩
      rw [h.kept place, hwritten, if_pos rfl]
      intro p hp he
      exact hapart p hp (by rw [hplace, ← hresolve, he])
    · obtain ⟨q, text, hq, htext, hend⟩ := h.finished p hp
      rw [hresolve] at hq
      have hne : q ≠ place := by
        rintro rfl
        exact hapart p hp (by rw [hplace, hq])
      rw [hwritten, if_neg hne] at htext
      exact ⟨q, text, hq, htext, hend⟩
  · have hne : q ≠ place := by
      rintro rfl
      exact hq path List.mem_cons_self hplace
    rw [h.kept q fun p hp => by rw [hresolve]; exact hq p (List.mem_cons_of_mem path hp), hwritten,
      if_neg hne]

section Written

variable (hfolders : SameFolders t t₁)
  (hkept : ∀ place, t.resolve path = some place → t₁.content? place = t.content? place)
include hfolders hkept

/-- Why a run stops at a file does not depend on the files before it. -/
theorem Stops.of_written {e : Error} (h : Stops l locked t₁ path e) : Stops l locked t path e := by
  have hread := FileTree.readText?_of_sameFolders hfolders hkept
  cases h with
  | unread h => exact .unread (hread ▸ h)
  | unmended h hfix hpass => exact .unmended (hread ▸ h) hfix hpass
  | unwritten h hfix hchanged hwrite =>
    exact .unwritten (hread ▸ h) hfix hchanged (FileTree.write?_eq_none_of_sameFolders hfolders hwrite)

theorem changes_of_written : changes l t₁ path = changes l t path := by
  rw [changes, changes, FileTree.readText?_of_sameFolders hfolders hkept]

end Written

/-- How far a run over files gets: to the end, or to a file that stops it. -/
inductive Ending (l : Linter) (locked : List Place) (t : FileTree) (fixedBefore : Nat)
    (done : List Path) : List Path → Except Error Report → Prop
  | completed {report : Report}
      (hcount : report.filesFixed = fixedBefore + done.countP (changes l t)) :
      Ending l locked t fixedBefore done [] (.ok report)
  | stopped {bad : Path} {later : List Path} {e : Error} (hstops : Stops l locked t bad e) :
      Ending l locked t fixedBefore done (bad :: later) (.error e)

/-- The run that goes on after a file, from the tree that it leaves, ends as the whole run does. -/
theorem Ending.cons {before after : Nat} {rest : List Path} {result : Except Error Report}
    (h : Ending l locked t₁ after done rest result)
    (hcount : after = before + if changes l t path then 1 else 0)
    (hsame : ∀ p ∈ done ++ rest, changes l t₁ p = changes l t p ∧
      ∀ e, Stops l locked t₁ p e → Stops l locked t p e) :
    Ending l locked t before (path :: done) rest result := by
  cases h with
  | completed hdone =>
    refine .completed ?_
    have hcongr : done.countP (changes l t₁) = done.countP (changes l t) :=
      List.countP_congr fun p hp => by rw [(hsame p (List.mem_append_left _ hp)).1]
    rw [hdone, hcount, hcongr, List.countP_cons]
    omega
  | stopped hstops => exact .stopped ((hsame _ (by simp)).2 _ hstops)

/-- The order of a report does not matter. -/
theorem Ending.sort {before : Nat} {rest : List Path} {result : Except Error Report}
    (h : Ending l locked t before done rest result) :
    Ending l locked t before done rest (result.map Report.sort) := by
  cases h with
  | completed hcount => exact .completed hcount
  | stopped hstops => exact .stopped hstops

/-- What becomes of the first file: it stops the run, or the run goes on without a write, or with one. -/
theorem fixFiles_cons (l : Linter) (locked : List Place) (path : Path) (files : List Path)
    (t : FileTree) (report : Report) :
    (∃ e, Stops l locked t path e ∧ l.fixFiles locked (path :: files) t report = (t, .error e)) ∨
      ∃ place content next, t.resolve path = some place ∧ t.content? place = some (.text content) ∧
        next.filesFixed = report.filesFixed + (if changes l t path then 1 else 0) ∧
        ((Keeps l path content ∧
            l.fixFiles locked (path :: files) t report = l.fixFiles locked files t next) ∨
          ∃ fixed t₁, l.fix path content = .ok fixed ∧
            t.write? path fixed.output locked = some t₁ ∧
            l.fixFiles locked (path :: files) t report = l.fixFiles locked files t₁ next) := by
  rw [fixFiles, readFile]
  cases hread : t.readText? path with
  | none => exact Or.inl ⟨_, .unread hread, rfl⟩
  | some content =>
    obtain ⟨place, hplace, hcontent⟩ := FileTree.readText?_eq_some_iff.mp hread
    simp only
    cases hfix : l.fix path content with
    | error e =>
      have hchanges : changes l t path = false := by simp only [changes, hread, hfix]
      simp only
      cases hpass : l.passOver e with
      | error e' => exact Or.inl ⟨e', .unmended hread hfix hpass, rfl⟩
      | ok _ =>
        exact Or.inr ⟨place, content, report, hplace, hcontent, by rw [hchanges]; rfl,
          Or.inl ⟨Or.inr ⟨e, hfix, hpass⟩, rfl⟩⟩
    | ok fixed =>
      have hchanges : changes l t path = fixed.changed := by simp only [changes, hread, hfix]
      simp only
      cases hchanged : fixed.changed with
      | false =>
        exact Or.inr ⟨place, content, _, hplace, hcontent, by rw [hchanges, hchanged]; rfl,
          Or.inl ⟨Or.inl ⟨fixed, hfix, (of_not_changed hfix hchanged).2⟩, rfl⟩⟩
      | true =>
        simp only [if_true]
        cases hwrite : t.write? path fixed.output locked with
        | none => exact Or.inl ⟨_, .unwritten hread hfix hchanged hwrite, rfl⟩
        | some t₁ =>
          exact Or.inr ⟨place, content, _, hplace, hcontent, by rw [hchanges, hchanged]; rfl,
            Or.inr ⟨fixed, t₁, hfix, hwrite, rfl⟩⟩

/-- A run finishes files up to the end or up to the first that stops it. -/
theorem fixFiles_spec {files : List Path} (report : Report)
    (hapart : files.Pairwise fun p q => t.resolve p ≠ t.resolve q) :
    ∃ done rest, files = done ++ rest ∧ Ran l t (l.fixFiles locked files t report).1 done ∧
      Ending l locked t report.filesFixed done rest (l.fixFiles locked files t report).2 := by
  induction files generalizing t report with
  | nil => exact ⟨[], [], rfl, ran_nil l t, .completed rfl⟩
  | cons path files ih =>
    obtain ⟨hfirst, hrest⟩ := List.pairwise_cons.mp hapart
    rcases fixFiles_cons l locked path files t report with ⟨e, hstops, hrun⟩ |
      ⟨place, content, next, hplace, hcontent, hcount, ⟨hkeeps, hrun⟩ | ⟨fixed, t₁, hfix, hwrite, hrun⟩⟩
    · rw [hrun]
      exact ⟨[], path :: files, rfl, ran_nil l t, .stopped hstops⟩
    · rw [hrun]
      obtain ⟨done, rest, rfl, hran, hending⟩ := ih next hrest
      have hothers := fun p hp => hfirst p (List.mem_append_left rest hp)
      exact ⟨path :: done, rest, rfl, hran.cons_kept hothers hplace hcontent hkeeps,
        hending.cons hcount fun p _ => ⟨rfl, fun _ h => h⟩⟩
    · rw [hrun]
      obtain ⟨hfolders, hwritten⟩ := FileTree.of_write? hwrite hplace hcontent
      have hapart₁ : files.Pairwise fun p q => t₁.resolve p ≠ t₁.resolve q := by
        simpa only [FileTree.resolve_of_sameFolders hfolders] using hrest
      -- No later file is at the place that was written, so the rest of the run sees the old contents.
      have hkept : ∀ p ∈ files, ∀ q, t.resolve p = some q → t₁.content? q = t.content? q := by
        intro p hp q hq
        rw [hwritten, if_neg]
        rintro rfl
        exact hfirst p hp (by rw [hplace, hq])
      obtain ⟨done, rest, rfl, hran, hending⟩ := ih next hapart₁
      have hothers := fun p hp => hfirst p (List.mem_append_left rest hp)
      refine ⟨path :: done, rest, rfl, .cons_written hothers hplace hcontent hfix hwrite hran, ?_⟩
      exact hending.cons hcount fun p hp =>
        ⟨changes_of_written hfolders (hkept p hp), fun e => Stops.of_written hfolders (hkept p hp)⟩

/-- The file is among those to look at. -/
def Finds (l : Linter) (t : FileTree) (path : Path) : Prop :=
  ∃ files, l.discover t = .ok files ∧ path ∈ files

/-- What a run on the files `t` that leaves `t'` and gives `result` keeps to. -/
structure Atomic (l : Linter) (locked : List Place) (t t' : FileTree)
    (result : Except Error Report) : Prop where
  /-- A file has the content it had, or what mending it gave, and that can be checked. -/
  contents : ∀ place, t'.content? place = t.content? place ∨
    ∃ path content fixed vs, l.Finds t path ∧ t.resolve path = some place ∧
      t.content? place = some (.text content) ∧ l.fix path content = .ok fixed ∧
      t'.content? place = some (.text fixed.output) ∧ l.check path fixed.output = .ok vs
  /-- A file that is not found is not touched. -/
  unfound : ∀ place, (∀ path, l.Finds t path → t.resolve path ≠ some place) →
    t'.content? place = t.content? place
  /-- Nor is one whose text cannot be parsed, be it at the start or after some of the rounds. -/
  unparsed : ∀ path place content rounds s e, l.Finds t path → t.resolve path = some place →
    t.content? place = some (.text content) → Passes l path rounds content s → rounds ≤ maxPasses →
    l.check path s = .error e → t'.content? place = t.content? place
  /-- A run that stops at a file has finished those before it and not touched it or those behind. -/
  stopped : ∀ e, result = .error e → (l.discover t = .error e ∧ t' = t) ∨
    ∃ bad, l.Finds t bad ∧ Stops l locked t bad e ∧ ∀ path, l.Finds t path →
      (path.compare bad = .lt → Finished l t t' path) ∧
      (path.compare bad ≠ .lt → ∀ place, t.resolve path = some place →
        t'.content? place = t.content? place)
  /-- A run to the end has finished all files and counts those that mending changes. -/
  completed : ∀ report, result = .ok report → (∀ path, l.Finds t path → Finished l t t' path) ∧
    ∃ files, l.discover t = .ok files ∧ report.filesFixed = files.countP (changes l t)

theorem finds_iff {files : List Path} (hfiles : l.discover t = .ok files) :
    l.Finds t path ↔ path ∈ files := by
  constructor
  · rintro ⟨files', hfiles', hmem⟩
    rw [hfiles] at hfiles'
    rwa [Except.ok.inj hfiles']
  · intro hmem
    exact ⟨files, hfiles, hmem⟩

namespace Ran

variable (h : Ran l t t' done)
include h

theorem contents (place : Place) : t'.content? place = t.content? place ∨
    ∃ path ∈ done, ∃ content fixed vs, t.resolve path = some place ∧
      t.content? place = some (.text content) ∧ l.fix path content = .ok fixed ∧
      t'.content? place = some (.text fixed.output) ∧ l.check path fixed.output = .ok vs := by
  by_cases hdone : ∃ p ∈ done, t.resolve p = some place
  · obtain ⟨p, hp, hplace⟩ := hdone
    obtain ⟨place', content, hplace', hcontent, hend⟩ := h.finished p hp
    obtain rfl := Option.some.inj (hplace.symm.trans hplace')
    rcases hend with ⟨fixed, hfix, hwritten⟩ | ⟨e, -, -, hkept⟩
    · obtain ⟨-, -, -, -, hcheck⟩ := passes_of_fix hfix
      exact Or.inr ⟨p, hp, content, fixed, fixed.remaining, hplace, hcontent, hfix, hwritten, hcheck⟩
    · exact Or.inl (hkept.trans hcontent.symm)
  · exact Or.inl (h.kept place fun p hp hplace => hdone ⟨p, hp, hplace⟩)

/-- A finished file with a text that some round makes unparsable is as it was. -/
theorem unparsed {rounds : Nat} {s : String} {e : Error} (hpath : path ∈ done)
    (hplace : t.resolve path = some place) (hcontent : t.content? place = some (.text content))
    (hrun : Passes l path rounds content s) (hrounds : rounds ≤ maxPasses)
    (herror : l.check path s = .error e) : t'.content? place = t.content? place := by
  obtain ⟨place', content', hplace', hcontent', hend⟩ := h.finished path hpath
  obtain rfl := Option.some.inj (hplace.symm.trans hplace')
  obtain rfl : content = content' := by
    rw [hcontent] at hcontent'
    cases hcontent'
    rfl
  rcases hend with ⟨fixed, hfix, -⟩ | ⟨e', -, -, hkept⟩
  · rw [fix_of_passes_error hrun hrounds herror] at hfix
    cases hfix
  · exact hkept.trans hcontent.symm

/-- A file that leads elsewhere than the finished ones is as it was. -/
theorem untouched (hapart : ∀ p ∈ done, t.resolve p ≠ t.resolve path)
    (hplace : t.resolve path = some place) : t'.content? place = t.content? place :=
  h.kept place fun p hp he => hapart p hp (he.trans hplace.symm)

end Ran

theorem atomic_of_ran (ht : t.Named) {rest : List Path} {result : Except Error Report}
    (hfiles : l.discover t = .ok (done ++ rest)) (hran : Ran l t t' done)
    (hending : Ending l locked t 0 done rest result) : Atomic l locked t t' result := by
  have hfinds : ∀ path, l.Finds t path ↔ path ∈ done ++ rest := fun _ => finds_iff hfiles
  obtain ⟨-, hrest, hacross⟩ := List.pairwise_append.mp (discover_pairwise ht hfiles)
  refine ⟨fun place => ?_, fun place hplace => ?_, ?_, fun e he => ?_, fun report hr => ?_⟩
  · rcases hran.contents place with hkept | ⟨path, hpath, content, fixed, vs, hmended⟩
    · exact Or.inl hkept
    · have hfound := (hfinds path).mpr (List.mem_append_left rest hpath)
      exact Or.inr ⟨path, content, fixed, vs, hfound, hmended⟩
  · exact hran.kept place fun p hp => hplace p ((hfinds p).mpr (List.mem_append_left rest hp))
  · intro path place content rounds s e hpath hplace hcontent hrun hrounds herror
    rcases List.mem_append.mp ((hfinds path).mp hpath) with hdone | hlater
    · exact hran.unparsed hdone hplace hcontent hrun hrounds herror
    · exact hran.untouched (fun p hp => (hacross p hp path hlater).2) hplace
  · subst he
    cases hending with
    | @stopped bad later _ hstops =>
      refine Or.inr ⟨bad, (hfinds bad).mpr (by simp), hstops, fun path hpath => ?_⟩
      rcases List.mem_append.mp ((hfinds path).mp hpath) with hdone | hlater
      · have hlt := (hacross path hdone bad List.mem_cons_self).1
        exact ⟨fun _ => hran.finished path hdone, fun hne => absurd hlt hne⟩
      · have hnot : path.compare bad ≠ .lt := by
          rcases List.mem_cons.mp hlater with rfl | hlater
          · exact path.compare_ne_lt_self
          · exact Path.compare_ne_lt_of_lt ((List.pairwise_cons.mp hrest).1 path hlater).1
        exact ⟨fun hlt => absurd hlt hnot,
          fun _ place hplace => hran.untouched (fun p hp => (hacross p hp path hlater).2) hplace⟩
  · subst hr
    cases hending with
    | completed hcount =>
      refine ⟨fun path hpath => hran.finished path ?_, done ++ [], hfiles, ?_⟩
      · simpa using (hfinds path).mp hpath
      · rw [hcount, List.append_nil, Nat.zero_add]

/-- Mending the files of a project leaves each of them as it was or with a text that can be parsed. A run
that stops has finished the files before the one it stops at, and no other is touched. -/
theorem fixAll_atomic (l : Linter) (locked : List Place) (t : FileTree) (ht : t.Named) :
    Atomic l locked t (l.fixAll t locked).1 (l.fixAll t locked).2 := by
  rw [fixAll]
  cases hfiles : l.discover t with
  | error e =>
    refine ⟨fun _ => Or.inl rfl, fun _ _ => rfl, fun _ _ _ _ _ _ _ _ _ _ _ _ => rfl, ?_, ?_⟩
    · intro e' he
      exact Or.inl ⟨by rw [hfiles, Except.error.inj he], rfl⟩
    · intro report hr
      cases hr
  | ok files =>
    have hapart : files.Pairwise fun p q => t.resolve p ≠ t.resolve q :=
      (discover_pairwise ht hfiles).imp fun h => h.2
    obtain ⟨done, rest, hsplit, hran, hending⟩ := fixFiles_spec .empty hapart
    rw [hsplit] at hfiles
    exact atomic_of_ran ht hfiles hran hending.sort

/-- Three files, the second of which holds no text. -/
def threeFiles : FileTree where
  entries := [(["a.js"], .file (.text "a.b()")), (["b.js"], .file (.bytes [255])),
    (["c.js"], .file (.text "a.b()"))]

/-- The first file is mended, the second ends the run, and the third is not touched. -/
theorem fixAll_threeFiles_atomic :
    let l := Chain.SingleLink.linter
    let after := (l.fixAll threeFiles).1
    threeFiles.Named ∧ after.content? ["a.js"] = some (.text "a\n.b()") ∧
      after.content? ["c.js"] = some (.text "a.b()") ∧
      Atomic l [] threeFiles after (l.fixAll threeFiles).2 := by
  let files : List Path := [⟨"./a.js"⟩, ⟨"./b.js"⟩, ⟨"./c.js"⟩]
  have hwalk : Chain.SingleLink.linter.walk threeFiles = .ok files := rfl
  have hdiscover : Chain.SingleLink.linter.discover threeFiles = .ok files := by
    rw [discover, hwalk]
    exact congrArg Except.ok (List.mergeSort_of_pairwise (by decide +kernel))
  refine ⟨by decide, ?_, ?_, fixAll_atomic Chain.SingleLink.linter [] threeFiles (by decide)⟩
  · rw [fixAll, hdiscover]
    decide +kernel
  · rw [fixAll, hdiscover]
    decide +kernel

end CallChain.Linter
