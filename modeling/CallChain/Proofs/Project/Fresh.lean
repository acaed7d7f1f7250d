import CallChain.Proofs.Project.Atomic

/-!
# What a run reports and what a fresh analysis finds

A run that mends the files of a project reports what remains in each file that it could mend, and an
analysis of the files it leaves finds the same there. The two part at a file that can be checked as it
stands but not after some round of mending. Such a file is left as it was, and so are its findings, but
the run passes it over: it neither counts the file nor reports what is in it.
-/
namespace CallChain

/-- The report with the findings of some more files, one list for each file. -/
def Report.extend (report : Report) (found : List (List Violation)) : Report :=
  { report with
    violations := report.violations ++ found.flatten
    filesChecked := report.filesChecked + found.length }

theorem Report.extend_cons (report : Report) (vs : List Violation) (found : List (List Violation)) :
    (report.extend [vs]).extend found = report.extend (vs :: found) := by
  simp [extend, Nat.add_comm, Nat.add_left_comm]

theorem Report.extend_nil (report : Report) : report.extend [] = report := by
  simp [extend]

namespace Linter

open FileTree (SameFolders)

variable {l : Linter} {locked : List Place} {t t' t₁ : FileTree} {path : Path} {files : List Path}
  {report report' : Report}

/-- What an analysis finds in a file, if the file can be checked. -/
def found? (l : Linter) (t : FileTree) (path : Path) : Option (List Violation) :=
  (t.readText? path).bind fun content => (l.check path content).toOption

/-- What a run reports of a file, if the file can be mended. -/
def remains? (l : Linter) (t : FileTree) (path : Path) : Option (List Violation) :=
  (t.readText? path).bind fun content => (l.fix path content).toOption.map Fixed.remaining

/-- What a run says nothing of: the findings in a file that can be checked but not mended. -/
def lost? (l : Linter) (t : FileTree) (path : Path) : Option (List Violation) :=
  if (l.remains? t path).isNone then l.found? t path else none

theorem lost?_eq_some_iff {vs : List Violation} : l.lost? t path = some vs ↔
    ∃ content e, t.readText? path = some content ∧ l.check path content = .ok vs ∧
      l.fix path content = .error e := by
  rw [lost?, remains?, found?]
  cases t.readText? path with
  | none => simp
  | some content =>
    cases hcheck : l.check path content <;> cases hfix : l.fix path content <;>
      simp [hcheck, hfix, Except.toOption]

/-- An analysis gets past the file: it holds a text, which is checked or passed over. -/
def Passable (l : Linter) (t : FileTree) (path : Path) : Prop :=
  ∃ content, t.readText? path = some content ∧
    ∀ e, l.check path content = .error e → l.passOver e = .ok ()

theorem found?_of_check {content : String} {vs : List Violation} (hread : t.readText? path = some content)
    (hcheck : l.check path content = .ok vs) : l.found? t path = some vs := by
  rw [found?, hread, Option.bind_some, hcheck]
  rfl

theorem found?_of_error {content : String} {e : Error} (hread : t.readText? path = some content)
    (hcheck : l.check path content = .error e) : l.found? t path = none := by
  rw [found?, hread, Option.bind_some, hcheck]
  rfl

/-- An analysis of files that it gets past collects what is found in each of them. -/
theorem analyzeFiles_eq (h : ∀ p ∈ files, Passable l t p) (report : Report) :
    l.analyzeFiles t files report = .ok (report.extend (files.filterMap (l.found? t))) := by
  induction files generalizing report with
  | nil => rw [analyzeFiles, List.filterMap_nil, Report.extend_nil]
  | cons path files ih =>
    obtain ⟨content, hread, hpass⟩ := h path List.mem_cons_self
    have hrest := fun p hp => h p (List.mem_cons_of_mem path hp)
    rw [analyzeFiles, readFile, hread]
    simp only [bind, Except.bind]
    cases hcheck : l.check path content with
    | ok vs =>
      rw [List.filterMap_cons_some (found?_of_check hread hcheck), ← Report.extend_cons, ← ih hrest]
      simp [Report.extend]
    | error e =>
      simp only [hpass e hcheck]
      rw [List.filterMap_cons_none (found?_of_error hread hcheck), ih hrest]

/-- What the first file of a run to the end adds to the report. The rest of the run starts from the same
files, or from those after a write to that file. -/
theorem fixFiles_cons_ok (h : l.fixFiles locked (path :: files) t report = (t', .ok report')) :
    ∃ t₁ next, l.fixFiles locked files t₁ next = (t', .ok report') ∧
      next.violations = (report.extend (l.remains? t path).toList).violations ∧
      next.filesChecked = (report.extend (l.remains? t path).toList).filesChecked ∧
      (t₁ = t ∨ ∃ place content text, t.resolve path = some place ∧
        t.content? place = some content ∧ t.write? path text locked = some t₁) := by
  rw [fixFiles, readFile] at h
  cases hread : t.readText? path with
  | none => simp [hread] at h
  | some content =>
    obtain ⟨place, hplace, hcontent⟩ := FileTree.readText?_eq_some_iff.mp hread
    simp only [hread] at h
    cases hfix : l.fix path content with
    | error e =>
      have hremains : l.remains? t path = none := by
        rw [remains?, hread, Option.bind_some, hfix]
        rfl
      simp only [hfix] at h
      cases hpass : l.passOver e with
      | error e' => simp [hpass] at h
      | ok _ =>
        simp only [hpass] at h
        rw [hremains, Option.toList_none, Report.extend_nil]
        exact ⟨t, report, h, rfl, rfl, Or.inl rfl⟩
    | ok fixed =>
      have hremains : l.remains? t path = some fixed.remaining := by
        rw [remains?, hread, Option.bind_some, hfix]
        rfl
      have hflat : [fixed.remaining].flatten = fixed.remaining := by simp
      simp only [hfix] at h
      rw [hremains, Option.toList_some, Report.extend, hflat]
      cases hchanged : fixed.changed with
      | false =>
        simp only [hchanged] at h
        exact ⟨t, _, h, rfl, rfl, Or.inl rfl⟩
      | true =>
        simp only [hchanged, if_true] at h
        cases hwrite : t.write? path fixed.output locked with
        | none => simp [hwrite] at h
        | some t₁ =>
          simp only [hwrite] at h
          exact ⟨t₁, _, h, rfl, rfl, Or.inr ⟨place, _, _, hplace, hcontent, hwrite⟩⟩

theorem remains?_congr (h : t₁.readText? path = t.readText? path) :
    l.remains? t₁ path = l.remains? t path := by
  rw [remains?, remains?, h]

/-- A run to the end reports what remains in each file that it could mend. -/
theorem fixFiles_report (hapart : files.Pairwise fun p q => t.resolve p ≠ t.resolve q)
    (h : l.fixFiles locked files t report = (t', .ok report')) :
    report'.violations = (report.extend (files.filterMap (l.remains? t))).violations ∧
      report'.filesChecked = (report.extend (files.filterMap (l.remains? t))).filesChecked := by
  induction files generalizing t report with
  | nil =>
    rw [fixFiles, Prod.mk.injEq] at h
    obtain rfl := Except.ok.inj h.2
    rw [List.filterMap_nil, Report.extend_nil]
    exact ⟨rfl, rfl⟩
  | cons path files ih =>
    obtain ⟨hfirst, hrest⟩ := List.pairwise_cons.mp hapart
    obtain ⟨t₁, next, hrun, hviolations, hchecked, hleft⟩ := fixFiles_cons_ok h
    have hsame : (∀ p, t₁.resolve p = t.resolve p) ∧
        ∀ p ∈ files, t₁.readText? p = t.readText? p := by
      rcases hleft with rfl | ⟨place, content, text, hplace, hcontent, hwrite⟩
      · exact ⟨fun _ => rfl, fun _ _ => rfl⟩
      · refine ⟨FileTree.resolve_of_sameFolders (FileTree.of_write? hwrite hplace hcontent).1, ?_⟩
        intro p hp
        exact FileTree.readText?_of_write? hwrite hplace hcontent (hfirst p hp)
    have hremains : files.filterMap (l.remains? t₁) = files.filterMap (l.remains? t) :=
      List.filterMap_congr fun p hp => remains?_congr (hsame.2 p hp)
    obtain ⟨hvs, hcount⟩ := ih (by simpa only [hsame.1] using hrest) hrun
    have hsplit : (path :: files).filterMap (l.remains? t) =
        (l.remains? t path).toList ++ files.filterMap (l.remains? t) := by
      rw [List.filterMap_cons]
      cases l.remains? t path <;> rfl
    rw [hvs, hcount, hremains, hsplit]
    simp only [Report.extend] at hviolations hchecked ⊢
    rw [hviolations, hchecked]
    simp [Nat.add_assoc]

/-- An analysis gets past a file as a run leaves it, and finds what the run reports of it or, if that is
nothing, what it found before. -/
theorem Finished.found (h : Finished l t t' path) (hfolders : SameFolders t t') :
    Passable l t' path ∧ l.found? t' path = (l.remains? t path).or (l.lost? t path) := by
  obtain ⟨place, content, hplace, hcontent, hend⟩ := h
  have hread : t.readText? path = some content :=
    FileTree.readText?_eq_some_iff.mpr ⟨place, hplace, hcontent⟩
  have hleft : ∀ text, t'.content? place = some (.text text) → t'.readText? path = some text := by
    intro text htext
    rw [FileTree.readText?_eq_some_iff, FileTree.resolve_of_sameFolders hfolders]
    exact ⟨place, hplace, htext⟩
  rcases hend with ⟨fixed, hfix, hwritten⟩ | ⟨e, hfix, hpass, hkept⟩
  · obtain ⟨-, -, -, -, hcheck⟩ := passes_of_fix hfix
    have hremains : l.remains? t path = some fixed.remaining := by
      rw [remains?, hread, Option.bind_some, hfix]
      rfl
    refine ⟨⟨fixed.output, hleft _ hwritten, fun e he => ?_⟩, ?_⟩
    · rw [hcheck] at he
      cases he
    · rw [found?_of_check (hleft _ hwritten) hcheck, hremains, Option.some_or]
  · have hremains : l.remains? t path = none := by
      rw [remains?, hread, Option.bind_some, hfix]
      rfl
    have hsame : l.found? t' path = l.found? t path := by
      rw [found?, found?, hleft _ hkept, hread]
    refine ⟨⟨content, hleft _ hkept, fun e' he => ?_⟩, ?_⟩
    · -- What fails at the first check fails with the same error as a whole.
      have hfirst : l.fix path content = .error e' := fixFrom_of_error he
      rw [hfix, Except.error.injEq] at hfirst
      rwa [← hfirst]
    · rw [hsame, hremains, Option.none_or, lost?, hremains]
      rfl

/-- Files that a run reports of and files that it passed over, counted apart. -/
theorem filterMap_or_perm (l : Linter) (t : FileTree) (files : List Path) :
    (files.filterMap fun p => (l.remains? t p).or (l.lost? t p)).Perm
      (files.filterMap (l.remains? t) ++ files.filterMap (l.lost? t)) := by
  induction files with
  | nil => exact .refl _
  | cons p files ih =>
    cases hremains : l.remains? t p with
    | some vs =>
      have hlost : l.lost? t p = none := by rw [lost?, hremains]; rfl
      rw [List.filterMap_cons_some (by rw [hremains, Option.some_or]),
        List.filterMap_cons_some hremains, List.filterMap_cons_none hlost, List.cons_append]
      exact ih.cons vs
    | none =>
      rw [List.filterMap_cons_none hremains]
      cases hlost : l.lost? t p with
      | none =>
        rwa [List.filterMap_cons_none (by rw [hremains, hlost]; rfl), List.filterMap_cons_none hlost]
      | some vs =>
        rw [List.filterMap_cons_some (by rw [hremains, hlost]; rfl), List.filterMap_cons_some hlost]
        exact (ih.cons vs).trans List.perm_middle.symm

/-- A run to the end goes over all files that are found, finishes them and counts those that it changes. -/
theorem fixAll_ran (ht : t.Named) (hrun : l.fixAll t locked = (t', .ok report)) :
    ∃ files unsorted, l.discover t = .ok files ∧
      (files.Pairwise fun p q => t.resolve p ≠ t.resolve q) ∧
      l.fixFiles locked files t .empty = (t', .ok unsorted) ∧ report = unsorted.sort ∧
      Ran l t t' files ∧ unsorted.filesFixed = files.countP (changes l t) := by
  rw [fixAll] at hrun
  cases hfiles : l.discover t with
  | error e => simp [hfiles] at hrun
  | ok files =>
    have hapart : files.Pairwise fun p q => t.resolve p ≠ t.resolve q :=
      (discover_pairwise ht hfiles).imp fun h => h.2
    simp only [hfiles, Prod.mk.injEq] at hrun
    obtain ⟨rfl, hreport⟩ := hrun
    obtain ⟨done, rest, rfl, hran, hending⟩ : ∃ done rest, files = done ++ rest ∧
        Ran l t (l.fixFiles locked files t .empty).1 done ∧
        Ending l locked t 0 done rest (l.fixFiles locked files t .empty).2 := fixFiles_spec .empty hapart
    cases hresult : (l.fixFiles locked (done ++ rest) t .empty).2 with
    | error e => simp [hresult, Except.map] at hreport
    | ok unsorted =>
      rw [hresult] at hending hreport
      obtain rfl := Except.ok.inj hreport
      cases hending with
      | completed hcount =>
        rw [List.append_nil] at hapart hran hresult ⊢
        exact ⟨done, unsorted, rfl, hapart, Prod.ext rfl hresult, rfl, hran, by rw [hcount, Nat.zero_add]⟩

/-- A run to the end has finished every file, and its report is made of what remains in them. -/
theorem fixAll_completed (ht : t.Named) (hrun : l.fixAll t locked = (t', .ok report)) :
    ∃ files, l.discover t = .ok files ∧ Ran l t t' files ∧
      report.violations =
        (Report.empty.extend (files.filterMap (l.remains? t))).sort.violations ∧
      report.filesChecked = (files.filterMap (l.remains? t)).length := by
  obtain ⟨files, unsorted, hfiles, hapart, hfixFiles, rfl, hran, -⟩ := fixAll_ran ht hrun
  obtain ⟨hviolations, hchecked⟩ := fixFiles_report hapart hfixFiles
  refine ⟨files, hfiles, hran, ?_, ?_⟩
  · rw [Report.sort, Report.sort, hviolations]
  · rw [Report.sort, hchecked, Report.extend, Report.empty, Nat.zero_add]

theorem lost?_eq_none_iff : l.lost? t path = none ↔ ∀ content vs, t.readText? path = some content →
    l.check path content = .ok vs → ∃ fixed, l.fix path content = .ok fixed := by
  rw [Option.eq_none_iff_forall_ne_some]
  constructor
  · intro h content vs hread hcheck
    cases hfix : l.fix path content with
    | ok fixed => exact ⟨fixed, rfl⟩
    | error e => exact absurd (lost?_eq_some_iff.mpr ⟨content, e, hread, hcheck, hfix⟩) (h vs)
  · intro h vs hlost
    obtain ⟨content, e, hread, hcheck, hfix⟩ := lost?_eq_some_iff.mp hlost
    obtain ⟨fixed, hfixed⟩ := h content vs hread hcheck
    rw [hfix] at hfixed
    cases hfixed

/-- An analysis of the files that a run to the end leaves gets to its end too. Beyond what the run reports
it finds what was lost, so that the two agree exactly if every file that can be checked can be mended. -/
theorem analyze_after_fixAll (l : Linter) (locked : List Place) (t t' : FileTree) (report : Report)
    (ht : t.Named) (hrun : l.fixAll t locked = (t', .ok report))
    (hsame : l.discover t' = l.discover t) :
    ∃ files fresh, l.discover t = .ok files ∧ l.analyze t' = .ok fresh ∧
      fresh.violations.Perm (report.violations ++ (files.filterMap (l.lost? t)).flatten) ∧
      fresh.filesChecked = report.filesChecked + (files.filterMap (l.lost? t)).length ∧
      ((fresh.violations = report.violations ∧ fresh.filesChecked = report.filesChecked) ↔
        ∀ path ∈ files, ∀ content vs, t.readText? path = some content →
          l.check path content = .ok vs → ∃ fixed, l.fix path content = .ok fixed) := by
  obtain ⟨files, hfiles, hran, hviolations, hchecked⟩ := fixAll_completed ht hrun
  have hfinished := fun p hp => (hran.finished p hp).found hran.folders
  have hfound : files.filterMap (l.found? t') =
      files.filterMap fun p => (l.remains? t p).or (l.lost? t p) :=
    List.filterMap_congr fun p hp => (hfinished p hp).2
  have hperm := filterMap_or_perm l t files
  let fresh := (Report.empty.extend (files.filterMap (l.found? t'))).sort
  have hanalyze : l.analyze t' = .ok fresh := by
    rw [analyze, hsame, hfiles]
    simp only [bind, Except.bind]
    rw [analyzeFiles_eq fun p hp => (hfinished p hp).1]
    rfl
  have hcount : fresh.filesChecked = report.filesChecked + (files.filterMap (l.lost? t)).length := by
    change 0 + (files.filterMap (l.found? t')).length = _
    rw [hfound, hperm.length_eq, List.length_append, hchecked, Nat.zero_add]
  refine ⟨files, fresh, hfiles, hanalyze, ?_, hcount, ?_⟩
  · have hflat := hperm.flatten
    rw [← hfound, List.flatten_append] at hflat
    rw [hviolations]
    exact (List.mergeSort_perm _ _).trans
      (hflat.trans ((List.mergeSort_perm _ _).symm.append_right _))
  · constructor
    · rintro ⟨-, hsum⟩ path hpath
      have hnil : files.filterMap (l.lost? t) = [] := List.eq_nil_of_length_eq_zero (by omega)
      exact lost?_eq_none_iff.mp (List.filterMap_eq_nil_iff.mp hnil path hpath)
    · intro hmends
      have hlost : ∀ path ∈ files, l.lost? t path = none :=
        fun path hpath => lost?_eq_none_iff.mpr (hmends path hpath)
      have hremains : files.filterMap (l.found? t') = files.filterMap (l.remains? t) := by
        rw [hfound]
        exact List.filterMap_congr fun p hp => by rw [hlost p hp, Option.or_none]
      refine ⟨?_, ?_⟩
      · rw [hviolations, ← hremains]
      · rw [hcount, List.filterMap_eq_nil_iff.mpr hlost, List.length_nil, Nat.add_zero]

/-- A linter that puts `!!` for each semicolon, of a language in which no text may hold that. -/
def fragile : Linter where
  root := ⟨"."⟩
  base := ⟨"."⟩
  rules := [{
    name := "no-semicolon"
    code := "TEST002"
    check := fun ctx _ => (Text.occurrences [';'] ctx.content.toList).map fun offset =>
      let place : Location := ⟨ctx.relativePath, 1, offset + 1, offset, 1⟩
      (Violation.make "TEST002" "no-semicolon" .warning place "found").withSuggestion
        ⟨"replace", some ⟨place, "!!"⟩⟩ }]
  frontEnds := [{
    extensions := [".txt"]
    parse := fun content =>
      if Text.contains ['!', '!'] content.toList then .error .noTree
      else .ok ⟨#[⟨.other "file" [], default, none⟩], #[], 0⟩ }]
  exclude := []
  config := {}
  failOnParseError := false

/-- The run reports no file, and a fresh analysis finds the semicolon that is still there. -/
theorem analyze_after_fixAll_fragile :
    let t : FileTree := ⟨[(["one.txt"], .file (.text "a;b"))]⟩
    ∃ report, t.Named ∧ fragile.fixAll t = (t, .ok report) ∧ report.violations.length = 0 ∧
      report.filesChecked = 0 ∧ ∃ files fresh, fragile.discover t = .ok files ∧
        fragile.analyze t = .ok fresh ∧ fresh.violations.length = 1 ∧ fresh.filesChecked = 1 ∧
        fresh.violations.Perm (report.violations ++ (files.filterMap (fragile.lost? t)).flatten) ∧
        fresh.filesChecked = report.filesChecked + (files.filterMap (fragile.lost? t)).length ∧
        ((fresh.violations = report.violations ∧ fresh.filesChecked = report.filesChecked) ↔
          ∀ path ∈ files, ∀ content vs, t.readText? path = some content →
            fragile.check path content = .ok vs → ∃ fixed, fragile.fix path content = .ok fixed) := by
  intro t
  have hwalk : fragile.walk t = .ok [⟨"./one.txt"⟩] := rfl
  have hdiscover : fragile.discover t = .ok [⟨"./one.txt"⟩] := by
    rw [discover, hwalk]
    exact congrArg Except.ok (List.mergeSort_of_pairwise (by decide +kernel))
  have hleft : (fragile.fixAll t).1.entries = t.entries := by
    rw [fixAll, hdiscover]
    decide +kernel
  have hreported : (fragile.fixAll t).2.toOption.map (fun r => (r.violations.length, r.filesChecked)) =
      some (0, 0) := by
    rw [fixAll, hdiscover]
    decide +kernel
  have hfound : (fragile.analyze t).toOption.map (fun r => (r.violations.length, r.filesChecked)) =
      some (1, 1) := by
    rw [analyze, hdiscover]
    decide +kernel
  cases hresult : (fragile.fixAll t).2 with
  | error e => simp [hresult, Except.toOption] at hreported
  | ok report =>
    have hrun : fragile.fixAll t = (t, .ok report) := Prod.ext (congrArg FileTree.mk hleft) hresult
    have hnamed : t.Named := by decide
    obtain ⟨files, fresh, hfiles, hanalyze, hrest⟩ :=
      analyze_after_fixAll fragile [] t t report hnamed hrun rfl
    simp only [hresult, hanalyze, Except.toOption, Option.map_some, Option.some.injEq,
      Prod.mk.injEq] at hreported hfound
    exact ⟨report, hnamed, hrun, hreported.1, hreported.2, files, fresh, hfiles, hanalyze, hfound.1,
      hfound.2, hrest⟩

end Linter

end CallChain
