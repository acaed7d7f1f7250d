import CallChain.Proofs.Project.Union

/-!
# Leaving out files

One more test on paths takes the files that it accepts out of an analysis and changes nothing else: leaving
files out commutes with sorting the paths, with checking the files one by one and with sorting the report.
Where the test stands among the others does not matter. This holds of any tests and of any walk that they
have no part in; exclude patterns are such tests, and the walk from the root is such a walk.
-/
namespace CallChain.Linter

variable {l : Linter} {t : FileTree} {p : Exclude.Pattern} {met files : List Path}
  {report report' : Report} {accepts : String → Bool} {tests : List (String → Bool)}
  {before behind : List Exclude.Pattern}

/-- The test accepts the path as it is found, or the path below the root. -/
def leavesOut (l : Linter) (accepts : String → Bool) (path : Path) : Bool :=
  accepts path.text || accepts (path.relativeTo l.root).text

/-- The files to look at, in order, of those that a walk has met. -/
def select (l : Linter) (met : List Path) (tests : List (String → Bool)) : List Path :=
  (met.filter fun path => (l.frontEnd? path).isSome && !tests.any (l.leavesOut · path)).mergeSort
    fun p q => (p.compare q).isLE

/-- The findings in the files that a walk has met and no test leaves out. -/
def analyzeMet (l : Linter) (t : FileTree) (met : List Path) (tests : List (String → Bool)) :
    Except Error Report :=
  (l.analyzeFiles t (l.select met tests) .empty).map Report.sort

/-- The linter with other exclude patterns. -/
def withExclude (l : Linter) (patterns : List Exclude.Pattern) : Linter :=
  { l with exclude := patterns }

/-- One more test leaves those from before that it does not accept. -/
theorem select_append_cons (l : Linter) (met : List Path) (accepts : String → Bool)
    (before behind : List (String → Bool)) :
    l.select met (before ++ accepts :: behind) =
      (l.select met (before ++ behind)).filter fun path => !l.leavesOut accepts path := by
  rw [select, select, filter_mergeSort_comm (fun p q r => Std.TransCmp.isLE_trans) Path.isLE_total,
    List.filter_filter]
  congr 2
  funext path
  rw [List.any_append, List.any_append, List.any_cons]
  cases l.leavesOut accepts path <;> simp

theorem frontEnd?_of_mem_select {path : Path} (h : path ∈ l.select met tests) :
    (l.frontEnd? path).isSome = true :=
  (Bool.and_eq_true_iff.mp (List.mem_filter.mp (List.mem_mergeSort.mp h)).2).1

theorem discover_of_walk (h : l.walk t = .ok met) :
    l.discover t = .ok (l.select met (l.exclude.map (·.accepts))) := by
  have hexcluded : ∀ path, (l.exclude.map (·.accepts)).any (l.leavesOut · path) = l.isExcluded path := by
    intro path
    rw [List.any_map]
    rfl
  rw [discover, h, select]
  simp only [hexcluded]
  rfl

theorem exists_walk_of_discover (h : l.discover t = .ok files) :
    ∃ met, l.walk t = .ok met ∧ files = l.select met (l.exclude.map (·.accepts)) := by
  cases hmet : l.walk t with
  | error e => rw [discover, hmet] at h; cases h
  | ok met =>
    rw [discover_of_walk hmet] at h
    exact ⟨met, rfl, (Except.ok.inj h).symm⟩

/-- The files to look at are those from before that the pattern does not match. -/
theorem discover_withExclude (h : l.exclude = before ++ behind) (hfiles : l.discover t = .ok files) :
    (l.withExclude (before ++ p :: behind)).discover t =
      .ok (files.filter fun path => !l.leavesOut p.accepts path) := by
  obtain ⟨met, hmet, rfl⟩ := exists_walk_of_discover hfiles
  have hwalk : (l.withExclude (before ++ p :: behind)).walk t = .ok met := hmet
  rw [discover_of_walk hwalk, h, List.map_append, ← select_append_cons]
  change Except.ok (l.select met ((before ++ p :: behind).map (·.accepts))) = _
  rw [List.map_append, List.map_cons]

/-- A file is read and checked without a look at the patterns. -/
theorem analyzeFiles_withExclude (l : Linter) (t : FileTree) (patterns : List Exclude.Pattern)
    (files : List Path) (report : Report) :
    (l.withExclude patterns).analyzeFiles t files report = l.analyzeFiles t files report := by
  induction files generalizing report with
  | nil => rfl
  | cons path files ih =>
    rw [analyzeFiles, analyzeFiles]
    simp only [ih]
    rfl

/-- The exclude patterns are the tests of the analysis from the root. -/
theorem analyze_withExclude (h : l.walk t = .ok met) (patterns : List Exclude.Pattern) :
    (l.withExclude patterns).analyze t = l.analyzeMet t met (patterns.map (·.accepts)) := by
  have hwalk : (l.withExclude patterns).walk t = .ok met := h
  rw [analyze_of_discover (discover_of_walk hwalk), analyzeFiles_withExclude]
  rfl

/-- An analysis that gets to its end gets past each file. -/
theorem passable_of_analyzeFiles (h : l.analyzeFiles t files report = .ok report') :
    ∀ path ∈ files, Passable l t path := by
  induction files generalizing report with
  | nil => exact fun path hpath => absurd hpath List.not_mem_nil
  | cons path files ih =>
    rw [analyzeFiles, readFile] at h
    cases hread : t.readText? path with
    | none => rw [hread] at h; cases h
    | some content =>
      rw [hread] at h
      simp only [bind, Except.bind] at h
      cases hcheck : l.check path content with
      | ok vs =>
        simp only [hcheck] at h
        refine List.forall_mem_cons.mpr ⟨⟨content, hread, fun e he => ?_⟩, ih h⟩
        rw [hcheck] at he
        cases he
      | error e =>
        simp only [hcheck] at h
        cases hpass : l.passOver e with
        | error e' => simp only [hpass] at h; cases h
        | ok _ =>
          simp only [hpass] at h
          refine List.forall_mem_cons.mpr ⟨⟨content, hread, fun e' he => ?_⟩, ih h⟩
          rw [hcheck, Except.error.injEq] at he
          rw [← he, hpass]

theorem isSome_readText? (h : ∀ path ∈ files, Passable l t path) :
    ∀ path ∈ files, (t.readText? path).isSome = true := by
  intro path hpath
  obtain ⟨content, hcontent, -⟩ := h path hpath
  rw [hcontent]
  rfl

/-- The report on files that an analysis gets past. -/
def reportOn (l : Linter) (t : FileTree) (files : List Path) : Report where
  violations := (files.flatMap (l.found t)).mergeSort Report.inOrder
  filesChecked := files.countP (l.parses t)
  filesFixed := 0

theorem analyzeMet_eq (h : ∀ path ∈ l.select met tests, Passable l t path) :
    l.analyzeMet t met tests = .ok (l.reportOn t (l.select met tests)) := by
  have hfront : ∀ path ∈ l.select met tests, (l.frontEnd? path).isSome = true :=
    fun _ => frontEnd?_of_mem_select
  have hread := isSome_readText? h
  have hviolations : ((l.select met tests).filterMap (l.found? t)).flatten =
      (l.select met tests).flatMap (l.found t) := by
    rw [filterMap_found? hfront hread, ← List.flatMap_def, flatMap_filter_parses hfront hread]
  have hchecked : ((l.select met tests).filterMap (l.found? t)).length =
      (l.select met tests).countP (l.parses t) := by
    rw [filterMap_found? hfront hread, List.length_map, List.countP_eq_length_filter]
  rw [analyzeMet, analyzeFiles_eq h, Report.extend, hviolations, hchecked, Report.empty,
    List.nil_append, Nat.zero_add]
  rfl

/-- An analysis that gets to its end gets past every file, and its report is made of what is in them. -/
theorem of_analyzeMet (h : l.analyzeMet t met tests = .ok report) :
    (∀ path ∈ l.select met tests, Passable l t path) ∧ report = l.reportOn t (l.select met tests) := by
  have hpassable : ∀ path ∈ l.select met tests, Passable l t path := by
    cases hrun : l.analyzeFiles t (l.select met tests) .empty with
    | error e => rw [analyzeMet, hrun] at h; cases h
    | ok unsorted => exact passable_of_analyzeFiles hrun
  rw [analyzeMet_eq hpassable] at h
  exact ⟨hpassable, (Except.ok.inj h).symm⟩

theorem of_analyze (hfiles : l.discover t = .ok files) (h : l.analyze t = .ok report) :
    report = l.reportOn t files := by
  obtain ⟨met, hmet, rfl⟩ := exists_walk_of_discover hfiles
  exact (of_analyzeMet ((analyze_withExclude hmet l.exclude).symm.trans h)).2

/-- The finding is in a file that the test does not leave out. -/
def isLeftIn (l : Linter) (files : List Path) (accepts : String → Bool) (v : Violation) : Bool :=
  files.any fun path => v.location.InFile (path.relativeTo l.base) && !l.leavesOut accepts path

/-- What is found in a file is left in if and only if the file is. -/
theorem isLeftIn_of_mem_found (hrules : ∀ rule ∈ l.rules, rule.StaysInFile)
    (hapart : files.Pairwise fun p q =>
      (p.relativeTo l.base).components ≠ (q.relativeTo l.base).components) {path : Path}
    (hpath : path ∈ files) {v : Violation} (hv : v ∈ l.found t path) :
    l.isLeftIn files accepts v = !l.leavesOut accepts path := by
  have hin := inFile_of_mem_found hrules hv
  have hsymm : Std.Symm fun p q : Path =>
      (p.relativeTo l.base).components ≠ (q.relativeTo l.base).components := ⟨fun _ _ => Ne.symm⟩
  rw [isLeftIn, Bool.eq_iff_iff, List.any_eq_true]
  constructor
  · rintro ⟨q, hq, hkept⟩
    rw [Bool.and_eq_true, decide_eq_true_eq] at hkept
    obtain rfl : q = path := by
      by_contra hne
      exact hapart.forall hq hpath hne (hkept.1.symm.trans hin)
    exact hkept.2
  · intro hkept
    exact ⟨path, hpath, by rw [Bool.and_eq_true, decide_eq_true_eq]; exact ⟨hin, hkept⟩⟩

/-- The findings that are left in are those of the files that are. -/
theorem filter_isLeftIn (hrules : ∀ rule ∈ l.rules, rule.StaysInFile)
    (hapart : files.Pairwise fun p q =>
      (p.relativeTo l.base).components ≠ (q.relativeTo l.base).components) :
    (files.flatMap (l.found t)).filter (l.isLeftIn files accepts) =
      (files.filter fun path => !l.leavesOut accepts path).flatMap (l.found t) := by
  have hfile : ∀ path ∈ files, (l.found t path).filter (l.isLeftIn files accepts) =
      if l.leavesOut accepts path then [] else l.found t path := by
    intro path hpath
    have hsame := fun v hv => @isLeftIn_of_mem_found l t files accepts hrules hapart path hpath v hv
    split
    · next hout =>
      refine List.filter_eq_nil_iff.mpr fun v hv => ?_
      rw [hsame v hv, hout]
      exact Bool.false_ne_true
    · next hin =>
      refine List.filter_eq_self.mpr fun v hv => ?_
      rw [hsame v hv]
      simpa using hin
  have hparts : ∀ paths : List Path, (∀ path ∈ paths, path ∈ files) →
      (paths.flatMap (l.found t)).filter (l.isLeftIn files accepts) =
        (paths.filter fun path => !l.leavesOut accepts path).flatMap (l.found t) := by
    intro paths hpaths
    induction paths with
    | nil => rfl
    | cons path paths ih =>
      obtain ⟨hpath, hrest⟩ := List.forall_mem_cons.mp hpaths
      rw [List.flatMap_cons, List.filter_append, hfile path hpath, ih hrest]
      cases hout : l.leavesOut accepts path with
      | true => rw [List.filter_cons_of_neg (by simp [hout])]; rfl
      | false => rw [List.filter_cons_of_pos (by simp [hout])]; rfl
  exact hparts files fun _ h => h

theorem length_reportOn (l : Linter) (t : FileTree) (files : List Path) :
    (l.reportOn t files).violations.length =
      (files.map fun path => (l.foundByRules t path).length).sum := by
  have hcount : ∀ path, (l.found t path).length = (l.foundByRules t path).length := by
    intro path
    rw [found_eq, List.length_mergeSort]
  rw [reportOn, List.length_mergeSort, List.length_flatMap]
  simp only [hcount]

/-- For any walk and any tests, an analysis with one more test gets to its end if the one without it does. It
reports the findings of that one in the files that the test does not leave out, as they are and in their
order, and counts those of these files that can be parsed, wherever the test is put among the others. -/
theorem analyzeMet_with_one_more_test (l : Linter) (t : FileTree) (met : List Path)
    (tests : List (String → Bool)) (accepts : String → Bool)
    (hrules : ∀ rule ∈ l.rules, rule.StaysInFile)
    (hapart : (l.select met tests).Pairwise fun p q =>
      (p.relativeTo l.base).components ≠ (q.relativeTo l.base).components)
    (hrun : l.analyzeMet t met tests = .ok report) :
    ∃ fewer : Report,
      (∀ before behind, tests = before ++ behind →
        l.analyzeMet t met (before ++ accepts :: behind) = .ok fewer) ∧
      fewer.violations = report.violations.filter (l.isLeftIn (l.select met tests) accepts) ∧
      fewer.filesChecked =
        ((l.select met tests).filter fun path => !l.leavesOut accepts path).countP (l.parses t) := by
  obtain ⟨hpassable, rfl⟩ := of_analyzeMet hrun
  refine ⟨l.reportOn t ((l.select met tests).filter fun path => !l.leavesOut accepts path),
    fun before behind h => ?_, ?_, rfl⟩
  · rw [h] at hpassable ⊢
    rw [← select_append_cons]
    refine analyzeMet_eq fun path hpath => hpassable path ?_
    rw [select_append_cons] at hpath
    exact List.mem_of_mem_filter hpath
  · rw [reportOn, reportOn, filter_mergeSort_comm Report.inOrder_trans Report.inOrder_total,
      filter_isLeftIn hrules hapart]

/-- An analysis with one more exclude pattern gets to its end if the one without it does. It reports the
findings of that one in the files that the pattern does not match, as they are and in their order, and
counts those of these files that can be parsed. The place of the pattern in the list is of no effect. -/
theorem analyze_with_one_more_exclude (l : Linter) (t : FileTree) (p : Exclude.Pattern)
    (files : List Path) (report : Report) (hrules : ∀ rule ∈ l.rules, rule.StaysInFile)
    (hfiles : l.discover t = .ok files)
    (hapart : files.Pairwise fun p q =>
      (p.relativeTo l.base).components ≠ (q.relativeTo l.base).components)
    (hrun : l.analyze t = .ok report) :
    ∃ fewer : Report,
      (∀ before behind, l.exclude = before ++ behind →
        (l.withExclude (before ++ p :: behind)).analyze t = .ok fewer) ∧
      fewer.violations = report.violations.filter (l.isLeftIn files p.accepts) ∧
      fewer.filesChecked = (files.filter fun path => !l.leavesOut p.accepts path).countP (l.parses t) := by
  obtain ⟨met, hmet, rfl⟩ := exists_walk_of_discover hfiles
  have hrunMet : l.analyzeMet t met (l.exclude.map (·.accepts)) = .ok report :=
    (analyze_withExclude hmet l.exclude).symm.trans hrun
  obtain ⟨fewer, hfewer, hviolations, hchecked⟩ :=
    analyzeMet_with_one_more_test l t met _ p.accepts hrules hapart hrunMet
  refine ⟨fewer, fun before behind h => ?_, hviolations, hchecked⟩
  rw [analyze_withExclude hmet, List.map_append, List.map_cons]
  exact hfewer _ _ (by rw [h, List.map_append])

/-- The pattern `b*`. -/
def namedB : Exclude.Pattern := ⟨[.char 'b', .anyRun]⟩

/-- The pattern `c/*`. -/
def inFolderC : Exclude.Pattern := ⟨[.char 'c', .char '/', .anyRun]⟩

def withoutB : Linter := (fragileAt false).withExclude [namedB]

theorem discover_withoutB : withoutB.discover mixedFiles = .ok [⟨"./a.txt"⟩, ⟨"./c/d.txt"⟩] := by
  have h := @discover_withExclude (fragileAt false) mixedFiles namedB mixedPaths [] [] rfl
    (discover_mixedFiles false)
  have hleft : mixedPaths.filter (fun path => !(fragileAt false).leavesOut namedB.accepts path) =
      [⟨"./a.txt"⟩, ⟨"./c/d.txt"⟩] := by decide +kernel
  rwa [hleft] at h

/-- Of three semicolons the two outside the folder are left, wherever in the list its pattern is put. -/
theorem analyze_withoutB_and_folder :
    (∀ rule ∈ withoutB.rules, rule.StaysInFile) ∧
      withoutB.discover mixedFiles = .ok [⟨"./a.txt"⟩, ⟨"./c/d.txt"⟩] ∧
      ∃ report fewer : Report, withoutB.analyze mixedFiles = .ok report ∧
        report.violations.length = 3 ∧ report.filesChecked = 2 ∧
        (∀ before behind, [namedB] = before ++ behind →
          (withoutB.withExclude (before ++ inFolderC :: behind)).analyze mixedFiles = .ok fewer) ∧
        fewer.violations = report.violations.filter
          (withoutB.isLeftIn [⟨"./a.txt"⟩, ⟨"./c/d.txt"⟩] inFolderC.accepts) ∧
        fewer.violations.length = 2 ∧ fewer.filesChecked = 1 := by
  have hrules : ∀ rule ∈ withoutB.rules, rule.StaysInFile := staysInFile_fragileAt false
  have hends : (withoutB.analyze mixedFiles).toOption.isSome = true := by
    rw [analyze_of_discover discover_withoutB]
    decide +kernel
  cases hrun : withoutB.analyze mixedFiles with
  | error e => rw [hrun] at hends; cases hends
  | ok report =>
    obtain ⟨fewer, hfewer, hviolations, hchecked⟩ := analyze_with_one_more_exclude withoutB mixedFiles
      inFolderC _ report hrules discover_withoutB (by decide +kernel) hrun
    obtain rfl := of_analyze discover_withoutB hrun
    have hleft := @discover_withExclude withoutB mixedFiles inFolderC _ [namedB] [] rfl discover_withoutB
    have hreport := of_analyze hleft (hfewer [namedB] [] rfl)
    refine ⟨hrules, discover_withoutB, _, fewer, rfl, ?_, by decide +kernel, hfewer, hviolations, ?_, ?_⟩
    · rw [length_reportOn]
      decide +kernel
    · rw [hreport, length_reportOn]
      decide +kernel
    · rw [hchecked]
      decide +kernel

end CallChain.Linter
