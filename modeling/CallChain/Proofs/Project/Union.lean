import CallChain.Proofs.Linter.Alike
import CallChain.Proofs.Project.Fresh
import CallChain.Proofs.Report.Order

/-!
# What an analysis reports

The report of an analysis is put together from the findings in the single files that can be parsed, and
sorted by path, line and column. Sorting is stable, so that the findings of one file stay in the order in
which they stand in its text, provided that lines and columns tell the same order as offsets. A linter
that is told to fail on a parse fault fails at the first file that has one.
-/
namespace CallChain

/-- The rule reports what it finds under the path that it is given for the file. -/
def Rule.StaysInFile (rule : Rule) : Prop :=
  ∀ ctx tree, ∀ v ∈ rule.check ctx tree, v.location.InFile ctx.relativePath

namespace Linter

variable {l : Linter} {t : FileTree} {path : Path} {files : List Path}

/-- What the front end makes of the text of a file, if there are both. -/
def parsed? (l : Linter) (t : FileTree) (path : Path) : Option (Except ParseFault Syntax.Arena) :=
  (l.frontEnd? path).bind fun frontEnd => (t.readText? path).map frontEnd.parse

/-- The file holds a text of its language. -/
def parses (l : Linter) (t : FileTree) (path : Path) : Bool :=
  match l.parsed? t path with
  | some (.ok _) => true
  | _ => false

/-- The findings in a file, in the order of its text. There are none in a file that cannot be checked. -/
def found (l : Linter) (t : FileTree) (path : Path) : List Violation := (l.found? t path).getD []

/-- Lines and columns of the findings in a file tell the same order as their offsets. -/
def LinesAgree (l : Linter) (t : FileTree) (path : Path) : Prop :=
  ∀ v ∈ l.found t path, ∀ w ∈ l.found t path,
    v.location.offset ≤ w.location.offset → v.location.UpTo w.location

/-- A file with a front end and a text is parsed and checked, or has a fault that ends its check. -/
theorem parses_or_fault (hfront : (l.frontEnd? path).isSome = true)
    (hread : (t.readText? path).isSome = true) : ∃ content, t.readText? path = some content ∧
      ((∃ vs, l.parses t path = true ∧ l.check path content = .ok vs) ∨
        ∃ fault, l.parses t path = false ∧ l.parsed? t path = some (.error fault) ∧
          l.check path content = .error (.unparsable path fault)) := by
  obtain ⟨frontEnd, hfront⟩ := Option.isSome_iff_exists.mp hfront
  obtain ⟨content, hread⟩ := Option.isSome_iff_exists.mp hread
  have hparsed : l.parsed? t path = some (frontEnd.parse content) := by
    rw [parsed?, hfront, Option.bind_some, hread, Option.map_some]
  have htree : l.treeOf path content = (frontEnd.parse content).mapError (.unparsable path) := by
    rw [treeOf, hfront]
  refine ⟨content, hread, ?_⟩
  rw [parses, hparsed, check_eq, htree]
  cases frontEnd.parse content with
  | ok tree => exact Or.inl ⟨_, rfl, rfl⟩
  | error fault => exact Or.inr ⟨fault, rfl, rfl, rfl⟩

/-- What is found in files that all have a front end and a text, file by file. -/
theorem filterMap_found? (hfront : ∀ p ∈ files, (l.frontEnd? p).isSome = true)
    (hread : ∀ p ∈ files, (t.readText? p).isSome = true) :
    files.filterMap (l.found? t) = (files.filter (l.parses t)).map (l.found t) := by
  induction files with
  | nil => rfl
  | cons path files ih =>
    have hrest := ih (fun p hp => hfront p (List.mem_cons_of_mem path hp))
      (fun p hp => hread p (List.mem_cons_of_mem path hp))
    obtain ⟨content, hcontent, ⟨vs, hparses, hcheck⟩ | ⟨fault, hparses, -, hcheck⟩⟩ :=
      parses_or_fault (hfront path List.mem_cons_self) (hread path List.mem_cons_self)
    · have hvs := found?_of_check hcontent hcheck
      rw [List.filterMap_cons_some hvs, List.filter_cons_of_pos hparses, List.map_cons, hrest, found, hvs]
      rfl
    · rw [List.filterMap_cons_none (found?_of_error hcontent hcheck),
        List.filter_cons_of_neg (by simp [hparses]), hrest]

theorem found_of_not_parses (hfront : (l.frontEnd? path).isSome = true)
    (hread : (t.readText? path).isSome = true) (h : l.parses t path = false) : l.found t path = [] := by
  obtain ⟨content, hcontent, ⟨vs, hparses, -⟩ | ⟨fault, -, -, hcheck⟩⟩ := parses_or_fault hfront hread
  · rw [h] at hparses
    cases hparses
  · rw [found, found?_of_error hcontent hcheck]
    rfl

/-- Files that cannot be parsed have no findings. -/
theorem flatMap_filter_parses (hfront : ∀ p ∈ files, (l.frontEnd? p).isSome = true)
    (hread : ∀ p ∈ files, (t.readText? p).isSome = true) :
    (files.filter (l.parses t)).flatMap (l.found t) = files.flatMap (l.found t) := by
  induction files with
  | nil => rfl
  | cons path files ih =>
    have hrest := ih (fun p hp => hfront p (List.mem_cons_of_mem path hp))
      (fun p hp => hread p (List.mem_cons_of_mem path hp))
    cases hparses : l.parses t path with
    | true => rw [List.filter_cons_of_pos hparses, List.flatMap_cons, List.flatMap_cons, hrest]
    | false =>
      have hnil := found_of_not_parses (hfront path List.mem_cons_self) (hread path List.mem_cons_self)
        hparses
      rw [List.filter_cons_of_neg (by simp [hparses]), List.flatMap_cons, hnil, List.nil_append, hrest]

/-! ### The findings of one file -/

theorem location_of_mem_findings {ctx : FileContext} {tree : Syntax.Arena} {v : Violation}
    (h : v ∈ l.findings ctx tree) :
    ∃ rule ∈ l.rules, ∃ w ∈ rule.check ctx tree, v.location = w.location := by
  rw [findings, List.mem_flatMap] at h
  obtain ⟨rule, hrule, hv⟩ := h
  refine ⟨rule, List.mem_of_mem_filter hrule, ?_⟩
  cases hseverity : l.config.severity? rule.name with
  | none =>
    rw [hseverity] at hv
    exact ⟨v, hv, rfl⟩
  | some severity =>
    rw [hseverity] at hv
    obtain ⟨w, hw, rfl⟩ := List.mem_map.mp hv
    exact ⟨w, hw, rfl⟩

/-- What the rules find in a file, rule by rule. -/
def foundByRules (l : Linter) (t : FileTree) (path : Path) : List Violation :=
  match t.readText? path, l.parsed? t path with
  | some content, some (.ok tree) => l.findings (.make path content l.base) tree
  | _, _ => []

theorem found_eq (l : Linter) (t : FileTree) (path : Path) :
    l.found t path = (l.foundByRules t path).mergeSort Violation.inText := by
  rw [found, found?, foundByRules, parsed?]
  cases t.readText? path with
  | none => rw [List.mergeSort_nil]; rfl
  | some content =>
    rw [Option.bind_some, check_eq, treeOf]
    cases l.frontEnd? path with
    | none => exact List.mergeSort_nil.symm
    | some frontEnd =>
      simp only [Option.bind_some, Option.map_some]
      cases frontEnd.parse content with
      | error fault => exact List.mergeSort_nil.symm
      | ok tree => rfl

/-- A finding in a file is at a place that some rule reports of it. -/
theorem location_of_mem_found {v : Violation} (h : v ∈ l.found t path) :
    ∃ rule ∈ l.rules, ∃ content tree, ∃ w ∈ rule.check (.make path content l.base) tree,
      v.location = w.location := by
  rw [found_eq, List.mem_mergeSort, foundByRules] at h
  split at h
  · next content tree _ _ =>
    obtain ⟨rule, hrule, w, hw, hlocation⟩ := location_of_mem_findings h
    exact ⟨rule, hrule, content, tree, w, hw, hlocation⟩
  · cases h

theorem inFile_of_mem_found (hrules : ∀ rule ∈ l.rules, rule.StaysInFile) {v : Violation}
    (h : v ∈ l.found t path) : v.location.InFile (path.relativeTo l.base) := by
  obtain ⟨rule, hrule, content, tree, w, hw, hlocation⟩ := location_of_mem_found h
  rw [hlocation]
  exact hrules rule hrule (.make path content l.base) tree w hw

theorem found_pairwise_offset (l : Linter) (t : FileTree) (path : Path) :
    (l.found t path).Pairwise fun v w => v.location.offset ≤ w.location.offset := by
  rw [found_eq]
  exact Violation.pairwise_mergeSort_inText _

/-- A file's findings are in the order of a report already. -/
theorem found_pairwise_inOrder (hrules : ∀ rule ∈ l.rules, rule.StaysInFile)
    (hlines : LinesAgree l t path) :
    (l.found t path).Pairwise fun v w => Report.inOrder v w = true := by
  refine (found_pairwise_offset l t path).imp_of_mem fun {v w} hv hw hle => ?_
  have hsame : v.location.InFile w.location.file :=
    (inFile_of_mem_found hrules hv).trans (inFile_of_mem_found hrules hw).symm
  exact (Report.inOrder_iff v w).mpr (Or.inr ⟨hsame, hlines v hv w hw hle⟩)

/-- Of the findings in several files, those under the path of one of them are the findings in it. -/
theorem filter_flatMap_found (hrules : ∀ rule ∈ l.rules, rule.StaysInFile)
    (hapart : files.Pairwise fun p q =>
      (p.relativeTo l.base).components ≠ (q.relativeTo l.base).components) (hpath : path ∈ files) :
    (files.flatMap (l.found t)).filter (·.location.InFile (path.relativeTo l.base)) =
      l.found t path := by
  have hself : ∀ p : Path, (l.found t p).filter (·.location.InFile (p.relativeTo l.base)) = l.found t p :=
    fun p => List.filter_eq_self.mpr fun v hv => decide_eq_true (inFile_of_mem_found hrules hv)
  have hother : ∀ p q : Path, (p.relativeTo l.base).components ≠ (q.relativeTo l.base).components →
      (l.found t p).filter (·.location.InFile (q.relativeTo l.base)) = [] := by
    intro p q hne
    refine List.filter_eq_nil_iff.mpr fun v hv hin => hne ?_
    exact (inFile_of_mem_found hrules hv).symm.trans (of_decide_eq_true hin)
  induction files with
  | nil => cases hpath
  | cons p files ih =>
    obtain ⟨hfirst, hrest⟩ := List.pairwise_cons.mp hapart
    rw [List.flatMap_cons, List.filter_append]
    rcases List.mem_cons.mp hpath with rfl | hpath
    · rw [hself, List.filter_flatMap, List.flatMap_eq_nil_iff.mpr, List.append_nil]
      exact fun q hq => hother q path (hfirst q hq).symm
    · rw [hother p path (hfirst path hpath), List.nil_append, ih hrest hpath]

/-! ### The report of all files -/

/-- The report is the sorted union of what is found in the files. -/
structure SortedUnion (l : Linter) (t : FileTree) (files : List Path) (report : Report) : Prop where
  /-- The files that can be parsed are counted. -/
  checked : report.filesChecked = files.countP (l.parses t)
  /-- Nothing is lost or reported twice. -/
  union : report.violations.Perm ((files.filter (l.parses t)).flatMap (l.found t))
  sorted : report.violations.Pairwise fun v w => v.location.Before w.location
  /-- Under the path of a file stands what is found in it, in that order. -/
  own : (files.Pairwise fun p q =>
      (p.relativeTo l.base).components ≠ (q.relativeTo l.base).components) →
    (∀ rule ∈ l.rules, rule.StaysInFile) → (∀ path ∈ files, LinesAgree l t path) →
    ∀ path ∈ files,
      report.violations.filter (·.location.InFile (path.relativeTo l.base)) = l.found t path

theorem sortedUnion_sort (hfront : ∀ p ∈ files, (l.frontEnd? p).isSome = true)
    (hread : ∀ p ∈ files, (t.readText? p).isSome = true) :
    SortedUnion l t files (Report.empty.extend (files.filterMap (l.found? t))).sort := by
  have hviolations : (Report.empty.extend (files.filterMap (l.found? t))).violations =
      (files.filter (l.parses t)).flatMap (l.found t) := by
    rw [filterMap_found? hfront hread, Report.extend, Report.empty, List.nil_append, List.flatMap_def]
  refine ⟨?_, ?_, ?_, fun hapart hrules hlines path hpath => ?_⟩
  · rw [Report.sort, Report.extend, filterMap_found? hfront hread, List.length_map,
      List.countP_eq_length_filter, Report.empty, Nat.zero_add]
  · rw [Report.sort, hviolations]
    exact List.mergeSort_perm _ _
  · rw [Report.sort]
    exact (List.pairwise_mergeSort Report.inOrder_trans Report.inOrder_total _).imp
      fun {v w} h => (Report.inOrder_iff v w).mp h
  · have hmine := filter_flatMap_found (t := t) hrules hapart hpath
    rw [Report.sort, hviolations, flatMap_filter_parses hfront hread,
      filter_mergeSort Report.inOrder_trans Report.inOrder_total, hmine]
    rw [hmine]
    exact found_pairwise_inOrder hrules (hlines path hpath)

/-- The error is the parse fault of the first file that has one. -/
def FirstFault (l : Linter) (t : FileTree) (files : List Path) (e : Error) : Prop :=
  ∃ before path after fault, files = before ++ path :: after ∧
    (∀ p ∈ before, l.parses t p = true) ∧ l.parsed? t path = some (.error fault) ∧
    e = .unparsable path fault

/-- A linter that fails on parse faults gets past files without one, and stops at the first other. -/
theorem analyzeFiles_of_failOnParseError (hfail : l.failOnParseError = true)
    (hfront : ∀ p ∈ files, (l.frontEnd? p).isSome = true)
    (hread : ∀ p ∈ files, (t.readText? p).isSome = true) (report : Report) :
    ((∀ p ∈ files, l.parses t p = true) ∧ ∃ next, l.analyzeFiles t files report = .ok next) ∨
      ((∃ p ∈ files, l.parses t p = false) ∧
        ∃ e, l.analyzeFiles t files report = .error e ∧ FirstFault l t files e) := by
  induction files generalizing report with
  | nil => exact Or.inl ⟨by simp, report, rfl⟩
  | cons path files ih =>
    obtain ⟨content, hcontent, hfirst⟩ :=
      parses_or_fault (hfront path List.mem_cons_self) (hread path List.mem_cons_self)
    rw [analyzeFiles, readFile, hcontent]
    simp only [bind, Except.bind]
    rcases hfirst with ⟨vs, hparses, hcheck⟩ | ⟨fault, hparses, hparsed, hcheck⟩
    · simp only [hcheck]
      rcases ih (fun p hp => hfront p (List.mem_cons_of_mem path hp))
          (fun p hp => hread p (List.mem_cons_of_mem path hp)) _ with
        ⟨hall, next, hrun⟩ | ⟨⟨p, hp, hbad⟩, e, hrun, before, bad, after, fault, rfl, hbefore, hrest⟩
      · exact Or.inl ⟨List.forall_mem_cons.mpr ⟨hparses, hall⟩, next, hrun⟩
      · refine Or.inr ⟨⟨p, List.mem_cons_of_mem path hp, hbad⟩, e, hrun, ?_⟩
        exact ⟨path :: before, bad, after, fault, rfl, List.forall_mem_cons.mpr ⟨hparses, hbefore⟩, hrest⟩
    · refine Or.inr ⟨⟨path, List.mem_cons_self, hparses⟩, .unparsable path fault, ?_, ?_⟩
      · simp only [hcheck, passOver, hfail, if_true]
      · exact ⟨[], path, files, fault, rfl, by simp, hparsed, rfl⟩

theorem analyze_of_discover (hfiles : l.discover t = .ok files) :
    l.analyze t = (l.analyzeFiles t files .empty).map Report.sort := by
  rw [analyze, hfiles]
  simp only [bind, Except.bind]
  cases l.analyzeFiles t files .empty <;> rfl

/-- An analysis of files that can all be read reports the sorted union of what is found in them. One that
fails on parse faults fails exactly if a file has one, and with that of the first such file. -/
theorem analyze_sorted_union (l : Linter) (t : FileTree) (files : List Path)
    (hfiles : l.discover t = .ok files) (hread : ∀ path ∈ files, (t.readText? path).isSome = true) :
    (files.Pairwise fun p q => (p.compare q).isLE = true) ∧
      (l.failOnParseError = false → ∃ report, l.analyze t = .ok report ∧ SortedUnion l t files report) ∧
      (l.failOnParseError = true →
        ((∃ e, l.analyze t = .error e) ↔ ∃ path ∈ files, l.parses t path = false) ∧
        ∀ e, l.analyze t = .error e → FirstFault l t files e) := by
  obtain ⟨hfront, hsorted⟩ := of_discover hfiles
  refine ⟨hsorted, fun hpass => ?_, fun hfail => ?_⟩
  · have hpassable : ∀ path ∈ files, Passable l t path := by
      intro path hpath
      obtain ⟨content, hcontent, hfirst⟩ := parses_or_fault (hfront path hpath) (hread path hpath)
      refine ⟨content, hcontent, fun e he => ?_⟩
      rcases hfirst with ⟨vs, -, hcheck⟩ | ⟨fault, -, -, hcheck⟩
      · rw [hcheck] at he
        cases he
      · rw [hcheck, Except.error.injEq] at he
        rw [← he, passOver, hpass]
        rfl
    refine ⟨_, ?_, sortedUnion_sort hfront hread⟩
    rw [analyze_of_discover hfiles, analyzeFiles_eq hpassable]
    rfl
  · rw [analyze_of_discover hfiles]
    rcases analyzeFiles_of_failOnParseError hfail hfront hread .empty with
      ⟨hall, next, hrun⟩ | ⟨⟨path, hpath, hbad⟩, e, hrun, hfault⟩
    · rw [hrun]
      refine ⟨⟨?_, ?_⟩, ?_⟩
      · rintro ⟨e, he⟩
        cases he
      · rintro ⟨path, hpath, hbad⟩
        rw [hall path hpath] at hbad
        cases hbad
      · intro e he
        cases he
    · rw [hrun]
      refine ⟨⟨fun _ => ⟨path, hpath, hbad⟩, fun _ => ⟨e, rfl⟩⟩, fun e' he => ?_⟩
      obtain rfl := Except.error.inj he
      exact hfault

/-- Two files with semicolons, one of them in a directory, and between them one that is no text of the
language of `fragile`. -/
def mixedFiles : FileTree where
  entries := [(["a.txt"], .file (.text "x;y;")), (["b.txt"], .file (.text "!!")),
    (["c", "d.txt"], .file (.text ";"))]

def mixedPaths : List Path := [⟨"./a.txt"⟩, ⟨"./b.txt"⟩, ⟨"./c/d.txt"⟩]

/-- The linter `fragile`, told what to do at a parse fault. -/
def fragileAt (failOnParseError : Bool) : Linter := { fragile with failOnParseError }

theorem discover_mixedFiles (fail : Bool) : (fragileAt fail).discover mixedFiles = .ok mixedPaths := by
  have hwalk : (fragileAt fail).walk mixedFiles = .ok mixedPaths := by cases fail <;> decide +kernel
  have hkept : mixedPaths.filter (fun path =>
      ((fragileAt fail).frontEnd? path).isSome && !(fragileAt fail).isExcluded path) = mixedPaths := by
    cases fail <;> decide +kernel
  have hsorted : mixedPaths.mergeSort (fun p q => (p.compare q).isLE) = mixedPaths :=
    List.mergeSort_of_pairwise (by decide +kernel)
  rw [discover, hwalk]
  refine congrArg Except.ok ?_
  rw [hkept, hsorted]

theorem staysInFile_fragileAt (fail : Bool) : ∀ rule ∈ (fragileAt fail).rules, rule.StaysInFile := by
  intro rule hrule ctx tree v hv
  obtain rfl := List.mem_singleton.mp hrule
  obtain ⟨offset, -, rfl⟩ := List.mem_map.mp hv
  rfl

theorem linesAgree_fragileAt (fail : Bool) (t : FileTree) (path : Path) :
    LinesAgree (fragileAt fail) t path := by
  have hplace : ∀ v ∈ (fragileAt fail).found t path,
      v.location.line = 1 ∧ v.location.column = v.location.offset + 1 := by
    intro v hv
    obtain ⟨rule, hrule, content, tree, w, hw, hlocation⟩ := location_of_mem_found hv
    obtain rfl := List.mem_singleton.mp hrule
    obtain ⟨offset, -, rfl⟩ := List.mem_map.mp hw
    rw [hlocation]
    exact ⟨rfl, rfl⟩
  intro v hv w hw hle
  have hv := hplace v hv
  have hw := hplace w hw
  exact Or.inr ⟨by omega, by omega⟩

/-- The three semicolons are reported, each under its own file; a linter that fails on parse faults fails
at the second file. -/
theorem analyze_sorted_union_mixedFiles :
    (∀ fail, (fragileAt fail).discover mixedFiles = .ok mixedPaths) ∧
      (∀ path ∈ mixedPaths, (mixedFiles.readText? path).isSome = true) ∧
      (∃ report, (fragileAt false).analyze mixedFiles = .ok report ∧ report.filesChecked = 2 ∧
        report.violations.length = 3 ∧ SortedUnion (fragileAt false) mixedFiles mixedPaths report ∧
        ∀ path ∈ mixedPaths, report.violations.filter (·.location.InFile (path.relativeTo ⟨"."⟩)) =
          (fragileAt false).found mixedFiles path) ∧
      ∃ e, (fragileAt true).analyze mixedFiles = .error e ∧
        FirstFault (fragileAt true) mixedFiles mixedPaths e := by
  have hread : ∀ path ∈ mixedPaths, (mixedFiles.readText? path).isSome = true := by decide +kernel
  refine ⟨discover_mixedFiles, hread, ?_, ?_⟩
  · obtain ⟨-, hunion, -⟩ := analyze_sorted_union (fragileAt false) mixedFiles mixedPaths
      (discover_mixedFiles false) hread
    obtain ⟨report, hanalyze, hreport⟩ := hunion rfl
    have hparses : mixedPaths.filter ((fragileAt false).parses mixedFiles) =
        [⟨"./a.txt"⟩, ⟨"./c/d.txt"⟩] := by decide +kernel
    have hcount : ∀ path, ((fragileAt false).found mixedFiles path).length =
        ((fragileAt false).foundByRules mixedFiles path).length := by
      intro path
      rw [found_eq, List.length_mergeSort]
    refine ⟨report, hanalyze, ?_, ?_, hreport, ?_⟩
    · rw [hreport.checked, List.countP_eq_length_filter, hparses]
      rfl
    · rw [hreport.union.length_eq, hparses]
      simp only [List.length_flatMap, hcount]
      decide +kernel
    · exact hreport.own (by decide +kernel) (staysInFile_fragileAt false)
        fun path _ => linesAgree_fragileAt false mixedFiles path
  · obtain ⟨-, -, hfault⟩ := analyze_sorted_union (fragileAt true) mixedFiles mixedPaths
      (discover_mixedFiles true) hread
    obtain ⟨hfails, hfirst⟩ := hfault rfl
    obtain ⟨e, he⟩ := hfails.mpr ⟨⟨"./b.txt"⟩, by decide, by decide +kernel⟩
    exact ⟨e, he, hfirst e he⟩

end Linter

end CallChain
