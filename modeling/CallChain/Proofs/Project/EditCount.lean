import CallChain.Proofs.Chain.TextKept
import CallChain.Proofs.Edit.Splice
import CallChain.Proofs.Linter.Iterates
import CallChain.Proofs.Project.Fresh

/-!
# The number of edits that is reported

Each round counts the edits that it keeps, before it tries to put them in. Those that do not fit the text
are counted and passed over, so that the count is that of the edits put in and of these. A round that puts
nothing in leaves the text as it is. It is repeated up to the bound, with all its edits counted again, and
the text is taken for changed: its file is written with the text it had and counted as mended.
-/
namespace CallChain

theorem EditSet.InSequence.apply_of_spliced_nil {s : EditSet} {source : String} (h : s.InSequence)
    (hnone : s.spliced source = []) : s.apply source = source := by
  rw [← String.toByteArray_inj, h.toByteArray_apply, hnone]
  rfl

theorem EditSet.inSequence_ofViolations (vs : List Violation) : (EditSet.ofViolations vs).InSequence :=
  inSequence_ofList _

namespace Linter

variable {l : Linter} {path : Path} {content text : String} {vs : List Violation} {fixed : Fixed}
  {j : Nat}

/-! ### What a round puts in -/

/-- The edits that round `n` puts into its text, the first being round zero. -/
def splicedIn (l : Linter) (path : Path) (content : String) (n : Nat) : List Edit :=
  match l.textAfter path content n, l.foundAfter path content n with
  | .ok text, .ok vs => (EditSet.ofViolations vs).spliced text
  | _, _ => []

/-- The edits that round `n` keeps and that do not fit its text. -/
def misfitsIn (l : Linter) (path : Path) (content : String) (n : Nat) : List Edit :=
  match l.textAfter path content n, l.foundAfter path content n with
  | .ok text, .ok vs => (EditSet.ofViolations vs).edits.filter fun e => !decide (e.Fits text)
  | _, _ => []

theorem foundAfter_of_textAfter (htext : l.textAfter path content j = .ok text) :
    l.foundAfter path content j = l.check path text := by
  rw [foundAfter, htext]
  rfl

theorem splicedIn_eq (htext : l.textAfter path content j = .ok text)
    (hcheck : l.check path text = .ok vs) :
    l.splicedIn path content j = (EditSet.ofViolations vs).spliced text := by
  rw [splicedIn, foundAfter_of_textAfter htext, htext, hcheck]

theorem editsIn_eq (htext : l.textAfter path content j = .ok text)
    (hcheck : l.check path text = .ok vs) :
    l.editsIn path content j = (EditSet.ofViolations vs).size := by
  rw [editsIn, foundAfter_of_textAfter htext, hcheck]

/-- A round counts the edits that it puts in and those that do not fit. -/
theorem editsIn_eq_add (l : Linter) (path : Path) (content : String) (n : Nat) :
    l.editsIn path content n =
      (l.splicedIn path content n).length + (l.misfitsIn path content n).length := by
  cases htext : l.textAfter path content n with
  | error e => simp [editsIn, splicedIn, misfitsIn, foundAfter, htext, bind, Except.bind]
  | ok text =>
    cases hcheck : l.check path text with
    | error e => simp [editsIn, splicedIn, misfitsIn, foundAfter_of_textAfter htext, htext, hcheck]
    | ok vs =>
      rw [editsIn_eq htext hcheck, splicedIn_eq htext hcheck, misfitsIn,
        foundAfter_of_textAfter htext, htext, hcheck, (EditSet.inSequence_ofViolations vs).spliced_eq]
      exact List.length_eq_length_filter_add _

theorem sum_editsIn (l : Linter) (path : Path) (content : String) (n : Nat) :
    ∑ j ∈ Finset.range n, l.editsIn path content j =
      ∑ j ∈ Finset.range n, (l.splicedIn path content j).length +
        ∑ j ∈ Finset.range n, (l.misfitsIn path content j).length := by
  rw [← Finset.sum_add_distrib]
  exact Finset.sum_congr rfl fun j _ => editsIn_eq_add l path content j

/-! ### Rounds that put nothing in -/

/-- A round that puts nothing in leaves its text. -/
theorem textAfter_succ_of_idle (htext : l.textAfter path content j = .ok text)
    (hcheck : l.check path text = .ok vs) (hidle : l.splicedIn path content j = []) :
    l.textAfter path content (j + 1) = .ok text := by
  rw [splicedIn_eq htext hcheck] at hidle
  rw [textAfter, htext]
  change l.round path text = .ok text
  rw [round_of_check hcheck, (EditSet.inSequence_ofViolations vs).apply_of_spliced_nil hidle]

/-- And so do all rounds after it, since they find the same. -/
theorem textAfter_add_of_idle (htext : l.textAfter path content j = .ok text)
    (hcheck : l.check path text = .ok vs) (hidle : l.splicedIn path content j = []) (k : Nat) :
    l.textAfter path content (j + k) = .ok text := by
  induction k with
  | zero => exact htext
  | succ k ih =>
    have hagain : l.splicedIn path content (j + k) = [] := by
      rw [splicedIn_eq ih hcheck, ← splicedIn_eq htext hcheck, hidle]
    exact textAfter_succ_of_idle ih hcheck hagain

/-- Rounds that put nothing in come to no end but the bound. -/
theorem passes_eq_of_idle (h : l.fix path content = .ok fixed) (hj : j < fixed.passes)
    (hidle : l.splicedIn path content j = []) :
    fixed.passes = maxPasses ∧ l.textAfter path content j = .ok fixed.output ∧
      ∀ k ≥ j, l.splicedIn path content k = [] ∧
        l.editsIn path content k = l.editsIn path content j := by
  obtain ⟨hrounds, hchecked, houtput, -, -⟩ := rounds_of_fix h
  obtain ⟨vs, hvs⟩ := hchecked j hj.le
  obtain ⟨text, htext, hcheck⟩ := textAfter_of_foundAfter hvs
  have hafter := textAfter_add_of_idle htext hcheck hidle
  obtain ⟨k, hk⟩ := Nat.exists_eq_add_of_le hj.le
  have hunstable : ¬ l.StableAt path content fixed.passes := by
    intro hstable
    apply hrounds.before j hj
    rw [StableAt, foundAfter_of_textAfter (hk ▸ hafter k)] at hstable
    rwa [StableAt, foundAfter_of_textAfter htext]
  refine ⟨hrounds.stop.resolve_right hunstable, ?_, fun m hm => ?_⟩
  · rw [htext, ← houtput, hk, hafter]
  · obtain ⟨i, rfl⟩ := Nat.exists_eq_add_of_le hm
    rw [splicedIn_eq (hafter i) hcheck, ← splicedIn_eq htext hcheck, editsIn_eq (hafter i) hcheck,
      editsIn_eq htext hcheck]
    exact ⟨hidle, rfl⟩

/-! ### What is reported of a text -/

theorem changed_iff_passes (h : l.fix path content = .ok fixed) :
    fixed.changed = true ↔ 0 < fixed.passes := by
  constructor
  · intro hchanged
    by_contra hnot
    have hpasses : fixed.passes = 0 := by omega
    rw [Fixed.changed, decide_eq_true_eq, (rounds_of_fix h).2.2.2.2, hpasses] at hchanged
    simp at hchanged
  · intro hpasses
    by_contra hnot
    have hzero := (of_not_changed h (by simpa using hnot)).1
    omega

/-- A text is taken for changed if something in it carries a mend, whether that fits or not. -/
theorem changed_iff (h : l.fix path content = .ok fixed) : fixed.changed = true ↔
    ∃ vs, l.check path content = .ok vs ∧ ∃ v ∈ vs, v.replacement? ≠ none := by
  obtain ⟨hrounds, hchecked, -⟩ := rounds_of_fix h
  obtain ⟨vs, hvs⟩ := hchecked 0 (Nat.zero_le _)
  rw [foundAfter_zero] at hvs
  have hstable : 0 < fixed.passes ↔ ¬ l.StableAt path content 0 := by
    constructor
    · exact hrounds.before 0
    · intro hnot
      rw [Nat.pos_iff_ne_zero]
      intro hpasses
      have hstop := hrounds.stop
      rw [hpasses] at hstop
      exact hstop.elim (by simp [maxPasses]) hnot
  rw [changed_iff_passes h, hstable, StableAt, foundAfter_zero, hvs]
  simp

/-- What the numbers that mending a text reports stand for. -/
structure EditCount (l : Linter) (path : Path) (content : String) (fixed : Fixed) : Prop where
  /-- Counted are the edits put in and those that do not fit the text of their round. -/
  total : fixed.edits =
    ∑ j ∈ Finset.range fixed.passes, (l.splicedIn path content j).length +
      ∑ j ∈ Finset.range fixed.passes, (l.misfitsIn path content j).length
  /-- The number is that of the edits put in exactly if all of them fit. -/
  exact_iff : fixed.edits = ∑ j ∈ Finset.range fixed.passes, (l.splicedIn path content j).length ↔
    ∀ j < fixed.passes, l.misfitsIn path content j = []
  changed_iff : fixed.changed = true ↔
    ∃ vs, l.check path content = .ok vs ∧ ∃ v ∈ vs, v.replacement? ≠ none
  /-- After a round that puts nothing in all rounds up to the bound are like it. -/
  idle : ∀ j < fixed.passes, l.splicedIn path content j = [] →
    fixed.passes = 10 ∧ l.textAfter path content j = .ok fixed.output ∧
      ∀ k ≥ j, l.splicedIn path content k = [] ∧
        l.editsIn path content k = l.editsIn path content j
  /-- Where the first round puts nothing in, the text stays and its edits are counted ten times. -/
  unaltered : fixed.changed = true → l.splicedIn path content 0 = [] →
    fixed.output = content ∧ fixed.edits = 10 * l.editsIn path content 0

theorem editCount_of_fix (h : l.fix path content = .ok fixed) : EditCount l path content fixed := by
  have hedits := (rounds_of_fix h).2.2.2.2
  have htotal := hedits.trans (sum_editsIn l path content fixed.passes)
  refine ⟨htotal, ?_, changed_iff h, fun j hj hidle => passes_eq_of_idle h hj hidle, ?_⟩
  · rw [htotal, Nat.add_eq_left, Finset.sum_eq_zero_iff]
    simp
  · intro hchanged hidle
    obtain ⟨hpasses, houtput, hsame⟩ := passes_eq_of_idle h ((changed_iff_passes h).mp hchanged) hidle
    refine ⟨(Except.ok.inj houtput).symm, ?_⟩
    rw [hedits, hpasses, Finset.sum_congr rfl fun k _ => (hsame k (Nat.zero_le k)).2]
    simp [maxPasses]

/-! ### What is reported of files -/

variable {locked : List Place} {t t' : FileTree} {report : Report}

/-- Mending the file puts an edit into its text, in some round. -/
def alters (l : Linter) (t : FileTree) (path : Path) : Bool :=
  match t.readText? path with
  | some content =>
    match l.fix path content with
    | .ok fixed => (List.range fixed.passes).any fun j => !(l.splicedIn path content j).isEmpty
    | .error _ => false
  | none => false

/-- There are edits for the file, and none of them is put in. -/
def misses (l : Linter) (t : FileTree) (path : Path) : Bool := changes l t path && !l.alters t path

theorem changes_of_alters (h : l.alters t path = true) : changes l t path = true := by
  rw [alters] at h
  rw [changes]
  cases hread : t.readText? path with
  | none => simp [hread] at h
  | some content =>
    simp only [hread] at h ⊢
    cases hfix : l.fix path content with
    | error e => simp [hfix] at h
    | ok fixed =>
      simp only [hfix] at h ⊢
      obtain ⟨j, hj, -⟩ := List.any_eq_true.mp h
      exact (changed_iff_passes hfix).mpr (Nat.zero_lt_of_lt (List.mem_range.mp hj))

theorem countP_changes (l : Linter) (t : FileTree) (files : List Path) :
    files.countP (changes l t) = files.countP (l.alters t) + files.countP (l.misses t) := by
  rw [List.countP_eq_countP_filter_add files (changes l t) (l.alters t), List.countP_filter,
    List.countP_filter]
  congr 1
  refine List.countP_congr fun p _ => ?_
  rw [Bool.and_eq_true]
  exact ⟨And.right, fun h => ⟨changes_of_alters h, h⟩⟩

/-- Mending a file that is missed gives its own text, as one that is changed. -/
theorem of_misses (h : l.misses t path = true) :
    ∃ content fixed, t.readText? path = some content ∧ l.fix path content = .ok fixed ∧
      fixed.changed = true ∧ fixed.output = content := by
  rw [misses, Bool.and_eq_true, changes, alters] at h
  cases hread : t.readText? path with
  | none => simp [hread] at h
  | some content =>
    simp only [hread] at h
    cases hfix : l.fix path content with
    | error e => simp [hfix] at h
    | ok fixed =>
      simp only [hfix] at h
      obtain ⟨hchanged, hnone⟩ := h
      have hidle : ∀ j < fixed.passes, l.splicedIn path content j = [] := by simpa using hnone
      have hfirst := hidle 0 ((changed_iff_passes hfix).mp hchanged)
      exact ⟨content, fixed, rfl, hfix, hchanged, ((editCount_of_fix hfix).unaltered hchanged hfirst).1⟩

theorem Finished.readText?_of_misses (h : Finished l t t' path)
    (hfolders : FileTree.SameFolders t t') (hmisses : l.misses t path = true) :
    t'.readText? path = t.readText? path := by
  obtain ⟨content, fixed, hread, hfix, -, houtput⟩ := of_misses hmisses
  obtain ⟨place, content', hplace, hcontent, hend⟩ := h
  have hsame : t.readText? path = some content' :=
    FileTree.readText?_eq_some_iff.mpr ⟨place, hplace, hcontent⟩
  obtain rfl := Option.some.inj (hread.symm.trans hsame)
  rw [hread, FileTree.readText?_eq_some_iff, FileTree.resolve_of_sameFolders hfolders]
  refine ⟨place, hplace, ?_⟩
  rcases hend with ⟨fixed', hfix', hwritten⟩ | ⟨e, -, -, hkept⟩
  · obtain rfl := Except.ok.inj (hfix.symm.trans hfix')
    rw [hwritten, houtput]
  · exact hkept

/-- A file that is missed is written all the same, so that a run ends at it if that is not possible. -/
theorem fixFiles_of_misses {content : String} (hread : t.readText? path = some content)
    (hmisses : l.misses t path = true) (hwrite : t.write? path content locked = none)
    (files : List Path) (report : Report) :
    l.fixFiles locked (path :: files) t report = (t, .error (.unreadable path)) := by
  obtain ⟨content', fixed, hread', hfix, hchanged, houtput⟩ := of_misses hmisses
  obtain rfl := Option.some.inj (hread.symm.trans hread')
  rw [fixFiles, readFile, hread]
  simp only [hfix, hchanged, if_true, houtput, hwrite]

/-- Mending a text reports the number of kept edits, which is that of the edits put in only where all of
them fit, and takes every text with mends for changed. So a run over files counts as mended those that it
puts an edit in and those with edits of which none fits. These keep their text and are written with it. -/
theorem fix_counts_kept_edits (l : Linter) :
    (∀ path content fixed, l.fix path content = .ok fixed → EditCount l path content fixed) ∧
      (∀ locked t t' report, t.Named → l.fixAll t locked = (t', .ok report) →
        ∃ files, l.discover t = .ok files ∧
          report.filesFixed = files.countP (l.alters t) + files.countP (l.misses t) ∧
          ∀ path ∈ files, l.misses t path = true → t'.readText? path = t.readText? path) ∧
      ∀ locked t path content, t.readText? path = some content → l.misses t path = true →
        t.write? path content locked = none → ∀ files report,
          l.fixFiles locked (path :: files) t report = (t, .error (.unreadable path)) := by
  refine ⟨fun path content fixed => editCount_of_fix, fun locked t t' report ht hrun => ?_,
    fun locked t path content => fixFiles_of_misses⟩
  obtain ⟨files, unsorted, hfiles, -, -, rfl, hran, hcount⟩ := fixAll_ran ht hrun
  refine ⟨files, hfiles, hcount.trans (countP_changes l t files), fun path hpath hmisses => ?_⟩
  exact (hran.finished path hpath).readText?_of_misses hran.folders hmisses

/-- A text that ends before the chain that is found in it: its only edit is counted ten times and never put
in, and its file is counted as mended. Where the file cannot be written, the run ends with an error. -/
theorem fix_counts_kept_edits_stubborn :
    let t : FileTree := ⟨[(["a.js"], .file (.text "f"))]⟩
    (∃ fixed, stubborn.fix ⟨"a.js"⟩ "f" = .ok fixed ∧ fixed.output = "f" ∧ fixed.edits = 10 ∧
        fixed.changed = true ∧ (∀ j, stubborn.splicedIn ⟨"a.js"⟩ "f" j = []) ∧
        EditCount stubborn ⟨"a.js"⟩ "f" fixed) ∧
      (∃ report files, t.Named ∧ stubborn.fixAll t = (t, .ok report) ∧ report.filesFixed = 1 ∧
        stubborn.discover t = .ok files ∧ files.countP (stubborn.alters t) = 0 ∧
        report.filesFixed = files.countP (stubborn.alters t) + files.countP (stubborn.misses t)) ∧
      stubborn.fixFiles [["a.js"]] [⟨"./a.js"⟩] t .empty = (t, .error (.unreadable ⟨"./a.js"⟩)) := by
  intro t
  obtain ⟨hcounts, hfiles, hwritten⟩ := fix_counts_kept_edits stubborn
  have hfirst : stubborn.splicedIn ⟨"a.js"⟩ "f" 0 = [] := by decide +kernel
  have hnumbers : (stubborn.fix ⟨"a.js"⟩ "f").toOption.map (fun f => (f.output, f.edits, f.passes)) =
      some ("f", 10, 10) := by decide +kernel
  have hdiscover : stubborn.discover t = .ok [⟨"./a.js"⟩] := by
    have hwalk : stubborn.walk t = .ok [⟨"./a.js"⟩] := rfl
    rw [discover, hwalk]
    exact congrArg Except.ok (List.mergeSort_of_pairwise (by decide +kernel))
  have hleft : (stubborn.fixAll t).1.entries = t.entries := by
    rw [fixAll, hdiscover]
    decide +kernel
  have hreported : (stubborn.fixAll t).2.toOption.map (·.filesFixed) = some 1 := by
    rw [fixAll, hdiscover]
    decide +kernel
  have hnamed : t.Named := by decide
  have hlocked : t.write? ⟨"./a.js"⟩ "f" [["a.js"]] = none :=
    Option.isNone_iff_eq_none.mp (by decide +kernel)
  refine ⟨?_, ?_, hwritten [["a.js"]] t _ "f" (by decide +kernel) (by decide +kernel) hlocked _ _⟩
  · cases hfix : stubborn.fix ⟨"a.js"⟩ "f" with
    | error e => simp [hfix, Except.toOption] at hnumbers
    | ok fixed =>
      simp only [hfix, Except.toOption, Option.map_some, Option.some.injEq, Prod.mk.injEq] at hnumbers
      obtain ⟨houtput, hedits, hpasses⟩ := hnumbers
      have hcount := hcounts _ _ fixed hfix
      have hidle := (hcount.idle 0 (by omega) hfirst).2.2
      refine ⟨fixed, rfl, houtput, hedits, ?_, fun j => (hidle j (Nat.zero_le j)).1, hcount⟩
      rw [Fixed.changed, hedits]
      rfl
  · cases hresult : (stubborn.fixAll t).2 with
    | error e => simp [hresult, Except.toOption] at hreported
    | ok report =>
      have hrun : stubborn.fixAll t = (t, .ok report) := Prod.ext (congrArg FileTree.mk hleft) hresult
      obtain ⟨files, hfound, hfixed, -⟩ := hfiles [] t t report hnamed hrun
      obtain rfl := Except.ok.inj (hdiscover.symm.trans hfound)
      simp only [hresult, Except.toOption, Option.map_some, Option.some.injEq] at hreported
      exact ⟨report, _, hnamed, hrun, hreported, hfound, by decide +kernel, hfixed⟩

end Linter

end CallChain
