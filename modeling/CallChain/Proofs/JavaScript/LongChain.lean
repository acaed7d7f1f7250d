import CallChain.JavaScript.FrontEnd
import CallChain.Proofs.Edit.LineFeeds
import CallChain.Proofs.JavaScript.ChainFindings
import CallChain.Proofs.Linter.Passes

/-!
# A chain of calls from text to text

`written glue base names` is the text of a chain. Read, checked and mended with the front end for JavaScript,
a chain on one line is accepted up to the threshold; beyond it each of its links is reported, and one round
of mends puts each of them on a line of its own.
-/
namespace CallChain.JavaScript

open CallChain.Chain

/-- The text of a chain whose links have these names, from the first to the last. -/
def written (glue base : String) (names : List String) : String :=
  names.foldl (fun text name => text ++ glue ++ "." ++ name ++ "()") base

theorem toList_written (glue base : String) (names : List String) :
    (written glue base names).toList =
      chain glue.toList base.toList (names.map String.toList).reverse := by
  rw [chain_reverse]
  induction names generalizing base with
  | nil => simp [written]
  | cons name names ih =>
    show (written glue (base ++ glue ++ "." ++ name ++ "()") names).toList = _
    rw [ih]
    simp [link]

section Dots

variable {glue base : List Char} {names : List (List Char)}

theorem places_dots (glue base : List Char) (names : List (List Char)) :
    Text.Places (dots glue base names) (chain glue base names) := by
  refine ⟨(pairwise_dots glue base names).imp Nat.ne_of_lt, fun p hp => ?_⟩
  rw [Text.isBoundary_iff]
  induction names with
  | nil => cases hp
  | cons name earlier ih =>
    rw [dots, List.mem_append, List.mem_singleton] at hp
    rcases hp with hp | rfl
    · obtain ⟨before, rest, htext, hbytes⟩ := ih hp
      refine ⟨before, rest ++ link glue name, ?_, hbytes⟩
      rw [chain, htext, List.append_assoc]
    · refine ⟨chain glue base earlier ++ glue, '.' :: (name ++ ['(', ')']), ?_, rfl⟩
      rw [chain, link, List.append_assoc]

/-- A line feed before each dot of a chain on one line makes it the chain with these as its glue. -/
theorem breakBefore_dots (base : List Char) (names : List (List Char)) :
    Text.breakBefore (dots [] base names) (chain [] base names) = chain ['\n'] base names := by
  induction names with
  | nil => exact Text.breakBefore_nil base
  | cons name earlier ih =>
    have hbefore : ∀ p ∈ dots [] base earlier, p < Text.byteLength (chain [] base earlier) :=
      fun _ hp => lt_of_mem_dots hp
    rw [dots, List.append_nil, chain, chain, ← ih]
    exact Text.breakBefore_concat hbefore '.' (name ++ ['(', ')'])

theorem count_dot_chain (hbase : isIdentifier base = true)
    (hnames : ∀ m ∈ names, isIdentifier m = true) : (chain [] base names).count '.' = names.length := by
  have hword : ∀ {m : List Char}, isIdentifier m = true → m.count '.' = 0 := fun hm =>
    List.count_eq_zero.mpr fun hmem => absurd (mem_isNamePart hm '.' hmem) (by decide)
  induction names with
  | nil => exact hword hbase
  | cons name earlier ih =>
    have hname := hword (hnames name List.mem_cons_self)
    have hearlier := ih fun m hm => hnames m (List.mem_cons_of_mem name hm)
    rw [chain, List.count_append, hearlier]
    simp [link, hname]

theorem length_dots (glue base : List Char) (names : List (List Char)) :
    (dots glue base names).length = names.length := by
  induction names with
  | nil => rfl
  | cons name earlier ih =>
    rw [dots, List.length_append, ih]
    rfl

theorem length_findings (glue base : List Char) (later names : List (List Char)) :
    (findings glue base later names).length = names.length := by
  rw [← length_dots glue base names, ← map_start_findings glue base later, List.length_map]

/-- The finding of a link comes after those of the links in front of it. -/
theorem getElem?_findings (glue base : List Char) (later between : List (List Char))
    (name : List Char) (earlier : List (List Char)) :
    (findings glue base later (between ++ name :: earlier))[earlier.length]? =
      some (finding glue base (later ++ between) name earlier) := by
  induction between generalizing later with
  | nil =>
    have hlength := length_findings glue base (later ++ [name]) earlier
    rw [List.nil_append, findings, ← hlength, List.getElem?_concat_length, List.append_nil]
  | cons next between ih =>
    have hlength := length_findings glue base (later ++ [next]) (between ++ name :: earlier)
    have hlt : earlier.length < (findings glue base (later ++ [next])
        (between ++ name :: earlier)).length := by
      rw [hlength, List.length_append, List.length_cons]
      omega
    rw [List.cons_append, findings, List.getElem?_append_left hlt, ih, List.append_assoc]
    rfl

end Dots

/-- What is reported of a link in a chain on one line, which has `index` links in front of it. -/
structure ReportsLink (v : Violation) (base : String) (names : List String) (index : Nat)
    (name : String) : Prop where
  callText : v.data.get? "callText" = some (name ++ "()")
  chainings : v.data.get? "chainings" = some (toString names.length)
  nodeCode : v.data.get? "nodeCode" = some (written "" base names)
  /-- The place is the dot that comes after so many others. -/
  offset : ∃ before rest, (written "" base names).toList = before ++ '.' :: rest ∧
    before.count '.' = index ∧ v.location.offset = Text.byteLength before

/-- The mends of a chain that fits the address space are the line feeds before its dots. -/
theorem ofViolations_findings {base : List Char} {names : List (List Char)}
    (hfit : Text.byteLength (chain [] base names) < Word.bound) (severity? : Option Severity)
    (file : Path) (severity : Severity) :
    EditSet.ofViolations (Linter.override severity?
        ((findings [] base [] names).map (·.toViolation file severity))) =
      .ofList ((dots [] base names).map Edit.feedAt) := by
  rw [EditSet.ofViolations_eq, mends_override, Finding.mends_toViolation,
    ← map_start_findings [] base [] names, List.map_map, List.map_map]
  congr 1
  apply List.map_congr_left
  intro f hmem
  have hdot : f.operator.start ∈ dots [] base names := by
    rw [← map_start_findings [] base [] names]
    exact List.mem_map_of_mem hmem
  have hlt : f.operator.start < Word.bound := (lt_of_mem_dots hdot).trans hfit
  show (f.mend file).toEdit = Edit.feedAt f.operator.start
  rw [Finding.toEdit_mend, Nat.mod_eq_of_lt hlt]
  rfl

/-- Cut before and behind a link; the names are turned around. -/
theorem exists_split_of_getElem? {names : List String} {i : Nat} {name : String}
    (h : names[i]? = some name) : ∃ behind before, (names.map String.toList).reverse =
      behind ++ name.toList :: before ∧ before.length = i := by
  obtain ⟨hi, hget⟩ := List.getElem?_eq_some_iff.mp h
  have hcut : names = names.take i ++ name :: names.drop (i + 1) := by
    rw [← hget, List.getElem_cons_drop, List.take_append_drop]
  refine ⟨((names.drop (i + 1)).map String.toList).reverse, ((names.take i).map String.toList).reverse,
    ?_, ?_⟩
  · conv_lhs => rw [hcut]
    simp
  · simp only [List.length_reverse, List.length_map, List.length_take]
    omega

theorem reportsLink_finding {base name : String} {names : List String} {i : Nat}
    {behind before : List (List Char)} (hbase : isIdentifier base.toList = true)
    (hnames : ∀ m ∈ names, isIdentifier m.toList = true)
    (hsplit : (names.map String.toList).reverse = behind ++ name.toList :: before)
    (hindex : before.length = i) (file : Path) (severity : Severity) :
    ReportsLink ((finding [] base.toList behind name.toList before).toViolation file severity) base names i
      name := by
  have hlength : (behind ++ name.toList :: before).length = names.length := by simp [← hsplit]
  have htext : (written "" base names).toList = chain [] base.toList (behind ++ name.toList :: before) := by
    rw [← hsplit]
    exact toList_written "" base names
  have hbefore : ∀ m ∈ before, isIdentifier m = true := by
    intro m hm
    have hmem : m ∈ (names.map String.toList).reverse := by simp [hsplit, hm]
    obtain ⟨word, hword, rfl⟩ := List.mem_map.mp (List.mem_reverse.mp hmem)
    exact hnames word hword
  obtain ⟨hcall, hchainings, hcode⟩ :=
    (finding [] base.toList behind name.toList before).data_toViolation file severity
  obtain ⟨rest, hrest⟩ := exists_chain_append [] base.toList behind (name.toList :: before)
  refine ⟨?_, ?_, ?_, chain [] base.toList before, name.toList ++ ['(', ')'] ++ rest, ?_, ?_, ?_⟩
  · rw [hcall]
    simp [finding]
  · rw [hchainings, finding, hlength]
  · rw [hcode, finding, ← htext, String.ofList_toList]
  · rw [htext, hrest, chain, link]
    simp
  · rw [count_dot_chain hbase hbefore, hindex]
  · show Text.byteLength (chain [] base.toList before ++ []) = _
    rw [List.append_nil]

section Linter

variable {l : Linter} {settings : Settings} {path : Path} {base : String} {names : List String}
  (h : l.OnlyChains settings) (hf : l.frontEnd? path = some frontEnd)
  (hbase : isIdentifier base.toList = true) (hword : base ∉ keywords)
  (hnames : ∀ m ∈ names, isIdentifier m.toList = true)
include h hf hbase hword hnames

theorem check_written (glue : String) (hglue : ∀ c ∈ glue.toList, isSpace c = true) :
    l.check path (written glue base names) = .ok (Linter.override (l.config.severity? ruleName)
      ((reported settings.threshold glue.toList base.toList (names.map String.toList).reverse).map
        (·.toViolation (path.relativeTo l.base) settings.severity))) := by
  have hnames' : ∀ m ∈ names.map String.toList, isIdentifier m = true := by
    intro m hm
    obtain ⟨name, hname, rfl⟩ := List.mem_map.mp hm
    exact hnames name hname
  have hcontent : written glue base names =
      String.ofList (chain glue.toList base.toList (names.map String.toList).reverse) := by
    rw [← toList_written, String.ofList_toList]
  have hparse : frontEnd.parse (written glue base names) =
      .ok (chainArena glue.toList base.toList (names.map String.toList).reverse) := by
    have hread := read_chain hglue hbase (by rwa [String.ofList_toList]) hnames'
    rw [hcontent, show frontEnd.parse = parse from rfl, parse, hread]
    rfl
  refine Linter.check_eq_ok_iff.mpr ⟨_, _, hf, hparse, ?_⟩
  rw [Linter.findings_of_onlyChains h, check_chainArena hglue hbase
    (fun m hm => hnames' m (List.mem_reverse.mp hm)) settings hcontent]
  obtain ⟨g, hg, hkeeps⟩ := Linter.exists_map_override (l.config.severity? ruleName)
  rw [hg, hg]
  refine (mergeSort_of_ascending (.refl _) ?_).symm
  rw [List.pairwise_map]
  refine (pairwise_reported settings.threshold glue.toList base.toList (names.map String.toList).reverse
    (path.relativeTo l.base) settings.severity).imp ?_
  intro v w hlt
  rwa [(hkeeps v).2.1, (hkeeps w).2.1]

theorem check_written_of_long (hlong : settings.threshold < names.length) :
    l.check path (written "" base names) = .ok (Linter.override (l.config.severity? ruleName)
      ((findings [] base.toList [] (names.map String.toList).reverse).map
        (·.toViolation (path.relativeTo l.base) settings.severity))) := by
  have hnot : ¬ ((names.map String.toList).reverse.length ≤ settings.threshold ∨ '\n' ∈ "".toList) := by
    simp [hlong]
  have hcheck := check_written h hf hbase hword hnames "" fun _ hc => absurd hc List.not_mem_nil
  rwa [reported, if_neg hnot] at hcheck

/-- Each link of a chain that is too long is reported, in the order of the text. -/
theorem exists_reports (hlong : settings.threshold < names.length) :
    ∃ vs, l.check path (written "" base names) = .ok vs ∧ vs.length = names.length ∧
      ∀ (i : Nat) (name : String), names[i]? = some name →
        ∃ v, vs[i]? = some v ∧ ReportsLink v base names i name := by
  have hcheck := check_written_of_long h hf hbase hword hnames hlong
  obtain ⟨g, hg, hkeeps⟩ := Linter.exists_map_override (l.config.severity? ruleName)
  rw [hg] at hcheck
  refine ⟨_, hcheck, ?_, fun i name hname => ?_⟩
  · rw [List.length_map, List.length_map, length_findings, List.length_reverse, List.length_map]
  · obtain ⟨behind, before, hsplit, hindex⟩ := exists_split_of_getElem? hname
    have hfinding := getElem?_findings [] base.toList [] behind name.toList before
    rw [← hsplit, hindex, List.nil_append] at hfinding
    let v := (finding [] base.toList behind name.toList before).toViolation
      (path.relativeTo l.base) settings.severity
    have hreports : ReportsLink v base names i name :=
      reportsLink_finding hbase hnames hsplit hindex _ _
    refine ⟨g v, ?_, ?_⟩
    · rw [List.getElem?_map, List.getElem?_map, hfinding]
      rfl
    · obtain ⟨hdata, hplace, -⟩ := hkeeps v
      obtain ⟨hcall, hchainings, hcode, hoffset⟩ := hreports
      exact ⟨hdata ▸ hcall, hdata ▸ hchainings, hdata ▸ hcode, hplace ▸ hoffset⟩

/-- A first round puts each link of a chain that is too long on its own line, and the second finds nothing
more. -/
theorem fix_written (hlong : settings.threshold < names.length)
    (hfit : Text.byteLength (written "" base names).toList < Word.bound) :
    l.fix path (written "" base names) = .ok ⟨written "\n" base names, 1, names.length, []⟩ := by
  let words := (names.map String.toList).reverse
  have htext : (written "" base names).toList = chain [] base.toList words := toList_written ..
  have hlength : words.length = names.length := by simp [words]
  have hcheck := check_written_of_long h hf hbase hword hnames hlong
  have hset := ofViolations_findings (htext ▸ hfit) (l.config.severity? ruleName)
    (path.relativeTo l.base) settings.severity
  have hplaces : Text.Places (dots [] base.toList words) (written "" base names).toList :=
    htext ▸ places_dots [] base.toList words
  obtain ⟨hsize, happly⟩ := EditSet.ofList_feedAt hplaces
  have hoff : (EditSet.ofList ((dots [] base.toList words).map Edit.feedAt)).isEmpty = false := by
    rw [← Bool.not_eq_true, EditSet.isEmpty_ofList_iff, List.map_eq_nil_iff,
      ← List.length_eq_zero_iff, length_dots, hlength]
    omega
  have houtput : String.ofList (Text.breakBefore (dots [] base.toList words)
      (written "" base names).toList) = written "\n" base names := by
    rw [htext, breakBefore_dots, ← String.toList_inj, String.toList_ofList]
    exact (toList_written "\n" base names).symm
  have hcheck' : l.check path (written "\n" base names) = .ok [] := by
    have hbroken : words.length ≤ settings.threshold ∨ '\n' ∈ "\n".toList := Or.inr (by decide)
    have hglue : ∀ c ∈ "\n".toList, isSpace c = true := by
      intro c hc
      obtain rfl : c = '\n' := List.mem_singleton.mp hc
      decide
    rw [check_written h hf hbase hword hnames "\n" hglue, reported, if_pos hbroken]
    cases l.config.severity? ruleName <;> rfl
  have hdone : (EditSet.ofViolations []).isEmpty = true := EditSet.isEmpty_ofList_iff.mpr rfl
  rw [Linter.fix, Linter.maxPasses, Linter.fixFrom_of_pass hcheck (hset ▸ hoff), hset, hsize, happly,
    houtput, Linter.fixFrom_of_empty hcheck' hdone, length_dots, hlength, Nat.zero_add,
    Nat.zero_add]

end Linter

/-- A chain of calls on one line, checked and mended: up to the threshold it is accepted; beyond it there is
one finding for each link, in the order of the text and at the link's own dot, and mending takes one round,
which puts every link on a line of its own and leaves nothing to be found. -/
theorem check_and_fix_of_oneLine_chain (l : Linter) (settings : Settings) (h : l.OnlyChains settings)
    (path : Path) (hf : l.frontEnd? path = some frontEnd) (base : String) (names : List String)
    (hbase : isIdentifier base.toList = true) (hword : base ∉ keywords)
    (hnames : ∀ m ∈ names, isIdentifier m.toList = true) :
    (names.length ≤ settings.threshold → l.check path (written "" base names) = .ok []) ∧
      (settings.threshold < names.length →
        (∃ vs, l.check path (written "" base names) = .ok vs ∧ vs.length = names.length ∧
          ∀ (i : Nat) (name : String), names[i]? = some name →
            ∃ v, vs[i]? = some v ∧ ReportsLink v base names i name) ∧
        (Text.byteLength (written "" base names).toList < Word.bound →
          l.fix path (written "" base names) =
            .ok ⟨written "\n" base names, 1, names.length, []⟩)) := by
  refine ⟨fun hshort => ?_, fun hlong => ⟨?_, fun hfit => ?_⟩⟩
  · have haccepted : (names.map String.toList).reverse.length ≤ settings.threshold ∨
        '\n' ∈ "".toList := by
      simp [hshort]
    rw [check_written h hf hbase hword hnames "" fun _ hc => absurd hc List.not_mem_nil, reported,
      if_pos haccepted]
    cases l.config.severity? ruleName <;> rfl
  · exact exists_reports h hf hbase hword hnames hlong
  · exact fix_written h hf hbase hword hnames hlong hfit

/-- A linter that accepts two calls on one line. -/
def pairLinter : Linter where
  root := ⟨"."⟩
  base := ⟨"."⟩
  rules := [rule { threshold := 2 }]
  frontEnds := [frontEnd]
  exclude := []
  config := {}
  failOnParseError := false

/-- Of three calls all three are put on new lines. -/
theorem check_and_fix_of_three_calls :
    pairLinter.OnlyChains { threshold := 2 } ∧ pairLinter.frontEnd? ⟨"a.js"⟩ = some frontEnd ∧
      (∃ vs, pairLinter.check ⟨"a.js"⟩ "list.map().filter().join()" = .ok vs ∧ vs.length = 3 ∧
        ∃ v, vs[1]? = some v ∧ ReportsLink v "list" ["map", "filter", "join"] 1 "filter") ∧
      pairLinter.fix ⟨"a.js"⟩ "list.map().filter().join()" =
        .ok ⟨"list\n.map()\n.filter()\n.join()", 1, 3, []⟩ := by
  have honly : pairLinter.OnlyChains { threshold := 2 } := rfl
  have hf : pairLinter.frontEnd? ⟨"a.js"⟩ = some frontEnd := rfl
  have hnames : ∀ m ∈ ["map", "filter", "join"], isIdentifier m.toList = true := by decide
  have hone : written "" "list" ["map", "filter", "join"] = "list.map().filter().join()" := by decide
  have hlines : written "\n" "list" ["map", "filter", "join"] = "list\n.map()\n.filter()\n.join()" := by
    decide
  obtain ⟨-, hlong⟩ := check_and_fix_of_oneLine_chain pairLinter { threshold := 2 } honly ⟨"a.js"⟩ hf
    "list" ["map", "filter", "join"] (by decide) (by decide) hnames
  obtain ⟨⟨vs, hcheck, hlength, hlinks⟩, hfix⟩ := hlong (by decide)
  rw [hone] at hcheck
  have hfixed := hfix (by rw [hone]; decide)
  rw [hone, hlines] at hfixed
  exact ⟨honly, hf, ⟨vs, hcheck, hlength, hlinks 1 "filter" rfl⟩, hfixed⟩

end CallChain.JavaScript
