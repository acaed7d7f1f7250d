import CallChain.Proofs.Chain.Report
import CallChain.Proofs.Chain.Spine
import CallChain.Proofs.Edit.LineFeeds
import CallChain.Proofs.Linter.Passes

/-!
# Mending chains keeps the text

Whatever trees the front ends give, with spans that are wrong, overlap or lie outside the text, the mends
of chain findings add line feeds and do nothing else, in each round and so in all of them.
-/
namespace CallChain

theorem Chain.Finding.toEdit_mend_isLineFeed (file : Path) (f : Chain.Finding) :
    (f.mend file).toEdit.IsLineFeed := by
  rw [toEdit_mend]
  exact ⟨rfl, fun hle => le_antisymm (Nat.mod_le _ _) hle⟩

namespace Linter

variable {l : Linter} {settings : Chain.Settings} {path : Path}

/-- One round adds line feeds. -/
theorem apply_mends_widens (h : l.OnlyChains settings) {content : String} {vs : List Violation}
    (hcheck : l.check path content = .ok vs) :
    Widens content.toList ((EditSet.ofViolations vs).apply content).toList := by
  obtain ⟨frontEnd, tree, hf, hp, -⟩ := check_eq_ok_iff.mp hcheck
  have hmends := mends_of_check h hf hp hcheck
  rw [EditSet.ofViolations_eq]
  apply EditSet.apply_widens
  intro e he
  obtain ⟨r, hr, rfl⟩ := List.mem_map.mp he
  obtain ⟨f, -, rfl⟩ := List.mem_map.mp (hmends.mem_iff.mp hr)
  exact f.toEdit_mend_isLineFeed _

/-- Rounds add line feeds, one after the other. -/
theorem Passes.widens (h : l.OnlyChains settings) {k : Nat} {s s' : String}
    (hrun : Passes l path k s s') : Widens s.toList s'.toList := by
  induction hrun with
  | done s => exact .refl s.toList
  | pass hcheck _ _ ih => exact (apply_mends_widens h hcheck).trans ih

/-- The output of mending chains is the content with line feeds added: they can be marked in the output
so that what is left without them is the content, character by character. -/
theorem fix_output_without_added_feeds (l : Linter) (settings : Chain.Settings)
    (h : l.OnlyChains settings) (path : Path) (content : String) (fixed : Fixed)
    (hfix : l.fix path content = .ok fixed) :
    ∃ marked : List (Char × Bool), fixed.output.toList = marked.map (·.1) ∧
      content.toList = (marked.filter (!·.2)).map (·.1) ∧
      ∀ e ∈ marked, e.2 = true → e.1 = '\n' := by
  obtain ⟨k, -, hrun, -, -⟩ := passes_of_fix hfix
  exact (Passes.widens h hrun).exists_marks

/-- A linter that takes every text for `f().b()`, and so finds the same chain after each round. -/
def stubborn : Linter where
  root := ⟨"."⟩
  base := ⟨"."⟩
  rules := [Chain.rule { threshold := 1 }]
  frontEnds := [⟨[".js"], fun _ => .ok Chain.twoCalls⟩]
  exclude := []
  config := {}
  failOnParseError := false

/-- It adds a line feed in each of its rounds, and these ten are all that it adds. -/
theorem fix_stubborn_without_added_feeds :
    ∃ fixed, stubborn.fix ⟨"a.js"⟩ "f().b()" = .ok fixed ∧
      fixed.output = "f()\n\n\n\n\n\n\n\n\n\n.b()" ∧ stubborn.OnlyChains { threshold := 1 } ∧
      ∃ marked : List (Char × Bool), fixed.output.toList = marked.map (·.1) ∧
        "f().b()".toList = (marked.filter (!·.2)).map (·.1) ∧
        ∀ e ∈ marked, e.2 = true → e.1 = '\n' := by
  have houtput : (stubborn.fix ⟨"a.js"⟩ "f().b()").toOption.map (·.output) =
      some "f()\n\n\n\n\n\n\n\n\n\n.b()" := by decide +kernel
  have honly : stubborn.OnlyChains { threshold := 1 } := by rfl
  cases hfix : stubborn.fix ⟨"a.js"⟩ "f().b()" with
  | error e => rw [hfix] at houtput; cases houtput
  | ok fixed =>
    rw [hfix] at houtput
    exact ⟨fixed, rfl, Option.some.inj houtput, honly,
      fix_output_without_added_feeds stubborn _ honly _ _ fixed hfix⟩

end Linter

end CallChain
