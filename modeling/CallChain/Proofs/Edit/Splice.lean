import CallChain.Proofs.Edit.Selection
import CallChain.Proofs.Text.Boundary

/-!
# One pass as single replacements

Applying a set walks once over the text and keeps a cursor, the end of the last edit put in. Since the
edits of a set stand apart, the cursor never gets in the way of a later one: the edits put in are those
that fit the text by themselves, and the result is the text with these ranges replaced one at a time, from
the last to the first, so that no replacement moves a range that is still to be replaced.
-/
namespace CallChain

namespace Edit

variable {source : String} {cursor : Nat} {e : Edit} {edits : List Edit} {before rest : List Char}

/-- The edit's range lies in the text and begins and ends between two characters. -/
structure Fits (source : String) (e : Edit) : Prop where
  ordered : e.start ≤ e.stop
  within : e.stop ≤ source.utf8ByteSize
  start_valid : String.Pos.Raw.IsValid source ⟨e.start⟩
  stop_valid : String.Pos.Raw.IsValid source ⟨e.stop⟩

theorem fits_iff : e.Fits source ↔ e.start ≤ e.stop ∧
    Text.isBoundary e.start source.toList = true ∧ Text.isBoundary e.stop source.toList = true := by
  rw [Text.isBoundary_toList_iff, Text.isBoundary_toList_iff]
  constructor
  · exact fun h => ⟨h.ordered, h.start_valid, h.stop_valid⟩
  · exact fun ⟨hle, hstart, hstop⟩ => ⟨hle, hstop.le_utf8ByteSize, hstart, hstop⟩

instance (source : String) (e : Edit) : Decidable (e.Fits source) := decidable_of_iff _ fits_iff.symm

/-- The bytes of a text with those of the edit's range replaced. -/
def replaceIn (e : Edit) (bytes : ByteArray) : ByteArray :=
  bytes.extract 0 e.start ++ e.text.toByteArray ++ bytes.extract e.stop bytes.size

/-- By how many bytes a text grows when the edit is put in. -/
def growth (e : Edit) : ℤ := e.text.utf8ByteSize - (e.stop - e.start)

/-- The pass of `spliceFrom`, with the edits that it puts in. -/
def spliceLog (source : List Char) (cursor : Nat) : List Edit → List Char × List Edit
  | [] => ((Text.dropBytes? cursor source).getD [], [])
  | e :: es =>
    if e.start ≤ e.stop && Text.isBoundary e.stop source then
      match Text.slice? cursor e.start source with
      | some before =>
        let (rest, taken) := spliceLog source e.stop es
        (before ++ e.text.toList ++ rest, e :: taken)
      | none => spliceLog source cursor es
    else spliceLog source cursor es

theorem fst_spliceLog (source : List Char) (cursor : Nat) (edits : List Edit) :
    (spliceLog source cursor edits).1 = spliceFrom source cursor edits := by
  fun_induction spliceFrom source cursor edits with
  | case1 cursor => rfl
  | case2 cursor e es hfit before hslice ih => rw [spliceLog, if_pos hfit, hslice, ← ih]
  | case3 cursor e es hfit hslice ih => rw [spliceLog, if_pos hfit, hslice, ← ih]
  | case4 cursor e es hfit ih => rw [spliceLog, if_neg hfit, ← ih]

/-! ### One edit of the pass -/

/-- An edit that does not fit the text is passed over, wherever the cursor is. -/
theorem spliceLog_of_not_fits (h : ¬ e.Fits source) (edits : List Edit) :
    spliceLog source.toList cursor (e :: edits) = spliceLog source.toList cursor edits := by
  rw [spliceLog]
  split
  · next hstop =>
    rw [Bool.and_eq_true, decide_eq_true_eq] at hstop
    split
    · next mid hslice =>
      obtain ⟨before, rest, htext, hbefore, hstart⟩ := Text.slice?_eq_some_iff.mp hslice
      have hboundary : Text.isBoundary e.start source.toList = true := by
        refine Text.isBoundary_iff.mpr ⟨before ++ mid, rest, by rw [htext, List.append_assoc], ?_⟩
        rw [Text.byteLength_append]
        omega
      exact absurd (fits_iff.mpr ⟨hstop.1, hboundary, hstop.2⟩) h
    · rfl
  · rfl

/-- An edit that fits the text and starts behind the cursor is put in, and it cuts the rest of the text in
what is before it, what it replaces and what is behind it. -/
theorem spliceLog_of_fits (h : e.Fits source) (hsource : source.toList = before ++ rest)
    (hle : Text.byteLength before ≤ e.start) (edits : List Edit) :
    ∃ mid old tail, rest = mid ++ (old ++ tail) ∧ Text.byteLength (before ++ mid) = e.start ∧
      Text.byteLength (before ++ mid ++ old) = e.stop ∧
      spliceLog source.toList (Text.byteLength before) (e :: edits) =
        (mid ++ e.text.toList ++ (spliceLog source.toList e.stop edits).1,
          e :: (spliceLog source.toList e.stop edits).2) := by
  obtain ⟨hordered, hstart, hstop⟩ := fits_iff.mp h
  obtain ⟨upToStart, behind, hcut, hlen⟩ := Text.isBoundary_iff.mp hstart
  obtain ⟨mid, rfl, rfl⟩ := Text.leading_of_byteLength_le (hsource.symm.trans hcut) (by omega)
  obtain ⟨upToStop, tail, hcut', hlen'⟩ := Text.isBoundary_iff.mp hstop
  obtain ⟨old, rfl, rfl⟩ := Text.leading_of_byteLength_le (hcut.symm.trans hcut') (by omega)
  refine ⟨mid, old, tail, rfl, hlen, hlen', ?_⟩
  have hslice : Text.slice? (Text.byteLength before) e.start source.toList = some mid := by
    refine Text.slice?_eq_some_iff.mpr ⟨before, old ++ tail, hsource, rfl, ?_⟩
    rw [← hlen, Text.byteLength_append]
  rw [spliceLog, if_pos (by simp [hordered, hstop]), hslice]

/-- Replacing a range whose ends are known by what stands before them. -/
theorem replaceIn_append {old : List Char} (hstart : Text.byteLength before = e.start)
    (hstop : Text.byteLength (before ++ old) = e.stop) (tail : ByteArray) :
    replaceIn e ((before ++ old).utf8Encode ++ tail) =
      before.utf8Encode ++ e.text.toByteArray ++ tail := by
  rw [← Text.size_utf8Encode] at hstart hstop
  have hfirst : ((before ++ old).utf8Encode ++ tail).extract 0 e.start = before.utf8Encode := by
    rw [List.utf8Encode_append, ByteArray.append_assoc]
    exact ByteArray.extract_append_eq_left hstart.symm
  have hlast : ((before ++ old).utf8Encode ++ tail).extract e.stop
      ((before ++ old).utf8Encode ++ tail).size = tail :=
    ByteArray.extract_append_eq_right hstop.symm ByteArray.size_append
  rw [replaceIn, hfirst, hlast]

/-! ### The whole pass -/

/-- What a pass from behind `before` comes to: the edits put in are those that fit, the text from its start
has their ranges replaced, and it grew by what each of them adds. -/
structure Spliced (source : String) (before : List Char) (edits : List Edit)
    (log : List Char × List Edit) : Prop where
  taken : log.2 = edits.filter (Fits source ·)
  bytes : before.utf8Encode ++ log.1.utf8Encode = log.2.foldr replaceIn source.toByteArray
  size : (Text.byteLength before + Text.byteLength log.1 : ℤ) =
    source.utf8ByteSize + (log.2.map growth).sum

theorem spliced_nil (hsource : source.toList = before ++ rest) :
    Spliced source before [] (spliceLog source.toList (Text.byteLength before) []) := by
  have hlog : spliceLog source.toList (Text.byteLength before) [] = (rest, []) := by
    rw [spliceLog, hsource, Text.dropBytes?_append, Option.getD_some]
  rw [hlog]
  refine ⟨rfl, ?_, ?_⟩
  · rw [← List.utf8Encode_append, ← hsource, String.utf8Encode_toList]
    rfl
  · have hlen := Text.byteLength_toList source
    rw [hsource, Text.byteLength_append] at hlen
    simp [← hlen]

/-- The pass goes over edits that stand apart, from a cursor that none of them starts before. -/
theorem spliceLog_spec (hsource : source.toList = before ++ rest)
    (hapart : edits.Pairwise fun a b => a.stop ≤ b.start)
    (hfrom : ∀ e ∈ edits, Text.byteLength before ≤ e.start) :
    Spliced source before edits (spliceLog source.toList (Text.byteLength before) edits) := by
  induction edits generalizing before rest with
  | nil => exact spliced_nil hsource
  | cons e es ih =>
    obtain ⟨he, hes⟩ := List.pairwise_cons.mp hapart
    by_cases hfits : e.Fits source
    · obtain ⟨mid, old, tail, rfl, hstart, hstop, hlog⟩ :=
        spliceLog_of_fits hfits hsource (hfrom e List.mem_cons_self) es
      -- The cursor moves to the stop of the edit, and all edits behind it start there at the earliest.
      have hcut : source.toList = before ++ mid ++ old ++ tail := by
        simpa only [List.append_assoc] using hsource
      obtain ⟨htaken, hbytes, hsize⟩ := ih hcut hes fun d hd => hstop ▸ he d hd
      rw [hstop] at htaken hbytes hsize
      rw [hlog]
      refine ⟨?_, ?_, ?_⟩
      · rw [List.filter_cons_of_pos (by simpa using hfits), ← htaken]
      · rw [List.foldr_cons, ← hbytes, replaceIn_append hstart hstop]
        simp only [List.utf8Encode_append, String.utf8Encode_toList, ByteArray.append_assoc]
      · have htext := Text.byteLength_toList e.text
        simp only [Text.byteLength_append, List.map_cons, List.sum_cons, growth] at hstart hstop ⊢
        omega
    · rw [spliceLog_of_not_fits hfits]
      obtain ⟨htaken, hbytes, hsize⟩ := ih hsource hes fun d hd => hfrom d (List.mem_cons_of_mem e hd)
      refine ⟨?_, hbytes, hsize⟩
      rw [htaken, List.filter_cons_of_neg (by simpa using hfits)]

end Edit

namespace EditSet

/-- The edits that applying the set to a text puts in. -/
def spliced (s : EditSet) (source : String) : List Edit :=
  (Edit.spliceLog source.toList 0 s.edits).2

/-- Each edit of the set stops before those behind it start. -/
def InSequence (s : EditSet) : Prop := s.edits.Pairwise fun a b => a.stop ≤ b.start

theorem inSequence_ofList (edits : List Edit) : (EditSet.ofList edits).InSequence :=
  Edit.accept_pairwise edits

variable {s s' : EditSet} {source : String}

theorem InSequence.splicedFrom (h : s.InSequence) (source : String) :
    Edit.Spliced source [] s.edits (Edit.spliceLog source.toList 0 s.edits) :=
  Edit.spliceLog_spec rfl h fun _ _ => Nat.zero_le _

theorem InSequence.spliced_eq (h : s.InSequence) (source : String) :
    s.spliced source = s.edits.filter (Edit.Fits source ·) := (h.splicedFrom source).taken

theorem InSequence.toByteArray_apply (h : s.InSequence) (source : String) :
    (s.apply source).toByteArray = (s.spliced source).foldr Edit.replaceIn source.toByteArray := by
  rw [apply, spliced, String.toByteArray_ofList, ← Edit.fst_spliceLog]
  simpa using (h.splicedFrom source).bytes

theorem InSequence.utf8ByteSize_apply (h : s.InSequence) (source : String) :
    ((s.apply source).utf8ByteSize : ℤ) =
      source.utf8ByteSize + ((s.spliced source).map Edit.growth).sum := by
  rw [apply, spliced, ← Text.byteLength_toList, String.toList_ofList, ← Edit.fst_spliceLog]
  simpa using (h.splicedFrom source).size

/-- The text depends on the edits put in alone. -/
theorem InSequence.apply_congr (h : s.InSequence) (h' : s'.InSequence)
    (hs : s.spliced source = s'.spliced source) : s.apply source = s'.apply source := by
  rw [← String.toByteArray_inj, h.toByteArray_apply, h'.toByteArray_apply, hs]

/-- A set of which some edits that do not fit the text are left out puts in the same edits. -/
theorem InSequence.spliced_of_sublist (h : s.InSequence) {between : List Edit}
    (hlow : (s.edits.filter (Edit.Fits source ·)).Sublist between)
    (hhigh : between.Sublist s.edits) :
    (EditSet.mk between).spliced source = s.edits.filter (Edit.Fits source ·) := by
  have hbetween : (EditSet.mk between).InSequence := h.sublist hhigh
  rw [hbetween.spliced_eq]
  refine (hhigh.filter _).antisymm ?_
  simpa only [List.filter_filter, Bool.and_self] using hlow.filter (Edit.Fits source ·)

/-- Applying a set to a text replaces the ranges of those kept edits that fit the text, one at a time from
the last to the first. The other edits of the set do nothing: without some of them or all it gives the
same text by the same edits. What comes out is a text again, longer by what each edit that fits writes and
shorter by what it replaces. -/
theorem apply_replaces_fitting (edits : List Edit) (source : String) :
    let set := EditSet.ofList edits
    let fitting := set.edits.filter (Edit.Fits source ·)
    (set.apply source).toByteArray = fitting.foldr Edit.replaceIn source.toByteArray ∧
      set.spliced source = fitting ∧
      (∀ between : List Edit, fitting.Sublist between → between.Sublist set.edits →
        (EditSet.mk between).apply source = set.apply source ∧
          (EditSet.mk between).spliced source = fitting) ∧
      (fitting.foldr Edit.replaceIn source.toByteArray).IsValidUTF8 ∧
      ((set.apply source).utf8ByteSize : ℤ) = source.utf8ByteSize +
        (fitting.map fun e => (e.text.utf8ByteSize : ℤ) - (e.stop - e.start)).sum := by
  intro set fitting
  have hset : set.InSequence := inSequence_ofList edits
  have hspliced : set.spliced source = fitting := hset.spliced_eq source
  have hbytes := hset.toByteArray_apply source
  have hsize := hset.utf8ByteSize_apply source
  rw [hspliced] at hbytes hsize
  refine ⟨hbytes, hspliced, fun between hlow hhigh => ?_, ?_, hsize⟩
  · have hsame := hset.spliced_of_sublist hlow hhigh
    have hbetween : (EditSet.mk between).InSequence := hset.sublist hhigh
    exact ⟨hbetween.apply_congr hset (hsame.trans hspliced.symm), hsame⟩
  · rw [← hbytes]
    exact (set.apply source).isValidUTF8

end EditSet

end CallChain
