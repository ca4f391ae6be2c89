import Gehtp.Analysis.SfcdRecords
import Gehtp.Lib.Sequences

/-!
# Areas that are read back as they were written

An area that passes the check is written and read back, byte for byte, exactly when its copies can
be merged, it takes less than `2 ^ 24` records, and at most `2 ^ 30` words. Otherwise the walk stops
early, or reports a bad length, or places the bytes after a merged copy elsewhere.
-/

set_option autoImplicit false

namespace Gehtp.Analysis.SfcdRoundTrip

open Lib Model.SpillFillG4 Analysis.SfcdWords Analysis.SfcdMerge
open Analysis.SfcdRecords Lib.Sequences

/-! ### The property -/

def areaEvents (area : G4SlcArea) : List Event := area.records.flatMap (recordEvents area.isFill)

/-- The words of the area are walked without an error and tell what the area says. -/
def RoundTrips (area : G4SlcArea) : Prop :=
  ∀ verbose, ∃ words lines walk, g4ConstructSfcd area = .ok words ∧
    g4DumpSfcd area.isFill verbose words = some (lines, walk) ∧
    walk.errors = [] ∧ walk.badLength = false ∧ lines.flatMap lineEvents = areaEvents area

/-- The area fits the words. -/
structure AreaFits (area : G4SlcArea) : Prop where
  merge : ∀ r ∈ area.records, r.recType = recSpillfill → Mergeable r.copies
  records : total recordCount area.records < 2 ^ 24
  words : 3 + total wordCount area.records ≤ 2 ^ 30

/-! ### The words of an area -/

/-- The words of the header, and those of the records. -/
def fileWords (area : G4SlcArea) (outs : List Out) : List UInt32 :=
  .ofNat (4 * (3 + (outs.flatMap Prod.fst).length) - 4) :: area.dmaCheckpoint ::
    (.ofNat outs.length &&& 0xffffff) :: outs.flatMap Prod.fst

theorem g4ConstructSfcd_eq {area : G4SlcArea} (h : g4FillMgroupCheck area = .ok ()) :
    ∃ w outs, Outs area.isFill .init w (area.records.flatMap (mergedEvents area.isFill))
        (total recordCount area.records) (total writtenCount area.records) outs ∧
      g4ConstructSfcd area = .ok (fileWords area outs) := by
  obtain ⟨w, outs, hrun, houts⟩ := writeRecords_written area.isFill (w := .init)
    (checkFrom_checked h) rfl
  have hwords : w.words = 0 :: 0 :: 0 :: outs.flatMap Prod.fst := houts.written.words
  have hrecords : w.records = .ofNat outs.length :=
    houts.written.records.trans (UInt32.zero_add _)
  have hlen : w.words.length = 3 + (outs.flatMap Prod.fst).length := by
    rw [hwords, Nat.add_comm]
    rfl
  have hfinish : w.finishHeader area.dmaCheckpoint =
      .ok ⟨fileWords area outs, w.records, w.openRec, w.openBlocks⟩ := by
    have hopen : ¬ w.openRec.isSome = true := by
      rw [houts.written.openRec]
      exact Bool.false_ne_true
    unfold G4SfcdWriter.finishHeader
    rw [if_neg hopen, hlen, hrecords, hwords]
    rfl
  refine ⟨w, outs, houts, ?_⟩
  unfold g4ConstructSfcd
  rw [h]
  show (writeRecords _ _).bind _ = _
  rw [hrun]
  show (w.finishHeader _).map _ = _
  rw [hfinish]
  rfl

/-! ### The walk over the records -/

section Walk

variable {isFill verbose : Bool} {outs : List Out}

theorem readRecords_outs (h : ∀ o ∈ outs, Reads isFill verbose o.1 o.2) {k : ℕ}
    (hk : k ≤ outs.length) (blocks : UInt32) :
    ∃ lines blocks', readRecords isFill verbose k blocks (outs.flatMap Prod.fst) =
        some (lines, none, blocks', (outs.drop k).flatMap Prod.fst) ∧
      lines.flatMap lineEvents = (outs.take k).flatMap Prod.snd := by
  induction k generalizing outs blocks with
  | zero => exact ⟨[], blocks, rfl, rfl⟩
  | succ k ih =>
    cases outs with
    | nil => exact absurd hk (Nat.not_succ_le_zero k)
    | cons o outs =>
      obtain ⟨lines, blocks', hread, hlines⟩ :=
        h o List.mem_cons_self blocks (outs.flatMap Prod.fst)
      obtain ⟨lines', blocks'', hrest, hlines'⟩ :=
        ih (fun o' ho' => h o' (List.mem_cons_of_mem o ho')) (Nat.le_of_succ_le_succ hk) blocks'
      refine ⟨lines ++ lines', blocks'', ?_, ?_⟩
      · rw [List.flatMap_cons, readRecords, hread]
        show (readRecords _ _ _ _ _).map _ = _
        rw [hrest]
        rfl
      · rw [List.flatMap_append, hlines, hlines', List.take_succ_cons, List.flatMap_cons]

theorem recCount_eq (n : ℕ) :
    (UInt32.ofNat n &&& 0xffffff &&& 0xffffff).toNat = n % 2 ^ 24 := by
  have hmask : (0xffffff : UInt32).toNat = 2 ^ 24 - 1 := rfl
  rw [WordFields.toNat_mask hmask, WordFields.toNat_mask hmask, UInt32.toNat_ofNat']
  omega

theorem head_events (isFill : Bool) (bytes index : UInt32) (lines : List Line) :
    ((Line.head isFill bytes :: (if index ≠ 0 then [Line.checkpoint index] else [])) ++
      lines).flatMap lineEvents = lines.flatMap lineEvents := by
  by_cases h : index ≠ 0
  · rw [if_pos h]
    rfl
  · rw [if_neg h]
    rfl

variable (isFill verbose) in
theorem g4DumpSfcd_none (bytes index : UInt32) {count : UInt32} (cur : List UInt32)
    (h : count &&& 0xffffff = 0) :
    ∃ lines walk, g4DumpSfcd isFill verbose (bytes :: index :: count :: cur) = some (lines, walk) ∧
      walk.errors = [] ∧ walk.badLength = false ∧ lines.flatMap lineEvents = [] := by
  exact ⟨_, _, if_pos h, rfl, rfl, head_events isFill bytes index [.zeroRecords]⟩

theorem g4DumpSfcd_some (bytes index : UInt32) {count blocks : UInt32} {cur rest : List UInt32}
    {lines : List Line} (h : count &&& 0xffffff ≠ 0)
    (hread : readRecords isFill verbose (count &&& 0xffffff).toNat 0 cur =
      some (lines, none, blocks, rest)) :
    ∃ lines' walk, g4DumpSfcd isFill verbose (bytes :: index :: count :: cur) =
        some (lines', walk) ∧ walk.errors = [] ∧
      (walk.badLength = false ↔ 4 * (cur.length + 3 - rest.length) = bytes.toNat + 4) ∧
      lines'.flatMap lineEvents = lines.flatMap lineEvents := by
  have hdump : g4DumpSfcd isFill verbose (bytes :: index :: count :: cur) = _ := if_neg h
  rw [hread] at hdump
  by_cases hbytes : 4 * (cur.length + 3 - rest.length) ≠ bytes.toNat + 4
  · refine ⟨_, _, hdump.trans (congrArg some (if_pos hbytes)), rfl,
      iff_of_false Bool.false_ne_true.symm hbytes, ?_⟩
    rw [List.append_assoc, head_events, List.flatMap_append]
    exact List.append_nil _
  · refine ⟨_, _, hdump.trans (congrArg some (if_neg hbytes)), rfl,
      iff_of_true rfl (not_not.mp hbytes), ?_⟩
    rw [List.append_assoc, head_events, List.flatMap_append]
    exact List.append_nil _

theorem g4DumpSfcd_fileWords (area : G4SlcArea)
    (h : ∀ o ∈ outs, Reads isFill verbose o.1 o.2) :
    ∃ lines walk, g4DumpSfcd isFill verbose (fileWords area outs) = some (lines, walk) ∧
      walk.errors = [] ∧
      (walk.badLength = false ↔ outs.length % 2 ^ 24 = 0 ∨
        4 * ((outs.flatMap Prod.fst).length + 3 -
            ((outs.drop (outs.length % 2 ^ 24)).flatMap Prod.fst).length) =
          (4 * (3 + (outs.flatMap Prod.fst).length) - 4) % 2 ^ 32 + 4) ∧
      lines.flatMap lineEvents = (outs.take (outs.length % 2 ^ 24)).flatMap Prod.snd := by
  have hcount := recCount_eq outs.length
  by_cases hzero : outs.length % 2 ^ 24 = 0
  · have hnone : UInt32.ofNat outs.length &&& 0xffffff &&& 0xffffff = 0 :=
      UInt32.toNat_inj.mp (hcount.trans hzero)
    obtain ⟨lines, walk, hdump, herrors, hgood, hevents⟩ :=
      g4DumpSfcd_none isFill verbose (.ofNat (4 * (3 + (outs.flatMap Prod.fst).length) - 4))
        area.dmaCheckpoint (outs.flatMap Prod.fst) hnone
    refine ⟨lines, walk, hdump, herrors, iff_of_true hgood (Or.inl hzero), ?_⟩
    rw [hevents, hzero, List.take_zero, List.flatMap_nil]
  · have hsome : UInt32.ofNat outs.length &&& 0xffffff &&& 0xffffff ≠ 0 := by
      intro h0
      rw [h0] at hcount
      exact hzero hcount.symm
    obtain ⟨lines, blocks, hread, hevents⟩ :=
      readRecords_outs h (Nat.mod_le outs.length (2 ^ 24)) 0
    rw [← hcount] at hread
    obtain ⟨lines', walk, hdump, herrors, hgood, hevents'⟩ :=
      g4DumpSfcd_some (.ofNat (4 * (3 + (outs.flatMap Prod.fst).length) - 4)) area.dmaCheckpoint
        hsome hread
    refine ⟨lines', walk, hdump, herrors, ?_, hevents'.trans hevents⟩
    rw [hgood, hcount, UInt32.toNat_ofNat']
    exact (or_iff_right hzero).symm

end Walk

/-! ### The events of an area -/

section Events

variable {isFill : Bool}

theorem mergedEvents_length_le (r : G4SlcRecord) :
    (mergedEvents isFill r).length ≤ (recordEvents isFill r).length := by
  unfold mergedEvents
  by_cases htype : r.recType = recSpillfill
  · rw [if_pos htype, recordEvents, if_pos htype]
    exact Nat.succ_le_succ (copyMoves_finalize_length r.sfOffset r.copies)
  · rw [if_neg htype]

theorem mergedEvents_eq_iff (r : G4SlcRecord) :
    mergedEvents isFill r = recordEvents isFill r ↔
      (r.recType = recSpillfill → Mergeable r.copies) := by
  unfold mergedEvents
  by_cases htype : r.recType = recSpillfill
  · rw [if_pos htype, recordEvents, if_pos htype, List.cons_inj_right, copyMoves_finalize_iff]
    exact ⟨fun h _ => h, fun h => h htype⟩
  · rw [if_neg htype]
    exact iff_of_true rfl fun h => absurd h htype

theorem merged_areaEvents_iff (area : G4SlcArea) :
    area.records.flatMap (mergedEvents area.isFill) = areaEvents area ↔
      ∀ r ∈ area.records, r.recType = recSpillfill → Mergeable r.copies := by
  constructor
  · intro h r hr
    exact (mergedEvents_eq_iff r).mp
      (eq_of_flatMap_eq (fun r _ => mergedEvents_length_le r) h r hr)
  · intro h
    exact List.flatMap_congr fun r hr => (mergedEvents_eq_iff r).mpr (h r hr)

theorem writtenCount_eq {r : G4SlcRecord} (h : r.recType = recSpillfill → Mergeable r.copies) :
    writtenCount r = wordCount r := by
  unfold writtenCount wordCount wordsWith
  by_cases htype : r.recType = recSpillfill
  · rw [if_pos htype, if_pos htype, finalize_length (h htype)]
  · rw [if_neg htype, if_neg htype]

theorem total_congr {f g : G4SlcRecord → ℕ} {rs : List G4SlcRecord} (h : ∀ r ∈ rs, f r = g r) :
    total f rs = total g rs := by
  induction rs with
  | nil => rfl
  | cons r rs ih =>
    rw [total, total, h r List.mem_cons_self, ih fun r' hr' => h r' (List.mem_cons_of_mem r hr')]

theorem length_le_of_told {outs : List Out} {k : ℕ} (h : ∀ o ∈ outs, o.2 ≠ [])
    (hle : (outs.flatMap Prod.snd).length ≤ ((outs.take k).flatMap Prod.snd).length) :
    outs.length ≤ k := by
  have hsplit : outs.flatMap Prod.snd =
      (outs.take k).flatMap Prod.snd ++ (outs.drop k).flatMap Prod.snd := by
    rw [← List.flatMap_append, List.take_append_drop]
  rw [hsplit, List.length_append] at hle
  have hnil : (outs.drop k).flatMap Prod.snd = [] := List.length_eq_zero_iff.mp (by omega)
  apply List.drop_eq_nil_iff.mp
  apply List.eq_nil_iff_forall_not_mem.mpr
  intro o ho
  exact h o (List.mem_of_mem_drop ho) (List.flatMap_eq_nil_iff.mp hnil o ho)

end Events

/-! ### The round trip -/

theorem areaFits_of_roundTrips {area : G4SlcArea} (h : g4FillMgroupCheck area = .ok ())
    (hround : RoundTrips area) : AreaFits area := by
  obtain ⟨w, outs, houts, hconstruct⟩ := g4ConstructSfcd_eq h
  obtain ⟨words, lines, walk, hwords, hdump, _, hgood, hevents⟩ := hround false
  have hsame : words = fileWords area outs := Except.ok.inj (hwords.symm.trans hconstruct)
  rw [hsame] at hdump
  obtain ⟨lines', walk', hdump', _, hgood', hevents'⟩ :=
    g4DumpSfcd_fileWords area fun o ho => houts.written.reads o ho false
  obtain ⟨rfl, rfl⟩ := Prod.mk.inj (Option.some.inj (hdump.symm.trans hdump'))
  rw [hevents] at hevents'
  have hle : (outs.flatMap Prod.snd).length ≤
      ((outs.take (outs.length % 2 ^ 24)).flatMap Prod.snd).length := by
    rw [← hevents', houts.events]
    exact length_flatMap_le fun r _ => mergedEvents_length_le r
  have hall := length_le_of_told houts.written.told hle
  have hmod : outs.length % 2 ^ 24 = outs.length := by
    have hmod_le := Nat.mod_le outs.length (2 ^ 24)
    omega
  have hfew : outs.length < 2 ^ 24 := by omega
  rw [hmod, List.take_length, houts.events] at hevents'
  have hmerge := (merged_areaEvents_iff area).mp hevents'.symm
  have hcount : total writtenCount area.records = total wordCount area.records :=
    total_congr fun r hr => writtenCount_eq (hmerge r hr)
  rw [hgood', hmod, List.drop_length, List.flatMap_nil, List.length_nil, houts.words,
    hcount] at hgood
  refine ⟨hmerge, ?_, ?_⟩
  · rw [← houts.records]
    exact hfew
  · cases hgood with
    | inl hzero =>
      have hnil := List.length_eq_zero_iff.mp hzero
      have hwordsCount := houts.words
      rw [hnil, hcount] at hwordsCount
      rw [← hwordsCount]
      decide
    | inr hbytes => omega

theorem roundTrips_of_areaFits {area : G4SlcArea} (h : g4FillMgroupCheck area = .ok ())
    (hfits : AreaFits area) : RoundTrips area := by
  intro verbose
  obtain ⟨w, outs, houts, hconstruct⟩ := g4ConstructSfcd_eq h
  obtain ⟨lines, walk, hdump, herrors, hgood, hevents⟩ :=
    g4DumpSfcd_fileWords area fun o ho => houts.written.reads o ho verbose
  have hrecords := hfits.records
  have hwords := hfits.words
  have hmod : outs.length % 2 ^ 24 = outs.length := by
    rw [houts.records]
    exact Nat.mod_eq_of_lt hrecords
  have hcount : total writtenCount area.records = total wordCount area.records :=
    total_congr fun r hr => writtenCount_eq (hfits.merge r hr)
  rw [hmod, List.take_length, houts.events, (merged_areaEvents_iff area).mpr hfits.merge]
    at hevents
  rw [hmod, List.drop_length, List.flatMap_nil, List.length_nil, houts.words, hcount] at hgood
  exact ⟨_, lines, walk, hconstruct, hdump, herrors, hgood.mpr (Or.inr (by omega)), hevents⟩

/-- An area that passes the check is read back as it was written exactly when it fits. -/
theorem sfcd_roundTrips_iff {area : G4SlcArea} (h : g4FillMgroupCheck area = .ok ()) :
    RoundTrips area ↔ AreaFits area :=
  ⟨areaFits_of_roundTrips h, roundTrips_of_areaFits h⟩

/-- Two blocks with waits and a mark between them; two of the copies join. -/
def mixedArea : G4SlcArea where
  isFill := false
  dmaCheckpoint := 7
  records := [
    { recType := recWaitfor, pairs := [⟨3, 7⟩, ⟨0xabc, 0xff⟩] },
    { recType := recSpillfill, ddrPool := 2, sfOffset := 0x400,
      copies := [⟨0x1000, 0x800, 5⟩, ⟨0x1800, 0x400, 5⟩, ⟨0xabc0, 0x1000, 7⟩] },
    { recType := recSetprogress, mbIdx := 9, valueToSet := 0x1234 },
    { recType := recWaitfor, pairs := [⟨5, 0x100⟩] },
    { recType := recSpillfill, ddrPool := 2, sfOffset := 0x2400, copies := [⟨0x40, 0x11, 0⟩] }]

theorem mixedArea_checked : g4FillMgroupCheck mixedArea = .ok () := rfl

theorem mixedArea_fits : AreaFits mixedArea where
  merge := by
    intro r hr htype
    unfold mixedArea at hr
    simp only [List.mem_cons, List.not_mem_nil, or_false] at hr
    rcases hr with rfl | rfl | rfl | rfl | rfl
    · cases htype
    · exact ⟨⟨by decide, Or.inl rfl⟩, trivial⟩
    · cases htype
    · cases htype
    · exact trivial
  records := by decide
  words := by decide

/-- An area with records of both kinds comes back. -/
theorem mixedArea_roundTrips : RoundTrips mixedArea :=
  (sfcd_roundTrips_iff mixedArea_checked).mpr mixedArea_fits

/-- A copy of 16 bytes that is joined by the next one. -/
def shortCopyArea : G4SlcArea where
  isFill := false
  dmaCheckpoint := 0
  records := [
    { recType := recSpillfill, ddrPool := 2, sfOffset := 0x400,
      copies := [⟨0x1000, 0x10, 5⟩, ⟨0x1010, 0x40, 5⟩] }]

/-- The area places the second copy at 0x440 of the blob, and the walk its bytes at 0x410. -/
theorem shortCopyArea_not_roundTrips :
    g4FillMgroupCheck shortCopyArea = .ok () ∧ ¬ RoundTrips shortCopyArea := by
  have hcheck : g4FillMgroupCheck shortCopyArea = .ok () := rfl
  refine ⟨hcheck, fun hround => ?_⟩
  have hmerge := (areaFits_of_roundTrips hcheck hround).merge _ List.mem_cons_self rfl
  have hline : LineEnd 16 64 := hmerge.1.2
  cases hline with
  | inl hbad => exact absurd hbad (by decide)
  | inr hbad => exact absurd hbad (by decide)

end Gehtp.Analysis.SfcdRoundTrip
