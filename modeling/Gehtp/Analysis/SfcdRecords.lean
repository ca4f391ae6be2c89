import Gehtp.Analysis.SfcdMerge

/-!
# The records that the writer makes

An area that passes the check is written without an error, as a list of records each of which is
read back as it was written: a block of merged copies, a chunk of waits, or a mark. How many records
and words there are is counted from the area.
-/

set_option autoImplicit false

namespace Gehtp.Analysis.SfcdRecords

open Lib Model.SpillFillG4 Analysis.SfcdWords Analysis.SfcdMerge

/-! ### What the check accepts -/

inductive Checked (r : G4SlcRecord) : Prop where
  | block (type : r.recType = recSpillfill) (pool : r.ddrPool ≤ 0x7fff)
      (few : r.copies.length ≤ 0xffff) (aligned : ∀ c ∈ r.copies, c.tcmOffset &&& 0xf = 0)
  | waits (type : r.recType = recWaitfor)
  | mark (type : r.recType = recSetprogress) (mb : r.mbIdx ≤ 0xffffff)

theorem checkRecord_checked {i : ℕ} {r : G4SlcRecord} (h : checkRecord i r = .ok ()) :
    Checked r := by
  unfold checkRecord at h
  split_ifs at h with hblock hpool hfew hwait _ hmark hmb
  · cases hfind : r.copies.find? fun c => c.tcmOffset &&& 0xf ≠ 0 with
    | some c =>
      rw [hfind] at h
      cases h
    | none =>
      apply Checked.block hblock (UInt32.not_lt.mp hpool) (Nat.le_of_not_lt hfew)
      intro c hc
      have hnot := List.find?_eq_none.mp hfind c hc
      by_contra hne
      exact hnot (decide_eq_true hne)
  · exact .waits hwait
  · exact .mark hmark (UInt32.not_lt.mp hmb)

theorem checkFrom_checked {i : ℕ} {rs : List G4SlcRecord} (h : checkFrom i rs = .ok ()) :
    ∀ r ∈ rs, Checked r := by
  induction rs generalizing i with
  | nil => exact fun r hr => absurd hr List.not_mem_nil
  | cons r rs ih =>
    cases hr : checkRecord i r with
    | error err =>
      rw [checkFrom, hr] at h
      cases h
    | ok u =>
      rw [checkFrom, hr] at h
      exact List.forall_mem_cons.mpr ⟨checkRecord_checked hr, ih h⟩

/-! ### Written records -/

/-- The words of a record, and the events they tell. -/
abbrev Out := List UInt32 × List Event

/-- The records added by a part of the writer. -/
structure Written (isFill : Bool) (w w' : G4SfcdWriter) (outs : List Out) : Prop where
  words : w'.words = w.words ++ outs.flatMap Prod.fst
  records : w'.records = w.records + .ofNat outs.length
  openRec : w'.openRec = none
  reads : ∀ o ∈ outs, ∀ verbose, Reads isFill verbose o.1 o.2
  told : ∀ o ∈ outs, o.2 ≠ []

section Written

variable {isFill : Bool} {w w' w'' : G4SfcdWriter}

theorem Written.refl (h : w.openRec = none) : Written isFill w w [] := by
  refine ⟨(List.append_nil _).symm, ?_, h, ?_, ?_⟩
  · exact (UInt32.add_zero _).symm
  · exact fun o ho => absurd ho List.not_mem_nil
  · exact fun o ho => absurd ho List.not_mem_nil

theorem Written.trans {outs outs' : List Out} (h : Written isFill w w' outs)
    (h' : Written isFill w' w'' outs') : Written isFill w w'' (outs ++ outs') where
  words := by rw [h'.words, h.words, List.flatMap_append, List.append_assoc]
  records := by rw [h'.records, h.records, List.length_append, UInt32.ofNat_add, UInt32.add_assoc]
  openRec := h'.openRec
  reads := List.forall_mem_append.mpr ⟨h.reads, h'.reads⟩
  told := List.forall_mem_append.mpr ⟨h.told, h'.told⟩

theorem Written.one {o : Out} (hwords : w'.words = w.words ++ o.1)
    (hrecords : w'.records = w.records + 1) (hopen : w'.openRec = none)
    (hreads : ∀ verbose, Reads isFill verbose o.1 o.2) (htold : o.2 ≠ []) :
    Written isFill w w' [o] where
  words := by rw [hwords, List.flatMap_cons, List.flatMap_nil, List.append_nil]
  records := hrecords
  openRec := hopen
  reads := List.forall_mem_singleton.mpr hreads
  told := List.forall_mem_singleton.mpr htold

end Written

/-! ### A block -/

section Block

variable {isFill : Bool} {w : G4SfcdWriter}

theorem pushEntries_eq {cs : List G4SlcCopy} (hopen : w.openRec.isSome)
    (haligned : ∀ c ∈ cs, c.tcmOffset &&& 0xf = 0)
    (hfew : w.openBlocks.toNat + cs.length ≤ 0xffff) :
    pushEntries w cs = .ok ⟨w.words ++ entryWords cs, w.records, w.openRec,
      w.openBlocks + .ofNat cs.length⟩ := by
  induction cs generalizing w with
  | nil =>
    have hwords : w.words ++ entryWords [] = w.words := List.append_nil _
    have hblocks : w.openBlocks + UInt32.ofNat 0 = w.openBlocks := UInt32.add_zero _
    rw [List.length_nil, hwords, hblocks]
    rfl
  | cons c cs ih =>
    rw [List.length_cons] at hfew
    have hfull : ¬ w.openBlocks = 0xffff := by
      intro h
      rw [h] at hfew
      have hmax : (0xffff : UInt32).toNat = 0xffff := rfl
      omega
    have hsome : ¬ w.openRec.isNone = true := by
      rw [Option.isNone_iff_eq_none]
      exact Option.isSome_iff_ne_none.mp hopen
    have hpush : w.pushBlockEntry c.tcmOffset 0 c.copyLen =
        .ok ⟨w.words ++ [c.tcmOffset, c.copyLen], w.records, w.openRec, w.openBlocks + 1⟩ := by
      have hor : c.tcmOffset ||| 0 = c.tcmOffset := UInt32.or_zero
      unfold G4SfcdWriter.pushBlockEntry
      rw [if_neg hsome, if_neg (not_not.mpr (haligned c List.mem_cons_self)),
        if_neg (by decide), if_neg hfull, hor]
    have hnext : (w.openBlocks + 1).toNat = w.openBlocks.toNat + 1 := by
      rw [UInt32.toNat_add]
      exact Nat.mod_eq_of_lt (by show w.openBlocks.toNat + 1 < _; omega)
    have hcount : w.openBlocks + 1 + UInt32.ofNat cs.length =
        w.openBlocks + UInt32.ofNat (c :: cs).length := by
      rw [List.length_cons, UInt32.ofNat_add, UInt32.add_assoc, UInt32.add_comm 1]
      rfl
    have hroom : (w.openBlocks + 1).toNat + cs.length ≤ 0xffff := by
      rw [hnext]
      omega
    have hrest := ih (w := ⟨w.words ++ [c.tcmOffset, c.copyLen], w.records, w.openRec,
      w.openBlocks + 1⟩) hopen (fun c' hc' => haligned c' (List.mem_cons_of_mem c hc')) hroom
    rw [hcount, List.append_assoc] at hrest
    rw [pushEntries, hpush]
    exact hrest

variable (isFill) in
theorem writeRecord_block {r : G4SlcRecord} (htype : r.recType = recSpillfill)
    (hpool : r.ddrPool ≤ 0x7fff) (hfew : r.copies.length ≤ 0xffff)
    (haligned : ∀ c ∈ r.copies, c.tcmOffset &&& 0xf = 0) (hopen : w.openRec = none) :
    ∃ w', writeRecord w r = .ok w' ∧ Written isFill w w'
      [(blockWords r.ddrPool r.sfOffset (g4SfcdFinalizeCopies r.copies),
        .transfer isFill r.ddrPool r.sfOffset ::
          copyMoves isFill r.sfOffset (g4SfcdFinalizeCopies r.copies))] := by
  have hfew' := Nat.le_trans (finalize_length_le r.copies) hfew
  have haligned' := finalize_aligned haligned
  have hbegin : w.beginBlockRecord r.sfOffset =
      .ok (⟨w.words ++ [0, r.sfOffset], w.records, some w.words.length, 0⟩, w.words.length) := by
    unfold G4SfcdWriter.beginBlockRecord
    rw [hopen]
    rfl
  have hpush := pushEntries_eq (w := ⟨w.words ++ [0, r.sfOffset], w.records,
    some w.words.length, 0⟩) rfl haligned' (by
      show 0 + _ ≤ _
      omega)
  have hwords : (w.words ++ [0, r.sfOffset] ++ entryWords (g4SfcdFinalizeCopies r.copies)).set
      w.words.length (WordFields.pack 16 r.ddrPool (.ofNat (g4SfcdFinalizeCopies r.copies).length)) =
      w.words ++ blockWords r.ddrPool r.sfOffset (g4SfcdFinalizeCopies r.copies) := by
    rw [List.append_assoc, List.set_append_right _ _ (Nat.le_refl _), Nat.sub_self]
    rfl
  refine ⟨⟨_, w.records + 1, none, 0⟩, ?_, .one hwords rfl rfl
    (fun verbose => reads_block hpool hfew' haligned') (List.cons_ne_nil _ _)⟩
  unfold writeRecord
  rw [if_pos htype, hbegin]
  show (pushEntries _ _).bind _ = _
  rw [hpush]
  show G4SfcdWriter.endBlockRecord _ _ _ = _
  unfold G4SfcdWriter.endBlockRecord
  rw [if_neg (not_not.mpr rfl), if_neg (UInt32.not_lt.mpr hpool), UInt32.zero_add]
  rfl

end Block

/-! ### Waits -/

section Waits

variable {isFill : Bool} {w : G4SfcdWriter}

/-- The number of chunks of `n` waits. -/
def chunkCount (narrow : Bool) (n : ℕ) : ℕ :=
  (n + G4SfcdWriter.waitChunk narrow - 1) / G4SfcdWriter.waitChunk narrow

theorem chunkCount_zero (narrow : Bool) : chunkCount narrow 0 = 0 := by
  cases narrow <;> rfl

theorem chunkCount_step (narrow : Bool) {n : ℕ} (h : 0 < n) :
    chunkCount narrow n = 1 + chunkCount narrow (n - G4SfcdWriter.waitChunk narrow) := by
  cases narrow with
  | true =>
    show (n + 0xffff - 1) / 0xffff = 1 + (n - 0xffff + 0xffff - 1) / 0xffff
    omega
  | false =>
    show (n + 0x7fff - 1) / 0x7fff = 1 + (n - 0x7fff + 0x7fff - 1) / 0x7fff
    omega

def waitSize (narrow : Bool) : ℕ := if narrow then 1 else 2

theorem waitWords_length (narrow : Bool) (pairs : List G4SfcdWaitEntry) :
    (G4SfcdWriter.waitWords narrow pairs).length = 1 + waitSize narrow * pairs.length := by
  cases narrow with
  | true =>
    show (List.map _ pairs).length + 1 = 1 + 1 * pairs.length
    rw [List.length_map]
    omega
  | false =>
    have hflat : (pairs.flatMap fun p => [p.mbIdx, p.val]).length = 2 * pairs.length := by
      induction pairs with
      | nil => rfl
      | cons p pairs ih =>
        rw [List.flatMap_cons, List.length_append, ih]
        show 2 + 2 * pairs.length = 2 * (pairs.length + 1)
        omega
    show (pairs.flatMap fun p => [p.mbIdx, p.val]).length + 1 = 1 + 2 * pairs.length
    rw [hflat]
    omega

/-- The counts of the records and words of waits. -/
structure WaitCounts (narrow : Bool) (n : ℕ) (outs : List Out) : Prop where
  records : outs.length = chunkCount narrow n
  words : (outs.flatMap Prod.fst).length = chunkCount narrow n + waitSize narrow * n

variable (isFill) in
theorem writeChunks_written (narrow : Bool) {pairs : List G4SfcdWaitEntry}
    (hnarrow : narrow = true → ∀ p ∈ pairs, Narrow p) (hopen : w.openRec = none) :
    ∃ outs, Written isFill w (G4SfcdWriter.writeChunks narrow w pairs) outs ∧
      outs.flatMap Prod.snd = waitEvents pairs ∧ WaitCounts narrow pairs.length outs := by
  induction hn : pairs.length using Nat.strong_induction_on generalizing pairs w with
  | _ n ih =>
    rw [G4SfcdWriter.writeChunks]
    by_cases hnil : pairs = []
    · rw [dif_pos hnil, ← hn, hnil]
      refine ⟨[], .refl hopen, rfl, ?_, ?_⟩
      · exact (chunkCount_zero narrow).symm
      · show 0 = chunkCount narrow 0 + waitSize narrow * 0
        rw [chunkCount_zero]
        rfl
    · rw [dif_neg hnil]
      have hpos := List.length_pos_of_ne_nil hnil
      have hchunk := G4SfcdWriter.waitChunk_pos narrow
      have hdrop : (pairs.drop (G4SfcdWriter.waitChunk narrow)).length =
          n - G4SfcdWriter.waitChunk narrow := by
        rw [List.length_drop, hn]
      obtain ⟨outs, hwritten, hevents, hcounts⟩ := ih _ (by omega)
        (w := ⟨w.words ++ G4SfcdWriter.waitWords narrow (pairs.take (G4SfcdWriter.waitChunk narrow)),
          w.records + 1, w.openRec, w.openBlocks⟩)
        (fun hn p hp => hnarrow hn p (List.mem_of_mem_drop hp)) hopen hdrop
      have htake : (pairs.take (G4SfcdWriter.waitChunk narrow)).length ≤
          G4SfcdWriter.waitChunk narrow := by
        rw [List.length_take]
        exact Nat.min_le_left _ _
      have hsome : waitEvents (pairs.take (G4SfcdWriter.waitChunk narrow)) ≠ [] := by
        intro h
        have htaken := List.map_eq_nil_iff.mp h
        rw [List.take_eq_nil_iff] at htaken
        cases htaken with
        | inl hzero => omega
        | inr hempty => exact hnil hempty
      have hone : Written isFill w ⟨w.words ++ G4SfcdWriter.waitWords narrow
            (pairs.take (G4SfcdWriter.waitChunk narrow)), w.records + 1, w.openRec, w.openBlocks⟩
          [(G4SfcdWriter.waitWords narrow (pairs.take (G4SfcdWriter.waitChunk narrow)),
            waitEvents (pairs.take (G4SfcdWriter.waitChunk narrow)))] :=
        .one rfl rfl hopen (fun verbose => reads_waits htake
          fun hn p hp => hnarrow hn p (List.mem_of_mem_take hp)) hsome
      have hstep := chunkCount_step narrow (n := n) (by omega)
      refine ⟨_, hone.trans hwritten, ?_, ?_, ?_⟩
      · rw [List.flatMap_append, hevents, List.flatMap_cons, List.flatMap_nil, List.append_nil,
          waitEvents, waitEvents, ← List.map_append, List.take_append_drop]
        rfl
      · rw [List.length_append, hcounts.records, hstep]
        rfl
      · rw [List.flatMap_append, List.length_append, hcounts.words, List.flatMap_cons,
          List.flatMap_nil, List.append_nil, waitWords_length, List.length_take, hstep, hn]
        have hsplit : min (G4SfcdWriter.waitChunk narrow) n +
            (n - G4SfcdWriter.waitChunk narrow) = n := by omega
        have hmul := congrArg (waitSize narrow * ·) hsplit
        simp only [Nat.mul_add] at hmul
        omega

theorem narrow_of_narrowWaits {pairs : List G4SfcdWaitEntry}
    (h : G4SfcdWriter.narrowWaits pairs = true) : ∀ p ∈ pairs, Narrow p := by
  intro p hp
  have hall := List.all_eq_true.mp h p hp
  rw [Bool.not_eq_true', Bool.or_eq_false_iff] at hall
  exact ⟨UInt32.not_lt.mp (of_decide_eq_false hall.1),
    UInt32.not_lt.mp (of_decide_eq_false hall.2)⟩

end Waits

/-! ### An area -/

def recordEvents (isFill : Bool) (r : G4SlcRecord) : List Event :=
  if r.recType = recSpillfill then
    .transfer isFill r.ddrPool r.sfOffset :: copyMoves isFill r.sfOffset r.copies
  else if r.recType = recWaitfor then waitEvents r.pairs
  else if r.recType = recSetprogress then [.mark r.mbIdx r.valueToSet]
  else []

/-- What a record says when its copies are merged. -/
def mergedEvents (isFill : Bool) (r : G4SlcRecord) : List Event :=
  if r.recType = recSpillfill then
    .transfer isFill r.ddrPool r.sfOffset ::
      copyMoves isFill r.sfOffset (g4SfcdFinalizeCopies r.copies)
  else recordEvents isFill r

/-- The number of records in the words that one record takes. -/
def recordCount (r : G4SlcRecord) : ℕ :=
  if r.recType = recWaitfor then
    chunkCount (G4SfcdWriter.narrowWaits r.pairs) r.pairs.length
  else 1

/-- The number of words that a record takes, when it has `blocks` copies to write. -/
def wordsWith (blocks : ℕ) (r : G4SlcRecord) : ℕ :=
  if r.recType = recSpillfill then 2 + 2 * blocks
  else if r.recType = recWaitfor then
    recordCount r + waitSize (G4SfcdWriter.narrowWaits r.pairs) * r.pairs.length
  else 2

/-- The number of words that a record takes. -/
def wordCount (r : G4SlcRecord) : ℕ := wordsWith (runCount r.copies) r

/-- The number of words that a record takes as it is written. -/
def writtenCount (r : G4SlcRecord) : ℕ := wordsWith (g4SfcdFinalizeCopies r.copies).length r

def total (count : G4SlcRecord → ℕ) : List G4SlcRecord → ℕ
  | [] => 0
  | r :: rs => count r + total count rs

section Area

variable {isFill : Bool} {w : G4SfcdWriter}

/-- The records written for one record, or for all records of an area. -/
structure Outs (isFill : Bool) (w w' : G4SfcdWriter) (evs : List Event) (records words : ℕ)
    (outs : List Out) : Prop where
  written : Written isFill w w' outs
  events : outs.flatMap Prod.snd = evs
  records : outs.length = records
  words : (outs.flatMap Prod.fst).length = words

theorem entryWords_length (cs : List G4SlcCopy) : (entryWords cs).length = 2 * cs.length := by
  induction cs with
  | nil => rfl
  | cons c cs ih =>
    show (entryWords cs).length + 2 = 2 * (cs.length + 1)
    rw [ih]
    rfl

variable (isFill) in
theorem writeRecord_written {r : G4SlcRecord} (h : Checked r) (hopen : w.openRec = none) :
    ∃ w' outs, writeRecord w r = .ok w' ∧
      Outs isFill w w' (mergedEvents isFill r) (recordCount r) (writtenCount r) outs := by
  have hwait : recWaitfor ≠ recSpillfill := by decide
  have hmark : recSetprogress ≠ recSpillfill := by decide
  have hmark' : recSetprogress ≠ recWaitfor := by decide
  cases h with
  | block htype hpool hfew haligned =>
    obtain ⟨w', hrun, hwritten⟩ := writeRecord_block isFill htype hpool hfew haligned hopen
    have hnot : ¬ r.recType = recWaitfor := by
      rw [htype]
      exact hwait.symm
    refine ⟨w', _, hrun, hwritten, ?_, ?_, ?_⟩
    · rw [mergedEvents, if_pos htype]
      exact List.append_nil _
    · rw [recordCount, if_neg hnot]
      rfl
    · rw [writtenCount, wordsWith, if_pos htype, List.flatMap_cons, List.flatMap_nil,
        List.append_nil]
      show (entryWords _).length + 2 = _
      rw [entryWords_length, Nat.add_comm]
  | waits htype =>
    have hnot : ¬ r.recType = recSpillfill := by
      rw [htype]
      exact hwait
    obtain ⟨outs, hwritten, hevents, hcounts⟩ := writeChunks_written isFill (w := w)
      (G4SfcdWriter.narrowWaits r.pairs) narrow_of_narrowWaits hopen
    have hrun : writeRecord w r = .ok (w.writeWaits r.pairs) :=
      (if_neg hnot).trans (if_pos htype)
    refine ⟨_, outs, hrun, hwritten, ?_, ?_, ?_⟩
    · rw [mergedEvents, if_neg hnot, recordEvents, if_neg hnot, if_pos htype, hevents]
    · rw [recordCount, if_pos htype, hcounts.records]
    · rw [writtenCount, wordsWith, if_neg hnot, if_pos htype, recordCount, if_pos htype,
        hcounts.words]
  | mark htype hmb =>
    have hnot : ¬ r.recType = recSpillfill := by
      rw [htype]
      exact hmark
    have hnot' : ¬ r.recType = recWaitfor := by
      rw [htype]
      exact hmark'
    have hrun : writeRecord w r = .ok ⟨w.words ++ [0x81000000 ||| r.mbIdx, r.valueToSet],
        w.records + 1, w.openRec, w.openBlocks⟩ :=
      (if_neg hnot).trans ((if_neg hnot').trans ((if_pos htype).trans
        (if_neg (UInt32.not_lt.mpr hmb))))
    refine ⟨_, [([0x81000000 ||| r.mbIdx, r.valueToSet], [.mark r.mbIdx r.valueToSet])], hrun,
      .one rfl rfl hopen (fun verbose => reads_mark hmb) (List.cons_ne_nil _ _), ?_, ?_, ?_⟩
    · rw [mergedEvents, if_neg hnot, recordEvents, if_neg hnot, if_neg hnot', if_pos htype]
      rfl
    · rw [recordCount, if_neg hnot']
      rfl
    · rw [writtenCount, wordsWith, if_neg hnot, if_neg hnot']
      rfl

variable (isFill) in
theorem writeRecords_written {rs : List G4SlcRecord} (h : ∀ r ∈ rs, Checked r)
    (hopen : w.openRec = none) :
    ∃ w' outs, writeRecords w rs = .ok w' ∧
      Outs isFill w w' (rs.flatMap (mergedEvents isFill)) (total recordCount rs)
        (total writtenCount rs) outs := by
  induction rs generalizing w with
  | nil => exact ⟨w, [], rfl, .refl hopen, rfl, rfl, rfl⟩
  | cons r rs ih =>
    obtain ⟨w', outs, hrun, houts⟩ :=
      writeRecord_written isFill (h r List.mem_cons_self) hopen
    obtain ⟨w'', outs', hruns, houts'⟩ :=
      ih (fun r' hr' => h r' (List.mem_cons_of_mem r hr')) houts.written.openRec
    have hall : writeRecords w (r :: rs) = .ok w'' := by
      rw [writeRecords, hrun]
      exact hruns
    refine ⟨w'', outs ++ outs', hall, houts.written.trans houts'.written, ?_, ?_, ?_⟩
    · rw [List.flatMap_append, houts.events, houts'.events, List.flatMap_cons]
    · rw [List.length_append, houts.records, houts'.records, total]
    · rw [List.flatMap_append, List.length_append, houts.words, houts'.words, total]

end Area

end Gehtp.Analysis.SfcdRecords
