import Gehtp.Analysis.TempoffLoad
import Gehtp.Model.ExecProcess

/-!
# Whose tables a run uses

The ops of a blob never touch the tables of temp offsets and states, and the loaders leave tables
that are there alone. So a run uses the offsets of its own blob only if it finds none: the first
blob that brings offsets keeps them in force until the shutdown, and the first blob at all that
gets past the loader keeps its states in force for good.
-/

set_option autoImplicit false

namespace Gehtp.Analysis.ProcessTables

open Lib Lib.Machine Model.OplistParse Model.OplistExec Model.OplistHandlers
open Model.TempRun (clearOffsets loadEntry)
open Model.TempoffSlot Model.ExecProcess Analysis.TempoffLoad

/-! ### The handlers leave the tables alone -/

/-- What the loader of temp offsets fills. -/
def offsetTables (s : ExecState) : Bool × (ℕ → UInt32) × (ℕ → UInt32) :=
  (s.staticOffsets, s.staticOffArr, s.vtcmOffArr)

def stateTables (s : ExecState) : ℕ × (ℕ → Option ℕ) × (ℕ → UInt32) :=
  (s.nStates, s.stBuf, s.stBytes)

def tables (s : ExecState) : (Bool × (ℕ → UInt32) × (ℕ → UInt32)) ×
    (ℕ × (ℕ → Option ℕ) × (ℕ → UInt32)) :=
  (offsetTables s, stateTables s)

section Frame

variable (env : Env) (b : WtBlob) (op : WtOp)

instance keeps_ask {α : Type} (f : ℕ → α) : Keeps tables (ask f) := ⟨fun _ => rfl⟩

instance keeps_tempEntry {α : Type} (f : ExecState → ℕ → α) (i : ℕ) :
    Keeps tables (tempEntry f i) := by
  unfold tempEntry
  infer_instance

instance keeps_slotAt (i : ℕ) : Keeps tables (slotAt b i) := by
  unfold slotAt
  split <;> infer_instance

instance keeps_slotPtr (i : ℕ) : Keeps tables (slotPtr env b i) := by
  unfold slotPtr
  infer_instance

instance keeps_refPtr (r : UInt32) : Keeps tables (refPtr env b r) := by
  unfold refPtr
  infer_instance

instance keeps_refElemCount (r : UInt32) : Keeps tables (refElemCount b r) := by
  unfold refElemCount
  infer_instance

instance keeps_wtcacheEnsure : Keeps tables (wtcacheEnsure env) := by
  have hopen : Keeps tables (update fun s => { s with engineReady := true } : Exec Unit) :=
    keeps_update fun _ => rfl
  unfold wtcacheEnsure
  infer_instance

instance keeps_vtcmPoolLay : Keeps tables (vtcmPoolLay env) := by
  have hpool (p : ℕ) :
      Keeps tables (update fun s => { s with vtcmPool := some p } : Exec Unit) :=
    keeps_update fun _ => rfl
  unfold vtcmPoolLay
  apply Keeps.seq inferInstance
  intro lay
  apply Keeps.seq inferInstance
  intro size
  obtain ⟨base, vs, pc⟩ := lay
  cases base with
  | none => exact keeps_pure none
  | some vb =>
    dsimp only
    infer_instance

instance keeps_vtcmPoolEnsure : Keeps tables (vtcmPoolEnsure env) := by
  unfold vtcmPoolEnsure
  apply Keeps.seq inferInstance
  intro pool
  cases pool with
  | none =>
    dsimp only
    infer_instance
  | some base => exact keeps_pure (some base)

instance keeps_placeTemp (id p : ℕ) (bytes : UInt32) : Keeps tables (placeTemp id p bytes) := by
  unfold placeTemp
  apply Keeps.seq inferInstance
  intro _
  exact Keeps.seq (keeps_update fun _ => rfl) inferInstance

instance keeps_growPool (aligned : UInt32) : Keeps tables (growPool env aligned) := by
  unfold growPool
  apply Keeps.seq inferInstance
  intro st
  split
  · split
    · exact keeps_pure false
    · split
      · exact keeps_hang
      · apply Keeps.seq inferInstance
        intro np
        cases np with
        | none => exact keeps_pure false
        | some p => exact Keeps.seq (keeps_update fun _ => rfl) fun _ => keeps_pure true
  · exact keeps_pure true

instance keeps_tempBump (id : ℕ) (bytes : UInt32) : Keeps tables (tempBump env id bytes) := by
  unfold tempBump
  apply Keeps.seq inferInstance
  intro cur
  apply Keeps.seq inferInstance
  intro size
  split
  · apply Keeps.seq inferInstance
    intro ok
    split
    · exact Keeps.seq (keeps_update fun _ => rfl) inferInstance
    · exact keeps_pure none
  · exact Keeps.seq (keeps_update fun _ => rfl) fun _ => keeps_pure cur

instance keeps_tempGetDdr (id : ℕ) (bytes : UInt32) : Keeps tables (tempGetDdr env id bytes) := by
  unfold tempGetDdr
  apply Keeps.seq inferInstance
  intro st
  split <;> infer_instance

instance keeps_tempGetVtcm (id : ℕ) (off bytes : UInt32) :
    Keeps tables (tempGetVtcm env id off bytes) := by
  unfold tempGetVtcm
  apply Keeps.seq inferInstance
  intro size
  split
  · exact keeps_pure none
  · apply Keeps.seq inferInstance
    intro base
    cases base with
    | none => exact keeps_pure none
    | some p => exact keeps_placeTemp id (p + off.toNat) bytes

instance keeps_tempGet (id bytes : UInt32) : Keeps tables (tempGet env id bytes) := by
  unfold tempGet
  infer_instance

instance keeps_kernel (msg : String) : Keeps tables (kernel env msg) := by
  unfold kernel
  infer_instance

instance keeps_refsThenTemp (refs : List (Exec (Option ℕ))) (out bytes : UInt32) (msg : String)
    [Keeps tables (collect (fun m => m) refs)] :
    Keeps tables (refsThenTemp env refs out bytes msg) := by
  unfold refsThenTemp
  infer_instance

instance keeps_refsBeforeTemp (refs : List (Exec (Option ℕ))) (refMsg : String)
    (out bytes : UInt32) (outMsg : String) [Keeps tables (collect (fun m => m) refs)] :
    Keeps tables (refsBeforeTemp env refs refMsg out bytes outMsg) := by
  unfold refsBeforeTemp
  infer_instance

instance keeps_carveMatmul : Keeps tables (carveMatmul env op) := by
  have hcarve : Keeps tables (update fun s => { s with
      engineReady := true, matmulCarved := true, engM := arg op 3, engK := arg op 4,
      engN := arg op 5 } : Exec Unit) := keeps_update fun _ => rfl
  unfold carveMatmul openEngine
  infer_instance

instance keeps_checkActSlot : Keeps tables (checkActSlot b op) := by
  unfold checkActSlot
  infer_instance

instance keeps_invokeMatmul : Keeps tables (invokeMatmul env b op) := by
  unfold invokeMatmul
  infer_instance

instance keeps_execMatmul : Keeps tables (execMatmul env b op) := by
  unfold execMatmul
  iterate 5 apply Keeps.seq inferInstance; intro _
  infer_instance

instance keeps_execRmsnorm (m : UInt32) : Keeps tables (execRmsnorm env b op m) := by
  unfold execRmsnorm
  iterate 5 apply Keeps.seq inferInstance; intro _
  infer_instance

instance keeps_execSilu : Keeps tables (execSilu env op) := by
  unfold execSilu
  infer_instance

instance keeps_execConv2d : Keeps tables (execConv2d env b op) := by
  unfold execConv2d
  infer_instance

instance keeps_poolRange (slotArg off bytes : UInt32) (msg : String) :
    Keeps tables (poolRange env b slotArg off bytes msg) := by
  unfold poolRange
  infer_instance

instance keeps_poolCopy (p : Option ℕ) (bytes : UInt32) : Keeps tables (poolCopy env p bytes) := by
  unfold poolCopy
  infer_instance

instance keeps_execSpill : Keeps tables (execSpill env b op) := by
  unfold execSpill
  infer_instance

instance keeps_execFill : Keeps tables (execFill env b op) := by
  unfold execFill fillDst
  infer_instance

instance keeps_dmaRefResolve (r off bytes : UInt32) (isDst : Bool) :
    Keeps tables (dmaRefResolve env b r off bytes isDst) := by
  unfold dmaRefResolve dmaSlot dmaVtcm dmaTemp
  infer_instance

instance keeps_dmaFence (f : UInt32) (msg : String) : Keeps tables (dmaFence env f msg) := by
  unfold dmaFence
  infer_instance

instance keeps_dmaTransfer (src dst : Option Bool) (bytes : UInt32) :
    Keeps tables (dmaTransfer env src dst bytes) := by
  unfold dmaTransfer
  infer_instance

instance keeps_execDma : Keeps tables (execDma env b op) := by
  unfold execDma
  infer_instance

instance keeps_execSelect : Keeps tables (execSelect env b op) := by
  unfold execSelect
  infer_instance

instance keeps_execConcat : Keeps tables (execConcat env b op) := by
  unfold execConcat
  infer_instance

instance keeps_execSplit : Keeps tables (execSplit env b op) := by
  unfold execSplit splitElems splitWrite
  infer_instance

instance keeps_execReduce : Keeps tables (execReduce env b op) := by
  unfold execReduce
  infer_instance

instance keeps_execRmsnorm2 : Keeps tables (execRmsnorm2 env b op) := by
  unfold execRmsnorm2
  infer_instance

instance keeps_execTransposeGen : Keeps tables (execTransposeGen env b op) := by
  unfold execTransposeGen
  infer_instance

instance keeps_stateKvc (stateRef kvElems : UInt32) :
    Keeps tables (stateKvc env stateRef kvElems) := by
  have hinit (i : ℕ) (slotBytes : UInt32) : Keeps tables (kvcInit env i slotBytes) := by
    unfold kvcInit
    iterate 5 apply Keeps.seq inferInstance; intro _
    exact keeps_update fun _ => rfl
  unfold stateKvc
  infer_instance

instance keeps_appendPos (i : ℕ) : Keeps tables (appendPos op i) := by
  have hcount : Keeps tables (update fun s => { s with
      stCount := Function.update s.stCount i (s.stCount i + 1) } : Exec Unit) :=
    keeps_update fun _ => rfl
  unfold appendPos
  infer_instance

instance keeps_execKvAppend : Keeps tables (execKvAppend env b op) := by
  unfold execKvAppend
  infer_instance

instance keeps_execKvGather : Keeps tables (execKvGather env op) := by
  unfold execKvGather gatherStride gatherFace
  infer_instance

instance keeps_stateAtLeast (stateRef : UInt32) (need : ℕ) (refMsg sizeMsg : String) :
    Keeps tables (stateAtLeast stateRef need refMsg sizeMsg) := by
  unfold stateAtLeast
  infer_instance

instance keeps_execConv1dSsmStep : Keeps tables (execConv1dSsmStep env b op) := by
  unfold execConv1dSsmStep
  infer_instance

/-- No op changes a table. -/
instance keeps_execOp (engineM : UInt32) : Keeps tables (execOp env b op engineM) := by
  unfold execOp
  cases op.opcode with
  | nop => exact keeps_pure ()
  | pin =>
    dsimp only
    unfold xopPin
    infer_instance
  | matmulW4A16 => exact keeps_execMatmul env b op
  | rmsnormF16 => exact keeps_execRmsnorm env b op engineM
  | siluF16 => exact keeps_execSilu env op
  | conv2dF16 => exact keeps_execConv2d env b op
  | spill => exact keeps_execSpill env b op
  | fill => exact keeps_execFill env b op
  | dma => exact keeps_execDma env b op
  | binaryF16 =>
    dsimp only
    unfold execBinary
    infer_instance
  | concatF16 => exact keeps_execConcat env b op
  | splitF16 => exact keeps_execSplit env b op
  | reduceF16 => exact keeps_execReduce env b op
  | kvAppendF16 => exact keeps_execKvAppend env b op
  | kvGatherF16 => exact keeps_execKvGather env op
  | rmsnorm2F16 => exact keeps_execRmsnorm2 env b op
  | transposeGenF16 => exact keeps_execTransposeGen env b op
  | conv1dSsmStepF16 => exact keeps_execConv1dSsmStep env b op
  | im2col | addF16 | transposeF16 =>
    exact keeps_refsBeforeTemp env _ _ _ _ _
  | softmaxF16 | cumsumF32 | conv1dSsmF16 | argmaxF16 | matmulF16 =>
    exact keeps_refsThenTemp env _ _ _ _
  | padF16 | unaryF16 | stridedSliceF16 | gatherF16 | scatterNdF16 | matmulF16Split
  | broadcastF16 | deltaChunkF16 =>
    dsimp only [execPad, execUnary, execSlice, execGather, execScatterNd, execMatmulF16Split,
      execBroadcast, execDeltaChunk]
    infer_instance

instance keeps_execOps (k : ℕ) (i m : UInt32) : Keeps tables (execOps env b k i m) := by
  induction k generalizing i m with
  | zero => exact keeps_pure m
  | succ k ih =>
    have hop (j : ℕ) : Keeps tables (opAt b j) := by
      unfold opAt
      split <;> infer_instance
    unfold execOps
    infer_instance

end Frame

/-! ### What a blob describes -/

/-- The entries of the table of temp offsets; none if there is no slot. -/
def tableEntries (b : WtBlob) : List (UInt32 × UInt32 × UInt32) :=
  match tempoffSlot b.slots with
  | none => []
  | some slot =>
    entriesAt b.weight slot.offset.toNat (le32 b.weight (slot.offset.toNat + 8)).toNat 0

/-- The offset of temp `t` in the VTCM or in the pool: that of its last entry. -/
def offsetIn (vtcm : Bool) (es : List (UInt32 × UInt32 × UInt32)) (t : ℕ) : UInt32 :=
  let own := es.filter fun e => decide (entryTemp e = t) && (decide (e.1 &&& 0x4000 ≠ 0) == vtcm)
  (own.getLast?.map fun e => e.2.1).getD noOffset

/-- The offsets in force are those of the blob. -/
structure OffsetsOf (b : WtBlob) (s : ExecState) : Prop where
  used : s.staticOffsets = (tempoffSlot b.slots).isSome
  ddr : ∀ t, s.staticOffArr t = offsetIn false (tableEntries b) t
  vtcm : ∀ t, s.vtcmOffArr t = offsetIn true (tableEntries b) t

def stateSlot (slots : List WtSlot) : Option WtSlot :=
  slots.find? fun slot => decide (slot.addr = wtSlotState)

/-- The sizes of the states; none if there is no slot. -/
def stateSizes (b : WtBlob) : List UInt32 :=
  match stateSlot b.slots with
  | none => []
  | some slot => (List.range (le32 b.weight slot.offset.toNat).toNat).map fun i =>
      le32 b.weight (slot.offset.toNat + 4 + i * 4)

/-- The states in force are those of the blob. -/
structure StatesOf (b : WtBlob) (s : ExecState) : Prop where
  count : s.nStates = (stateSizes b).length
  size : ∀ i < s.nStates, (stateSizes b)[i]? = some (s.stBytes i)
  buf : ∀ i < s.nStates, (s.stBuf i).isSome = true

variable {s s' : ExecState} {p p' : Process} {k : ℕ} {first : UInt32} {r : Checked String UInt32}

theorem OffsetsOf.congr {b : WtBlob} (h : OffsetsOf b s) (heq : offsetTables s' = offsetTables s) :
    OffsetsOf b s' := by
  obtain ⟨hflag, hrest⟩ := Prod.mk.inj heq
  obtain ⟨hddr, hvtcm⟩ := Prod.mk.inj hrest
  refine ⟨hflag.trans h.used, fun t => ?_, fun t => ?_⟩
  · rw [hddr]
    exact h.ddr t
  · rw [hvtcm]
    exact h.vtcm t

theorem StatesOf.congr {b : WtBlob} (h : StatesOf b s) (heq : stateTables s' = stateTables s) :
    StatesOf b s' := by
  obtain ⟨hcount, hrest⟩ := Prod.mk.inj heq
  obtain ⟨hbuf, hbytes⟩ := Prod.mk.inj hrest
  constructor
  · exact hcount.trans h.count
  · rw [hcount, hbytes]
    exact h.size
  · rw [hcount, hbuf]
    exact h.buf

/-! ### The loader of temp offsets -/

theorem offsetIn_concat (vtcm : Bool) (es : List (UInt32 × UInt32 × UInt32))
    (e : UInt32 × UInt32 × UInt32) (t : ℕ) : offsetIn vtcm (es ++ [e]) t =
      if entryTemp e = t ∧ decide (e.1 &&& 0x4000 ≠ 0) = vtcm then e.2.1
      else offsetIn vtcm es t := by
  unfold offsetIn
  dsimp only
  rw [List.filter_append]
  by_cases h : entryTemp e = t ∧ decide (e.1 &&& 0x4000 ≠ 0) = vtcm
  · rw [if_pos h, List.filter_cons_of_pos (by rw [h.1, h.2]; simp), List.filter_nil,
      List.getLast?_concat]
    rfl
  · rw [if_neg h, List.filter_cons_of_neg (by simpa using h), List.filter_nil, List.append_nil]

theorem store_apply (s : ExecState) (e : UInt32 × UInt32 × UInt32) (t : ℕ) :
    (TempoffLoad.store s e).staticOffArr t =
        (if entryTemp e = t ∧ decide (e.1 &&& 0x4000 ≠ 0) = false then e.2.1
        else s.staticOffArr t) ∧
      (TempoffLoad.store s e).vtcmOffArr t =
        if entryTemp e = t ∧ decide (e.1 &&& 0x4000 ≠ 0) = true then e.2.1
        else s.vtcmOffArr t := by
  unfold TempoffLoad.store
  by_cases hflag : e.1 &&& 0x4000 ≠ 0
  · rw [if_pos hflag]
    by_cases ht : entryTemp e = t
    · subst ht
      simp [hflag]
    · simp [ht, Function.update_of_ne (Ne.symm ht)]
  · rw [if_neg hflag]
    by_cases ht : entryTemp e = t
    · subst ht
      simp [hflag]
    · simp [ht, Function.update_of_ne (Ne.symm ht)]

theorem foldl_store_last (es : List (UInt32 × UInt32 × UInt32)) (s : ExecState) (t : ℕ)
    (hs : s.staticOffArr t = noOffset) (hv : s.vtcmOffArr t = noOffset) :
    (es.foldl TempoffLoad.store s).staticOffArr t = offsetIn false es t ∧
      (es.foldl TempoffLoad.store s).vtcmOffArr t = offsetIn true es t := by
  induction es using List.reverseRecOn with
  | nil => exact ⟨hs, hv⟩
  | append_singleton es e ih =>
    rw [List.foldl_append, List.foldl_cons, List.foldl_nil, offsetIn_concat, offsetIn_concat,
      ← ih.1, ← ih.2]
    exact store_apply _ e t

theorem loadTempoff_offsets {env : Env} {b : WtBlob} (hcold : s.staticOffsets = false)
    (h : wtExecLoadTempoff env b s = (.ok (), s')) : OffsetsOf b s' := by
  rw [loadTempoff_cold hcold] at h
  rcases loadFirst_cases env b.weight b.slots with ⟨hslot, hload⟩ | ⟨slot, hslot, hload⟩
  · rw [hload] at h
    obtain ⟨-, rfl⟩ := Prod.mk.inj h
    have hentries : tableEntries b = [] := by
      unfold tableEntries
      rw [hslot]
    refine ⟨?_, fun t => ?_, fun t => ?_⟩
    · rw [hslot]
      exact hcold
    · rw [hentries]
      rfl
    · rw [hentries]
      rfl
  · rw [hload] at h
    obtain ⟨base, -, -, rfl⟩ := loadSlot_eq_ok h
    have hentries : tableEntries b = entriesAt b.weight slot.offset.toNat
        (le32 b.weight (slot.offset.toNat + 8)).toNat 0 := by
      unfold tableEntries
      rw [hslot]
    have hlast := fun t => foldl_store_last (tableEntries b)
      { clearOffsets s with tick := s.tick + 1 } t rfl rfl
    rw [hentries] at hlast
    refine ⟨?_, fun t => ?_, fun t => ?_⟩
    · rw [hslot]
      rfl
    · rw [hentries]
      exact (hlast t).1
    · rw [hentries]
      exact (hlast t).2

/-! ### What the loaders leave alone -/

instance keeps_word {γ : Type} (f : ExecState → γ) (mem : List UInt8) (p : ℕ) :
    Keeps f (word mem p) := by
  unfold word
  infer_instance

/-- The table is entered before the flag is set. -/
instance keeps_loadTable (cap vtcmCap : UInt32) (mem : List UInt8) (p k : ℕ) (i : UInt32) :
    Keeps (fun s => (s.staticOffsets, stateTables s)) (loadTable cap vtcmCap mem p k i) := by
  induction k generalizing i with
  | zero => exact keeps_pure ()
  | succ k ih =>
    have hentry (e : UInt32 × UInt32 × UInt32) :
        Keeps (fun s => (s.staticOffsets, stateTables s)) (loadEntry cap vtcmCap e) := by
      have hv (t : ℕ) (o : UInt32) : Keeps (fun s => (s.staticOffsets, stateTables s))
          (update fun s => { s with vtcmOffArr := Function.update s.vtcmOffArr t o } : Exec Unit) :=
        keeps_update fun _ => rfl
      have hs (t : ℕ) (o : UInt32) : Keeps (fun s => (s.staticOffsets, stateTables s))
          (update fun s =>
            { s with staticOffArr := Function.update s.staticOffArr t o } : Exec Unit) :=
        keeps_update fun _ => rfl
      unfold loadEntry
      infer_instance
    unfold loadTable readEntry
    infer_instance

/-- The states are not touched by the loader of offsets. -/
instance keeps_loadTempoff (env : Env) (b : WtBlob) :
    Keeps stateTables (wtExecLoadTempoff env b) := by
  have hask {α : Type} (f : ℕ → α) : Keeps stateTables (ask f) := ⟨fun _ => rfl⟩
  have hslot (mem : List UInt8) (p : ℕ) (len : UInt32) :
      Keeps stateTables (loadSlot env mem p len) := by
    have hpool (cap reserve n : UInt32) : Keeps stateTables (loadPool env mem p cap reserve n) := by
      unfold loadPool
      apply Keeps.seq inferInstance
      intro pool
      cases pool with
      | none => exact keeps_reject _
      | some base =>
        exact Keeps.seq (keeps_loadTable _ _ mem p n.toNat 0).snd fun _ => keeps_update fun _ => rfl
    unfold loadSlot
    infer_instance
  have hfirst (mem : List UInt8) (slots : List WtSlot) :
      Keeps stateTables (loadFirst env mem slots) := by
    rcases loadFirst_cases env mem slots with ⟨-, h⟩ | ⟨slot, -, h⟩
    · rw [h]
      exact keeps_pure ()
    · rw [h]
      exact hslot mem _ _
  have hclear : Keeps stateTables (update clearOffsets : Exec Unit) := keeps_update fun _ => rfl
  unfold wtExecLoadTempoff
  infer_instance

/-- A table that is refused leaves the flag as it is. -/
instance keepsOnStop_loadTempoff (env : Env) (b : WtBlob) :
    KeepsOnStop (·.staticOffsets) (wtExecLoadTempoff env b) := by
  have hask {α : Type} (f : ℕ → α) : Keeps (·.staticOffsets) (ask f) := ⟨fun _ => rfl⟩
  have hslot (mem : List UInt8) (p : ℕ) (len : UInt32) :
      KeepsOnStop (·.staticOffsets) (loadSlot env mem p len) := by
    have hpool (cap reserve n : UInt32) :
        KeepsOnStop (·.staticOffsets) (loadPool env mem p cap reserve n) := by
      unfold loadPool
      apply KeepsOnStop.seq inferInstance
      intro pool
      cases pool with
      | none => exact keepsOnStop_of_keeps _
      | some base =>
        exact KeepsOnStop.seq (keeps_loadTable _ _ mem p n.toNat 0).fst fun _ =>
          keepsOnStop_update _
    unfold loadSlot
    infer_instance
  have hfirst (mem : List UInt8) (slots : List WtSlot) :
      KeepsOnStop (·.staticOffsets) (loadFirst env mem slots) := by
    rcases loadFirst_cases env mem slots with ⟨-, h⟩ | ⟨slot, -, h⟩
    · rw [h]
      exact keepsOnStop_of_keeps _
    · rw [h]
      exact hslot mem _ _
  have hclear : Keeps (·.staticOffsets) (update clearOffsets : Exec Unit) :=
    keeps_update fun _ => rfl
  unfold wtExecLoadTempoff
  infer_instance

/-! ### The loader of states -/

theorem loadFirstStates_cases (env : Env) (mem : List UInt8) (slots : List WtSlot) :
    stateSlot slots = none ∧ loadFirstStates env mem slots = pure () ∨
      ∃ slot, stateSlot slots = some slot ∧
        loadFirstStates env mem slots = loadStateSlot env mem slot.offset.toNat slot.len := by
  induction slots with
  | nil => exact .inl ⟨rfl, rfl⟩
  | cons slot slots ih =>
    by_cases haddr : slot.addr = wtSlotState
    · refine .inr ⟨slot, ?_, ?_⟩
      · exact List.find?_cons_of_pos (decide_eq_true haddr)
      · exact if_neg (not_not.mpr haddr)
    · have hstep : loadFirstStates env mem (slot :: slots) = loadFirstStates env mem slots :=
        if_pos haddr
      have hfind : stateSlot (slot :: slots) = stateSlot slots :=
        List.find?_cons_of_neg (by simpa using haddr)
      rw [hstep, hfind]
      exact ih

instance keeps_allocStates (env : Env) (mem : List UInt8) (p k i : ℕ) :
    Keeps (fun s => (s.nStates, offsetTables s)) (allocStates env mem p k i) := by
  induction k generalizing i with
  | zero => exact keeps_pure ()
  | succ k ih =>
    have hask {α : Type} (f : ℕ → α) : Keeps (fun s => (s.nStates, offsetTables s)) (ask f) :=
      ⟨fun _ => rfl⟩
    have halloc : Keeps (fun s => (s.nStates, offsetTables s)) (allocState env mem p i) := by
      unfold allocState
      apply Keeps.seq inferInstance
      intro bytes
      split
      · exact keeps_reject _
      · apply Keeps.seq inferInstance
        intro buf
        refine Keeps.seq (keeps_update fun _ => rfl) fun _ => ?_
        cases buf with
        | none => exact keeps_reject _
        | some _ => exact keeps_update fun _ => rfl
    unfold allocStates
    infer_instance

/-- The offsets are not touched by the loader of states. -/
instance keeps_loadFirstStates (env : Env) (mem : List UInt8) (slots : List WtSlot) :
    Keeps offsetTables (loadFirstStates env mem slots) := by
  rcases loadFirstStates_cases env mem slots with ⟨-, h⟩ | ⟨slot, -, h⟩
  · rw [h]
    exact keeps_pure ()
  · rw [h]
    unfold loadStateSlot
    split
    · exact keeps_reject _
    · apply Keeps.seq inferInstance
      intro n
      split
      · exact keeps_reject _
      · exact Keeps.seq (keeps_allocStates env mem _ _ 0).snd fun _ => keeps_update fun _ => rfl

/-- A state slot that is refused leaves no state. -/
instance keepsOnStop_loadFirstStates (env : Env) (mem : List UInt8) (slots : List WtSlot) :
    KeepsOnStop (·.nStates) (loadFirstStates env mem slots) := by
  rcases loadFirstStates_cases env mem slots with ⟨-, h⟩ | ⟨slot, -, h⟩
  · rw [h]
    exact keepsOnStop_of_keeps _
  · rw [h]
    unfold loadStateSlot
    split
    · exact keepsOnStop_of_keeps _
    · apply KeepsOnStop.seq inferInstance
      intro n
      split
      · exact keepsOnStop_of_keeps _
      · exact KeepsOnStop.seq (keeps_allocStates env mem _ _ 0).fst fun _ => keepsOnStop_update _

theorem allocState_eq_ok {env : Env} {mem : List UInt8} {p i : ℕ}
    (h : allocState env mem p i s = (.ok (), s')) :
    (∃ a, s'.stBuf = Function.update s.stBuf i (some a)) ∧
      s'.stBytes = Function.update s.stBytes i (le32 mem (p + 4 + i * 4)) := by
  obtain ⟨bytes, t₁, hword, h₁⟩ := bind_eq_ok h
  obtain ⟨rfl, rfl⟩ := word_eq_ok hword
  split at h₁
  · cases h₁
  · obtain ⟨buf, t₂, hask, h₂⟩ := bind_eq_ok h₁
    rw [ask_apply] at hask
    obtain ⟨hbuf, rfl⟩ := Prod.mk.inj hask
    obtain ⟨_, t₃, hupd, h₃⟩ := bind_eq_ok h₂
    obtain ⟨-, rfl⟩ := Prod.mk.inj hupd
    cases buf with
    | none => cases h₃
    | some a =>
      obtain ⟨-, rfl⟩ := Prod.mk.inj h₃
      exact ⟨⟨a, rfl⟩, rfl⟩

theorem allocStates_eq_ok {env : Env} {mem : List UInt8} {p i : ℕ}
    (h : allocStates env mem p k i s = (.ok (), s')) :
    (∀ j < i, s'.stBuf j = s.stBuf j ∧ s'.stBytes j = s.stBytes j) ∧
      ∀ j, i ≤ j → j < i + k →
        (s'.stBuf j).isSome = true ∧ s'.stBytes j = le32 mem (p + 4 + j * 4) := by
  induction k generalizing i s with
  | zero =>
    obtain ⟨-, rfl⟩ := Prod.mk.inj h
    exact ⟨fun j _ => ⟨rfl, rfl⟩, fun j hj hlt => absurd hlt (by omega)⟩
  | succ k ih =>
    obtain ⟨_, t, halloc, hrest⟩ := bind_eq_ok h
    obtain ⟨⟨a, hbuf⟩, hbytes⟩ := allocState_eq_ok halloc
    obtain ⟨hbelow, habove⟩ := ih hrest
    constructor
    · intro j hj
      obtain ⟨hb, hs⟩ := hbelow j (by omega)
      rw [hb, hs, hbuf, hbytes, Function.update_of_ne (by omega), Function.update_of_ne (by omega)]
      exact ⟨rfl, rfl⟩
    · intro j hj hlt
      by_cases hji : j = i
      · subst hji
        obtain ⟨hb, hs⟩ := hbelow j (by omega)
        rw [hb, hs, hbuf, hbytes, Function.update_self, Function.update_self]
        exact ⟨rfl, rfl⟩
      · exact habove j (by omega) (by omega)

theorem loadFirstStates_states {env : Env} {b : WtBlob} (hnone : s.nStates = 0)
    (h : loadFirstStates env b.weight b.slots s = (.ok (), s')) : StatesOf b s' := by
  rcases loadFirstStates_cases env b.weight b.slots with ⟨hslot, hload⟩ | ⟨slot, hslot, hload⟩
  · rw [hload] at h
    obtain ⟨-, rfl⟩ := Prod.mk.inj h
    have hsizes : stateSizes b = [] := by
      unfold stateSizes
      rw [hslot]
    refine ⟨by rw [hsizes, hnone]; rfl, fun i hi => ?_, fun i hi => ?_⟩
    · omega
    · omega
  · rw [hload] at h
    unfold loadStateSlot at h
    split at h
    · cases h
    · obtain ⟨n, t₁, hword, h₁⟩ := bind_eq_ok h
      obtain ⟨rfl, rfl⟩ := word_eq_ok hword
      split at h₁
      · cases h₁
      · obtain ⟨_, t₂, halloc, h₂⟩ := bind_eq_ok h₁
        obtain ⟨-, rfl⟩ := Prod.mk.inj h₂
        obtain ⟨-, hfill⟩ := allocStates_eq_ok halloc
        have hsizes : stateSizes b =
            (List.range (le32 b.weight slot.offset.toNat).toNat).map fun i =>
              le32 b.weight (slot.offset.toNat + 4 + i * 4) := by
          unfold stateSizes
          rw [hslot]
        constructor
        · rw [hsizes, List.length_map, List.length_range]
        · intro i hi
          have hlt : i < (le32 b.weight slot.offset.toNat).toNat := hi
          rw [hsizes, List.getElem?_map, List.getElem?_range hlt, Option.map_some]
          exact congrArg some (hfill i (Nat.zero_le i) (by omega)).2.symm
        · intro i hi
          have hlt : i < (le32 b.weight slot.offset.toNat).toNat := hi
          exact (hfill i (Nat.zero_le i) (by omega)).1

/-! ### One run -/

instance keeps_onExec {α γ : Type} (g : ExecState → γ) (m : Exec α) [Keeps g m] :
    Keeps (fun p => g p.exec) (onExec m) :=
  ⟨fun p => Keeps.keeps (m := m) p.exec⟩

instance keeps_onExec_flag {α : Type} (m : Exec α) : Keeps (·.statesLoaded) (onExec m) :=
  ⟨fun _ => rfl⟩

theorem keeps_afterOffsets (env : Env) (b : WtBlob) (first : UInt32) (k : ℕ) (m : UInt32) :
    Keeps (fun p => offsetTables p.exec)
      (wtExecLoadStates env b >>= fun _ => onExec (execOps env b k first m)) := by
  have hflag : Keeps (fun p => offsetTables p.exec)
      (update fun p => { p with statesLoaded := true } : Proc Unit) := keeps_update fun _ => rfl
  have hops : Keeps offsetTables (execOps env b k first m) := (keeps_execOps env b k first m).fst
  unfold wtExecLoadStates
  infer_instance

theorem runUntil_offsets {env : Env} {b : WtBlob} (h : runUntil env b first k p = (r, p')) :
    (p.exec.staticOffsets = true → offsetTables p'.exec = offsetTables p.exec) ∧
      (p.exec.staticOffsets = false → (∃ m, r = .ok m) ∨ p'.exec.staticOffsets = true →
        OffsetsOf b p'.exec) := by
  rcases hload : wtExecLoadTempoff env b p.exec with ⟨r₁, s₁⟩
  have hon : onExec (wtExecLoadTempoff env b) p = (r₁, { p with exec := s₁ }) := by
    unfold onExec
    rw [hload]
  change (onExec (wtExecLoadTempoff env b) >>= fun _ => wtExecLoadStates env b >>= fun _ =>
    onExec (execOps env b k first (engineRows p.exec))) p = (r, p') at h
  cases r₁ with
  | ok u =>
    rw [bind_apply_ok hon] at h
    have hrest := (keeps_afterOffsets env b first k (engineRows p.exec)).apply _ h
    constructor
    · intro hwarm
      rw [loadTempoff_warm hwarm] at hload
      obtain ⟨-, rfl⟩ := Prod.mk.inj hload
      exact hrest
    · intro hcold _
      exact (loadTempoff_offsets hcold hload).congr hrest
  | error e =>
    rw [bind_apply_error hon] at h
    obtain ⟨rfl, rfl⟩ := Prod.mk.inj h
    constructor
    · intro hwarm
      rw [loadTempoff_warm hwarm] at hload
      cases hload
    · intro hcold hend
      have hstop := KeepsOnStop.keeps (f := fun s : ExecState => s.staticOffsets)
        (m := wtExecLoadTempoff env b) p.exec e (by rw [hload])
      rw [hload] at hstop
      cases hend with
      | inl hok =>
        obtain ⟨m, hm⟩ := hok
        cases hm
      | inr hflag =>
        have hfalse := hstop.symm.trans hflag
        rw [hcold] at hfalse
        cases hfalse

theorem loadStates_loaded {env : Env} {b : WtBlob} (h : p.statesLoaded = true) :
    wtExecLoadStates env b p = (.ok (), p) := by
  show (if p.statesLoaded then pure () else _ : Proc Unit) p = _
  rw [h]
  rfl

theorem loadStates_fresh {env : Env} {b : WtBlob} {r : Checked String Unit}
    (hfresh : p.statesLoaded = false) (hnone : p.exec.nStates = 0)
    (h : wtExecLoadStates env b p = (r, p')) :
    r = .ok () ∧ p'.statesLoaded = true ∧ StatesOf b p'.exec ∨
      p'.statesLoaded = false ∧ p'.exec.nStates = 0 ∧ ∃ e, r = .error e := by
  change (if p.statesLoaded then pure () else _ : Proc Unit) p = _ at h
  rw [hfresh] at h
  rcases hload : loadFirstStates env b.weight b.slots p.exec with ⟨r₁, s₁⟩
  have hon : onExec (loadFirstStates env b.weight b.slots) p = (r₁, { p with exec := s₁ }) := by
    unfold onExec
    rw [hload]
  cases r₁ with
  | ok u =>
    obtain ⟨rfl, rfl⟩ := Prod.mk.inj ((bind_apply_ok hon).symm.trans h)
    exact .inl ⟨rfl, rfl, loadFirstStates_states hnone hload⟩
  | error e =>
    obtain ⟨rfl, rfl⟩ := Prod.mk.inj ((bind_apply_error hon).symm.trans h)
    have hstop := KeepsOnStop.keeps (f := fun s : ExecState => s.nStates)
      (m := loadFirstStates env b.weight b.slots) p.exec e (by rw [hload])
    rw [hload] at hstop
    exact .inr ⟨hfresh, hstop.trans hnone, e, rfl⟩

theorem execOps_states {env : Env} {b : WtBlob} {m : UInt32}
    (h : onExec (execOps env b k first m) p = (r, p')) :
    p'.statesLoaded = p.statesLoaded ∧ stateTables p'.exec = stateTables p.exec := by
  have hops : Keeps stateTables (execOps env b k first m) := (keeps_execOps env b k first m).snd
  constructor
  · exact (keeps_onExec_flag (execOps env b k first m)).apply _ h
  · exact (keeps_onExec stateTables (execOps env b k first m)).apply _ h

theorem runUntil_states {env : Env} {b : WtBlob} (h : runUntil env b first k p = (r, p')) :
    (p.statesLoaded = true →
        p'.statesLoaded = true ∧ stateTables p'.exec = stateTables p.exec) ∧
      (p.statesLoaded = false → p.exec.nStates = 0 →
        p'.statesLoaded = true ∧ StatesOf b p'.exec ∨
          p'.statesLoaded = false ∧ p'.exec.nStates = 0 ∧ ∃ e, r = .error e) := by
  rcases hload : onExec (wtExecLoadTempoff env b) p with ⟨r₁, p₁⟩
  have hflag : p₁.statesLoaded = p.statesLoaded :=
    (keeps_onExec_flag (wtExecLoadTempoff env b)).apply _ hload
  have hstates : stateTables p₁.exec = stateTables p.exec :=
    (keeps_onExec stateTables (wtExecLoadTempoff env b)).apply _ hload
  change (onExec (wtExecLoadTempoff env b) >>= fun _ => wtExecLoadStates env b >>= fun _ =>
    onExec (execOps env b k first (engineRows p.exec))) p = (r, p') at h
  cases r₁ with
  | error e =>
    rw [bind_apply_error hload] at h
    obtain ⟨rfl, rfl⟩ := Prod.mk.inj h
    constructor
    · intro hl
      exact ⟨hflag.trans hl, hstates⟩
    · intro hfresh hnone
      exact .inr ⟨hflag.trans hfresh, (Prod.mk.inj hstates).1.trans hnone, e, rfl⟩
  | ok u =>
    rw [bind_apply_ok hload] at h
    constructor
    · intro hl
      rw [bind_apply_ok (loadStates_loaded (hflag.trans hl))] at h
      obtain ⟨hf, hs⟩ := execOps_states h
      exact ⟨hf.trans (hflag.trans hl), hs.trans hstates⟩
    · intro hfresh hnone
      rcases hst : wtExecLoadStates env b p₁ with ⟨r₂, p₂⟩
      rcases loadStates_fresh (hflag.trans hfresh) ((Prod.mk.inj hstates).1.trans hnone) hst with
        ⟨rfl, hf₂, hs₂⟩ | ⟨hf₂, hn₂, e, rfl⟩
      · rw [bind_apply_ok hst] at h
        obtain ⟨hf, hs⟩ := execOps_states h
        exact .inl ⟨hf.trans hf₂, hs₂.congr hs⟩
      · rw [bind_apply_error hst] at h
        obtain ⟨rfl, rfl⟩ := Prod.mk.inj h
        exact .inr ⟨hf₂, hn₂, e, rfl⟩

/-! ### All calls of a process -/

def ExecCall.blob : ExecCall → Option WtBlob
  | .run _ b _ _ => some b
  | _ => none

/-- The blob whose run raised a flag that has been up since. -/
def raisedBy (flag : Process → Bool) (p : Process) (o : Option WtBlob) :
    List ExecCall → Option WtBlob
  | [] => o
  | c :: cs => raisedBy flag (c.apply p)
      (if flag (c.apply p) then if flag p then o else ExecCall.blob c else none) cs

/-- The blob that brought the offsets in force: the first one since the start or the last
shutdown whose table was accepted. -/
def offsetsOwner (calls : List ExecCall) : Option WtBlob :=
  raisedBy (·.exec.staticOffsets) Process.new none calls

/-- The blob that brought the states in force: the first one of the process that got past the
loader. -/
def statesOwner (calls : List ExecCall) : Option WtBlob :=
  raisedBy (·.statesLoaded) Process.new none calls

/-- While the flag is up, `P` holds for its blob. -/
structure Raised (flag : Process → Bool) (P : WtBlob → Process → Prop) (p : Process)
    (o : Option WtBlob) : Prop where
  up : flag p = true → ∃ b, o = some b ∧ P b p
  down : flag p = false → o = none

theorem raised_of_steps {flag : Process → Bool} {J : Process → Prop}
    {P : WtBlob → Process → Prop} (hJ : ∀ p (c : ExecCall), J p → J (c.apply p))
    (hkeep : ∀ p (c : ExecCall) b, J p → flag p = true → flag (c.apply p) = true → P b p →
      P b (c.apply p))
    (hraise : ∀ p (c : ExecCall), J p → flag p = false → flag (c.apply p) = true →
      ∃ b, ExecCall.blob c = some b ∧ P b (c.apply p))
    (calls : List ExecCall) {p : Process} {o : Option WtBlob} (hp : J p) (ho : Raised flag P p o) :
    J (calls.foldl ExecCall.apply p) ∧
      Raised flag P (calls.foldl ExecCall.apply p) (raisedBy flag p o calls) := by
  induction calls generalizing p o with
  | nil => exact ⟨hp, ho⟩
  | cons c cs ih =>
    rw [List.foldl_cons]
    unfold raisedBy
    apply ih (hJ p c hp)
    constructor
    · intro hup
      rw [if_pos hup]
      by_cases hbefore : flag p = true
      · obtain ⟨b, hb, hP⟩ := ho.up hbefore
        rw [if_pos hbefore]
        exact ⟨b, hb, hkeep p c b hp hbefore hup hP⟩
      · rw [if_neg hbefore]
        exact hraise p c hp (Bool.eq_false_of_not_eq_true hbefore) hup
    · intro hdown
      rw [hdown]
      rfl

theorem apply_run_cases (env : Env) (b : WtBlob) (first count : UInt32) (p : Process) :
    (ExecCall.run env b first count).apply p = p ∨
      ∃ r, runUntil env b first count.toNat p =
        (r, (ExecCall.run env b first count).apply p) := by
  have happly : (ExecCall.run env b first count).apply p =
      (wtExecRunRange env b first count p).2 := rfl
  rw [happly]
  by_cases hoob : b.ops.length < (first + count).toNat
  · left
    unfold wtExecRunRange
    rw [if_pos hoob]
    rfl
  · right
    unfold wtExecRunRange
    rw [if_neg hoob]
    exact ⟨_, rfl⟩

theorem raised_new {flag : Process → Bool} (P : WtBlob → Process → Prop)
    (h : flag Process.new = false) : Raised flag P Process.new none := by
  constructor
  · intro hup
    rw [h] at hup
    cases hup
  · intro _
    rfl

theorem offsets_raised (calls : List ExecCall) :
    Raised (·.exec.staticOffsets) (fun b p => OffsetsOf b p.exec) (history calls)
      (offsetsOwner calls) := by
  have hstep := @raised_of_steps (fun p => p.exec.staticOffsets) (fun _ => True)
    (fun b p => OffsetsOf b p.exec) (fun _ _ _ => trivial)
  refine (hstep ?_ ?_ calls trivial (raised_new _ rfl)).2
  · intro p c b _ hbefore hafter hP
    cases c with
    | run env b' first count =>
      rcases apply_run_cases env b' first count p with heq | ⟨r, hrun⟩
      · rw [heq]
        exact hP
      · exact hP.congr ((runUntil_offsets hrun).1 hbefore)
    | shutdown => cases hafter
    | stateReset => exact hP.congr rfl
  · intro p c _ hbefore hafter
    cases c with
    | run env b first count =>
      rcases apply_run_cases env b first count p with heq | ⟨r, hrun⟩
      · rw [heq, hbefore] at hafter
        cases hafter
      · exact ⟨b, rfl, (runUntil_offsets hrun).2 hbefore (.inr hafter)⟩
    | shutdown => cases hafter
    | stateReset =>
      have hsame : p.exec.staticOffsets = true := hafter
      rw [hbefore] at hsame
      cases hsame

theorem states_raised (calls : List ExecCall) :
    ((history calls).statesLoaded = false → (history calls).exec.nStates = 0) ∧
      Raised (·.statesLoaded) (fun b p => StatesOf b p.exec) (history calls)
        (statesOwner calls) := by
  have hstep := @raised_of_steps (fun p => p.statesLoaded)
    (fun p => p.statesLoaded = false → p.exec.nStates = 0) (fun b p => StatesOf b p.exec)
  refine hstep ?_ ?_ ?_ calls (fun _ => rfl) (raised_new _ rfl)
  · intro p c hJ hdown
    cases c with
    | run env b first count =>
      rcases apply_run_cases env b first count p with heq | ⟨r, hrun⟩
      · rw [heq] at hdown ⊢
        exact hJ hdown
      · cases hbefore : p.statesLoaded with
        | true =>
          rw [((runUntil_states hrun).1 hbefore).1] at hdown
          cases hdown
        | false =>
          rcases (runUntil_states hrun).2 hbefore (hJ hbefore) with ⟨hup, -⟩ | ⟨-, hnone, -⟩
          · rw [hup] at hdown
            cases hdown
          · exact hnone
    | shutdown => exact hJ hdown
    | stateReset => exact hJ hdown
  · intro p c b _ hbefore hafter hP
    cases c with
    | run env b' first count =>
      rcases apply_run_cases env b' first count p with heq | ⟨r, hrun⟩
      · rw [heq]
        exact hP
      · exact hP.congr ((runUntil_states hrun).1 hbefore).2
    | shutdown => exact hP.congr rfl
    | stateReset => exact hP.congr rfl
  · intro p c hJ hbefore hafter
    cases c with
    | run env b first count =>
      rcases apply_run_cases env b first count p with heq | ⟨r, hrun⟩
      · rw [heq, hbefore] at hafter
        cases hafter
      · rcases (runUntil_states hrun).2 hbefore (hJ hbefore) with ⟨-, hP⟩ | ⟨hdown, -⟩
        · exact ⟨b, rfl, hP⟩
        · rw [hafter] at hdown
          cases hdown
    | shutdown =>
      have hsame : p.statesLoaded = true := hafter
      rw [hbefore] at hsame
      cases hsame
    | stateReset =>
      have hsame : p.statesLoaded = true := hafter
      rw [hbefore] at hsame
      cases hsame

/-- Whenever a run is about to start an op or is done, the offsets in force are those of the
first blob that brought some since the last shutdown, and the states those of the first blob of
the process; its own if there is no such blob. -/
theorem tables_in_force (calls : List ExecCall) (env : Env) (b : WtBlob) (first : UInt32) (k : ℕ)
    (m : UInt32) (p : Process) (h : runUntil env b first k (history calls) = (.ok m, p)) :
    OffsetsOf ((offsetsOwner calls).getD b) p.exec ∧
      StatesOf ((statesOwner calls).getD b) p.exec := by
  have hoff := offsets_raised calls
  obtain ⟨hnone, hst⟩ := states_raised calls
  constructor
  · cases hflag : (history calls).exec.staticOffsets with
    | true =>
      obtain ⟨b₀, hb₀, hP⟩ := hoff.up hflag
      rw [hb₀]
      exact hP.congr ((runUntil_offsets h).1 hflag)
    | false =>
      rw [hoff.down hflag]
      exact (runUntil_offsets h).2 hflag (.inl ⟨m, rfl⟩)
  · cases hflag : (history calls).statesLoaded with
    | true =>
      obtain ⟨b₀, hb₀, hP⟩ := hst.up hflag
      rw [hb₀]
      exact hP.congr ((runUntil_states h).1 hflag).2
    | false =>
      rw [hst.down hflag]
      rcases (runUntil_states h).2 hflag (hnone hflag) with ⟨-, hP⟩ | ⟨-, -, e, he⟩
      · exact hP
      · cases he

/-! ### Two blobs -/

/-- An environment that grants every request. -/
def plainEnv : Env where
  memalign := fun _ _ => some 4096
  wtcacheOpen := fun _ => true
  wtcacheLayout := fun _ => (some 0, 0, 0)
  w4Carve := fun _ => true
  kernelOk := fun _ => true
  weightBase := 0
  extIn := none
  extWgt := none

theorem arity_nop : ([] : List UInt32).length = arityOf .nop := rfl

/-- A blob of one empty op that keeps temp 0 at `off` in a static area of 128 bytes, with `n`
states of 64 bytes. -/
def tableBlob (off n : UInt8) : WtBlob where
  ver := 1
  slots := [⟨24, 6, 0, wtSlotTempoff⟩, ⟨12, 3, 128, wtSlotState⟩]
  ops := [⟨.nop, [], arity_nop⟩]
  weightOff := 128
  weight := ([128, 0, 1, 0, off, 64] ++ List.replicate 26 0 ++ [n, 64, 64]).flatMap
    fun x => [x, 0, 0, 0]

theorem apply_of_toOption {m : Proc UInt32} {x : UInt32} (h : (m p).1.toOption = some x) :
    m p = (.ok x, (m p).2) := by
  rcases hm : m p with ⟨r, p'⟩
  rw [hm] at h
  cases r with
  | ok y => rw [Option.some.inj h]
  | error e => cases h

/-- A run of the first blob, and then a shutdown or not. -/
def firstRun : List ExecCall := [.run plainEnv (tableBlob 0 1) 0 1]

def firstRunShutdown : List ExecCall := [.run plainEnv (tableBlob 0 1) 0 1, .shutdown]

theorem secondRun_ok : runUntil plainEnv (tableBlob 64 2) 0 1 (history firstRun) =
    (.ok 0, (runUntil plainEnv (tableBlob 64 2) 0 1 (history firstRun)).2) :=
  apply_of_toOption (by decide +kernel)

theorem secondRun_after_shutdown_ok :
    runUntil plainEnv (tableBlob 64 2) 0 1 (history firstRunShutdown) =
      (.ok 0, (runUntil plainEnv (tableBlob 64 2) 0 1 (history firstRunShutdown)).2) :=
  apply_of_toOption (by decide +kernel)

theorem owners_firstRun : offsetsOwner firstRun = some (tableBlob 0 1) ∧
    statesOwner firstRun = some (tableBlob 0 1) := by
  constructor <;> decide +kernel

/-- The hypothesis holds of a second blob, and what is in force is the table of the first. -/
theorem secondBlob_in_force :
    ∃ p, runUntil plainEnv (tableBlob 64 2) 0 1 (history firstRun) = (.ok 0, p) ∧
      OffsetsOf (tableBlob 0 1) p.exec ∧ StatesOf (tableBlob 0 1) p.exec := by
  have hforce := tables_in_force firstRun plainEnv (tableBlob 64 2) 0 1 0 _ secondRun_ok
  rw [owners_firstRun.1, owners_firstRun.2] at hforce
  exact ⟨_, secondRun_ok, hforce⟩

/-- The offsets of the first blob stay in force for the second, and its states even after a
shutdown. -/
theorem secondBlob_not_own :
    (¬ ∀ (calls : List ExecCall) (env : Env) (b : WtBlob) (first : UInt32) (k : ℕ) (m : UInt32)
      (p : Process), runUntil env b first k (history calls) = (.ok m, p) → OffsetsOf b p.exec) ∧
    ¬ ∀ (calls : List ExecCall) (env : Env) (b : WtBlob) (first : UInt32) (k : ℕ) (m : UInt32)
      (p : Process), runUntil env b first k (history calls) = (.ok m, p) → StatesOf b p.exec := by
  constructor
  · intro h
    have hoff := (h firstRun plainEnv (tableBlob 64 2) 0 1 0 _ secondRun_ok).ddr 0
    exact absurd hoff (by decide +kernel)
  · intro h
    have hcount := (h firstRunShutdown plainEnv (tableBlob 64 2) 0 1 0 _
      secondRun_after_shutdown_ok).count
    exact absurd hcount (by decide +kernel)

end Gehtp.Analysis.ProcessTables
