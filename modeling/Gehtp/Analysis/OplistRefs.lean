import Gehtp.Model.OplistHandlers
import Gehtp.Analysis.OplistParseBounds

/-!
# Which handlers can leave the tables

The parser checks the flagged references of the positions that `arg_is_slot`
lists; bare numbers are not checked, because they name temps. Every handler but
four goes through `slot_ptr`, `ref_ptr` and `temp_get`, which check the index they
are given, and never leaves a table. The W4 matmul, the crouton RMSNorm, the SiLU
and the single-token convolution index a table with an argument of their own.
`OpRefsOk` says on the blob and the op alone when these four stay inside, and an
op never faults, from any executor state and in any environment, exactly when it
holds. The executor's state is a global that outlives a blob, so every state is
one that an op can meet.
-/

set_option autoImplicit false

namespace Gehtp.Analysis.OplistRefs

open Lib Lib.Machine Model.OplistParse Model.OplistExec Model.OplistHandlers

/-- No value is promised; only that nothing faults. -/
abbrev NoFault {α : Type} (m : Exec α) : Prop := Ensures m fun _ => True

variable {env : Env} {b : WtBlob} {op : WtOp}

/-! ### Tables and references -/

theorem noFault_read {α : Type} (f : ExecState → α) : NoFault (read f : Exec α) :=
  ensures_read f fun _ => trivial

theorem noFault_ask {α : Type} (f : ℕ → α) : NoFault (ask f) := by
  unfold ask
  refine ensures_bind (noFault_read _) fun _ _ => ?_
  exact ensures_bind (ensures_update _) fun _ _ => ensures_pure trivial

theorem noFault_guard (c : Prop) [Decidable c] (e : String) : NoFault (guard c e : Exec Unit) :=
  (ensures_guard c e).mono fun _ _ => trivial

theorem noFault_tempEntry {α : Type} (f : ExecState → ℕ → α) {i : ℕ} (h : i < maxTemps) :
    NoFault (tempEntry f i) :=
  ensures_bind (ensures_inTable h) fun _ _ => noFault_read _

theorem noFault_slotAt {i : ℕ} (h : i < b.slots.length) : NoFault (slotAt b i) := by
  unfold slotAt
  rw [List.getElem?_eq_getElem h]
  exact ensures_pure trivial

theorem ensures_slotPtr (s : ℕ) :
    Ensures (slotPtr env b s) fun p => p.isSome = true → s < b.slots.length := by
  unfold slotPtr
  refine ensures_ite (fun _ => ensures_pure (by simp)) fun h => ?_
  refine ensures_bind (noFault_slotAt (not_le.mp h)) fun _ _ => ensures_pure fun _ => ?_
  exact not_le.mp h

theorem noFault_slotPtr (s : ℕ) : NoFault (slotPtr env b s) :=
  (ensures_slotPtr s).mono fun _ _ => trivial

/-- The reference can be resolved at all: it names a slot, or its index is inside
the table that its flags select. -/
def CanResolve (r : UInt32) : Prop :=
  if r &&& 0x8000 ≠ 0 then True
  else if r &&& 0xE000 = 0x6000 then (r &&& 0x1FFF).toNat < wtMaxStates
  else if r &&& 0x4000 ≠ 0 then (r &&& 0x3FFF).toNat < maxTemps
  else r.toNat < maxTemps

theorem ensures_refPtr (r : UInt32) :
    Ensures (refPtr env b r) fun p => p.isSome = true → CanResolve r := by
  unfold refPtr CanResolve
  split
  · exact (noFault_slotPtr _).mono fun _ _ _ => trivial
  · split
    · refine ensures_read _ fun st hsome => ?_
      have hle := st.nStates_le
      by_contra hge
      rw [if_neg (by omega)] at hsome
      simp at hsome
    · split
      · refine ensures_ite (fun ht => ?_) fun _ => ensures_pure (by simp)
        exact ensures_bind (noFault_tempEntry _ ht) fun _ _ => ensures_read _ fun _ _ => ht
      · refine ensures_ite (fun ht => ?_) fun _ => ensures_pure (by simp)
        exact (noFault_tempEntry _ ht).mono fun _ _ _ => ht

theorem noFault_refPtr (r : UInt32) : NoFault (refPtr env b r) :=
  (ensures_refPtr r).mono fun _ _ => trivial

theorem noFault_refElemCount (r : UInt32) : NoFault (refElemCount b r) := by
  unfold refElemCount
  refine ensures_ite (fun _ => ?_) fun _ => ?_
  · refine ensures_ite (fun h => ?_) fun _ => ensures_pure trivial
    exact ensures_bind (noFault_slotAt h) fun _ _ => ensures_pure trivial
  · refine ensures_ite (fun _ => ensures_pure trivial) fun _ => ?_
    refine ensures_ite (fun h => ?_) fun _ => ensures_pure trivial
    exact ensures_bind (noFault_tempEntry _ h) fun _ _ => ensures_pure trivial

/-! ### Allocation of temps -/

theorem noFault_vtcmPoolEnsure : NoFault (vtcmPoolEnsure env) := by
  unfold vtcmPoolEnsure
  refine ensures_bind (noFault_read _) fun pool _ => ?_
  cases pool with
  | some base => exact ensures_pure trivial
  | none =>
    refine ensures_bind (Q := fun _ => True) ?_ fun ok _ => ?_
    · unfold wtcacheEnsure
      refine ensures_bind (noFault_read _) fun ready _ => ?_
      refine ensures_ite (fun _ => ensures_pure trivial) fun _ => ?_
      refine ensures_bind (noFault_ask _) fun opened _ => ?_
      refine ensures_ite (fun _ => ?_) fun _ => ensures_pure trivial
      exact ensures_bind (ensures_update _) fun _ _ => ensures_pure trivial
    · refine ensures_ite (fun _ => ?_) fun _ => ensures_pure trivial
      unfold vtcmPoolLay
      refine ensures_bind (noFault_ask _) fun lay _ => ?_
      refine ensures_bind (noFault_read _) fun size _ => ?_
      rcases lay with ⟨vb, vs, pc⟩
      cases vb with
      | none => exact ensures_pure trivial
      | some vb =>
        refine ensures_ite (fun _ => ensures_pure trivial) fun _ => ?_
        refine ensures_ite (fun _ => ensures_pure trivial) fun _ => ?_
        exact ensures_bind (ensures_update _) fun _ _ => ensures_pure trivial

theorem noFault_placeTemp {id : ℕ} (h : id < maxTemps) (p : ℕ) (bytes : UInt32) :
    NoFault (placeTemp id p bytes) := by
  unfold placeTemp
  refine ensures_bind (ensures_inTable h) fun _ _ => ?_
  exact ensures_bind (ensures_update _) fun _ _ => ensures_pure trivial

theorem noFault_growPool (aligned : UInt32) : NoFault (growPool env aligned) := by
  unfold growPool
  refine ensures_bind (noFault_read _) fun st _ => ?_
  refine ensures_ite (fun _ => ?_) fun _ => ensures_pure trivial
  refine ensures_ite (fun _ => ensures_pure trivial) fun _ => ?_
  split
  · exact ensures_hang
  · refine ensures_bind (noFault_ask _) fun np _ => ?_
    cases np with
    | none => exact ensures_pure trivial
    | some p => exact ensures_bind (ensures_update _) fun _ _ => ensures_pure trivial

theorem noFault_tempBump {id : ℕ} (h : id < maxTemps) (bytes : UInt32) :
    NoFault (tempBump env id bytes) := by
  unfold tempBump
  refine ensures_bind (noFault_tempEntry _ h) fun cur _ => ?_
  refine ensures_bind (noFault_tempEntry _ h) fun n _ => ?_
  refine ensures_ite (fun _ => ?_) fun _ => ?_
  · refine ensures_bind (noFault_growPool _) fun ok _ => ?_
    refine ensures_ite (fun _ => ?_) fun _ => ensures_pure trivial
    exact ensures_bind (ensures_update _) fun _ _ => noFault_tempEntry _ h
  · exact ensures_bind (ensures_update _) fun _ _ => ensures_pure trivial

theorem ensures_tempGet (id bytes : UInt32) :
    Ensures (tempGet env id bytes) fun p => p.isSome = true → id.toNat < maxTemps := by
  unfold tempGet
  refine ensures_ite (fun _ => ensures_pure (by simp)) fun hid => ?_
  have h : id.toNat < maxTemps := not_le.mp hid
  refine Ensures.mono (Q := fun _ => True) ?_ fun _ _ _ => h
  refine ensures_bind (noFault_tempEntry _ h) fun off _ => ?_
  refine ensures_ite (fun _ => ?_) fun _ => ?_
  · unfold tempGetVtcm
    refine ensures_bind (noFault_read _) fun size _ => ?_
    refine ensures_ite (fun _ => ensures_pure trivial) fun _ => ?_
    refine ensures_bind noFault_vtcmPoolEnsure fun base _ => ?_
    cases base with
    | none => exact ensures_pure trivial
    | some p => exact noFault_placeTemp h _ _
  · unfold tempGetDdr
    refine ensures_bind (noFault_read _) fun st _ => ?_
    split
    · refine ensures_bind (noFault_tempEntry _ h) fun soff _ => ?_
      refine ensures_ite (fun _ => ?_) fun _ => noFault_tempBump h bytes
      refine ensures_bind (noFault_read _) fun used _ => ?_
      exact ensures_ite (fun _ => ensures_pure trivial) fun _ => noFault_placeTemp h _ _
    · exact noFault_tempBump h bytes

theorem noFault_tempGet (id bytes : UInt32) : NoFault (tempGet env id bytes) :=
  (ensures_tempGet id bytes).mono fun _ _ => trivial

/-! ### The handlers that stay inside -/

theorem noFault_kernel (msg : String) : NoFault (kernel env msg) :=
  ensures_bind (noFault_ask _) fun _ _ => noFault_guard _ _

theorem noFault_refsThenTemp {refs : List (Exec (Option ℕ))} (h : ∀ m ∈ refs, NoFault m)
    (out bytes : UInt32) (msg : String) : NoFault (refsThenTemp env refs out bytes msg) := by
  unfold refsThenTemp
  refine ensures_bind (ensures_collect _ _ h) fun _ _ => ?_
  exact ensures_bind (noFault_tempGet _ _) fun _ _ => noFault_guard _ _

theorem noFault_refsBeforeTemp {refs : List (Exec (Option ℕ))} (h : ∀ m ∈ refs, NoFault m)
    (refMsg : String) (out bytes : UInt32) (outMsg : String) :
    NoFault (refsBeforeTemp env refs refMsg out bytes outMsg) := by
  unfold refsBeforeTemp
  refine ensures_bind (ensures_collect _ _ h) fun _ _ => ?_
  refine ensures_bind (noFault_guard _ _) fun _ _ => ?_
  exact ensures_bind (noFault_tempGet _ _) fun _ _ => noFault_guard _ _

theorem noFault_poolRange (slotArg off bytes : UInt32) (msg : String) :
    NoFault (poolRange env b slotArg off bytes msg) := by
  unfold poolRange
  refine ensures_bind (ensures_slotPtr _) fun pool hpool => ?_
  refine ensures_bind (ensures_guard _ _) fun _ hsome => ?_
  exact ensures_bind (noFault_slotAt (hpool hsome)) fun _ _ => noFault_guard _ _

theorem noFault_poolCopy (p : Option ℕ) (bytes : UInt32) : NoFault (poolCopy env p bytes) := by
  unfold poolCopy
  refine ensures_bind (noFault_read _) fun _ _ => ?_
  exact ensures_ite (fun _ => noFault_kernel _) fun _ => ensures_pure trivial

theorem noFault_execConv2d : NoFault (execConv2d env b op) := by
  unfold execConv2d
  refine ensures_bind (noFault_refPtr _) fun _ _ => ?_
  refine ensures_bind (ensures_slotPtr _) fun wp hw => ?_
  refine ensures_bind (ensures_slotPtr _) fun bp hb => ?_
  refine ensures_bind (ensures_guard _ _) fun _ hsome => ?_
  refine ensures_bind (noFault_slotAt (hw hsome.2.1)) fun _ _ => ?_
  refine ensures_bind (noFault_slotAt (hb hsome.2.2)) fun _ _ => ?_
  refine ensures_bind (noFault_guard _ _) fun _ _ => ?_
  exact ensures_bind (noFault_tempGet _ _) fun _ _ => noFault_guard _ _

theorem noFault_execSpill : NoFault (execSpill env b op) := by
  unfold execSpill
  refine ensures_bind (noFault_refPtr _) fun _ _ => ?_
  refine ensures_bind (noFault_guard _ _) fun _ _ => ?_
  exact ensures_bind (noFault_poolRange _ _ _ _) fun _ _ => noFault_poolCopy _ _

theorem noFault_execFill : NoFault (execFill env b op) := by
  unfold execFill
  refine ensures_bind (noFault_poolRange _ _ _ _) fun _ _ => ?_
  refine ensures_bind (Q := fun _ => True) ?_ fun dst _ => ?_
  · exact ensures_ite (fun _ => noFault_slotPtr _) fun _ => noFault_tempGet _ _
  · exact ensures_bind (noFault_guard _ _) fun _ _ => noFault_poolCopy _ _

theorem noFault_dmaRefResolve (r off bytes : UInt32) (isDst : Bool) :
    NoFault (dmaRefResolve env b r off bytes isDst) := by
  unfold dmaRefResolve
  refine ensures_ite (fun _ => noFault_read _) fun _ => ?_
  refine ensures_ite (fun _ => ?_) fun _ => ?_
  · unfold dmaSlot
    refine ensures_bind (noFault_slotPtr _) fun sp _ => ?_
    refine ensures_ite (fun h => ?_) fun _ => ensures_pure trivial
    exact ensures_bind (noFault_slotAt h.2) fun _ _ => noFault_read _
  · refine ensures_ite (fun _ => ?_) fun _ => ?_
    · unfold dmaVtcm
      refine ensures_ite (fun h => ?_) fun _ => ensures_pure trivial
      refine ensures_bind (noFault_tempEntry _ h) fun base _ => ?_
      refine ensures_ite (fun _ => ensures_pure trivial) fun _ => ?_
      refine ensures_bind noFault_vtcmPoolEnsure fun _ _ => ?_
      exact ensures_bind (noFault_read _) fun _ _ => ensures_pure trivial
    · unfold dmaTemp
      refine ensures_ite (fun _ => ensures_pure trivial) fun h => ?_
      refine ensures_ite (fun _ => ?_) fun _ => ?_
      · exact ensures_bind (noFault_tempGet _ _) fun _ _ => noFault_read _
      · refine ensures_bind (noFault_tempEntry _ (not_le.mp h)) fun _ _ => ?_
        exact ensures_bind (noFault_tempEntry _ (not_le.mp h)) fun _ _ => noFault_read _

theorem noFault_dmaFence (f : UInt32) (msg : String) : NoFault (dmaFence env f msg) :=
  ensures_ite (fun _ => ensures_pure trivial) fun _ => noFault_kernel _

theorem noFault_execDma : NoFault (execDma env b op) := by
  unfold execDma
  refine ensures_ite (fun _ => ensures_pure trivial) fun _ => ?_
  refine ensures_bind (noFault_guard _ _) fun _ _ => ?_
  refine ensures_bind (noFault_dmaRefResolve _ _ _ _) fun src _ => ?_
  refine ensures_bind (noFault_dmaRefResolve _ _ _ _) fun dst _ => ?_
  refine ensures_bind (noFault_guard _ _) fun _ _ => ?_
  refine ensures_bind (noFault_dmaFence _ _) fun _ _ => ?_
  refine ensures_bind (Q := fun _ => True) ?_ fun _ _ => noFault_dmaFence _ _
  unfold dmaTransfer
  refine ensures_ite (fun _ => ensures_pure trivial) fun _ => ?_
  exact ensures_bind (noFault_kernel _) fun _ _ => noFault_kernel _

theorem noFault_execSelect : NoFault (execSelect env b op) := by
  unfold execSelect
  refine ensures_bind (noFault_refPtr _) fun _ _ => ?_
  refine ensures_bind (noFault_refPtr _) fun _ _ => ?_
  refine ensures_bind (noFault_refPtr _) fun _ _ => ?_
  refine ensures_bind (noFault_refElemCount _) fun _ _ => ?_
  refine ensures_bind (noFault_refElemCount _) fun _ _ => ?_
  refine ensures_bind (noFault_refElemCount _) fun _ _ => ?_
  exact ensures_bind (noFault_tempGet _ _) fun _ _ => noFault_guard _ _

theorem noFault_execConcat : NoFault (execConcat env b op) := by
  unfold execConcat
  refine ensures_bind (noFault_guard _ _) fun _ _ => ?_
  refine ensures_bind (noFault_tempGet _ _) fun _ _ => ?_
  refine ensures_bind (noFault_guard _ _) fun _ _ => ?_
  refine ensures_bind (ensures_collect _ _ fun k _ => ?_) fun _ _ => ensures_pure trivial
  exact ensures_bind (noFault_refPtr _) fun _ _ => noFault_guard _ _

theorem noFault_execSplit : NoFault (execSplit env b op) := by
  unfold execSplit
  refine ensures_bind (noFault_refPtr _) fun _ _ => ?_
  refine ensures_bind (noFault_guard _ _) fun _ _ => ?_
  refine ensures_bind (noFault_guard _ _) fun _ _ => ?_
  refine ensures_bind (Q := fun _ => True) ?_ fun _ _ => ?_
  · refine ensures_ite (fun h => ?_) fun _ => ensures_pure trivial
    exact ensures_bind (noFault_tempEntry _ h.2) fun _ _ => ensures_pure trivial
  · refine ensures_bind (noFault_guard _ _) fun _ _ => ?_
    refine ensures_ite (fun _ => ?_) fun _ => ensures_pure trivial
    exact ensures_bind (noFault_tempGet _ _) fun _ _ => noFault_guard _ _

theorem noFault_execReduce : NoFault (execReduce env b op) := by
  unfold execReduce
  refine ensures_bind (noFault_refPtr _) fun _ _ => ?_
  refine ensures_bind (noFault_guard _ _) fun _ _ => ?_
  refine ensures_bind (noFault_guard _ _) fun _ _ => ?_
  refine ensures_bind (noFault_guard _ _) fun _ _ => ?_
  exact ensures_bind (noFault_tempGet _ _) fun _ _ => noFault_guard _ _

theorem noFault_execRmsnorm2 : NoFault (execRmsnorm2 env b op) := by
  unfold execRmsnorm2
  refine ensures_bind (noFault_refPtr _) fun _ _ => ?_
  refine ensures_bind (ensures_slotPtr _) fun wv hw => ?_
  refine ensures_bind (noFault_slotPtr _) fun _ _ => ?_
  refine ensures_bind (noFault_tempGet _ _) fun _ _ => ?_
  refine ensures_bind (ensures_guard _ _) fun _ hsome => ?_
  exact ensures_bind (noFault_slotAt (hw hsome.2.1)) fun _ _ => noFault_guard _ _

theorem noFault_execBroadcast : NoFault (execBroadcast env b op) := by
  unfold execBroadcast
  refine ensures_bind (noFault_refPtr _) fun _ _ => ?_
  exact ensures_bind (noFault_tempGet _ _) fun _ _ => noFault_guard _ _

theorem noFault_execTransposeGen : NoFault (execTransposeGen env b op) := by
  unfold execTransposeGen
  refine ensures_bind (noFault_refPtr _) fun _ _ => ?_
  refine ensures_bind (noFault_guard _ _) fun _ _ => ?_
  exact ensures_bind (noFault_tempGet _ _) fun _ _ => noFault_guard _ _

theorem noFault_stateKvc (stateRef kvElems : UInt32) :
    NoFault (stateKvc env stateRef kvElems) := by
  unfold stateKvc
  refine ensures_bind (noFault_guard _ _) fun _ _ => ?_
  refine ensures_bind (noFault_read _) fun st _ => ?_
  refine ensures_bind (noFault_guard _ _) fun _ _ => ?_
  refine ensures_ite (fun _ => ?_) fun _ => ?_
  · exact ensures_bind (noFault_guard _ _) fun _ _ => ensures_pure trivial
  · refine ensures_bind (Q := fun _ => True) ?_ fun _ _ => ensures_pure trivial
    unfold kvcInit
    refine ensures_bind (noFault_read _) fun _ _ => ?_
    refine ensures_bind (noFault_guard _ _) fun _ _ => ?_
    refine ensures_bind (noFault_ask _) fun _ _ => ?_
    refine ensures_bind (noFault_guard _ _) fun _ _ => ?_
    exact ensures_bind (noFault_kernel _) fun _ _ => ensures_update _

theorem noFault_execKvAppend : NoFault (execKvAppend env b op) := by
  unfold execKvAppend
  refine ensures_bind (noFault_refPtr _) fun _ _ => ?_
  refine ensures_bind (noFault_refPtr _) fun _ _ => ?_
  refine ensures_bind (noFault_refElemCount _) fun _ _ => ?_
  refine ensures_bind (noFault_refElemCount _) fun _ _ => ?_
  refine ensures_bind (noFault_guard _ _) fun _ _ => ?_
  refine ensures_bind (noFault_stateKvc _ _) fun i _ => ?_
  refine ensures_bind (Q := fun _ => True) ?_ fun _ _ => noFault_kernel _
  unfold appendPos
  refine ensures_ite (fun _ => ?_) fun _ => ensures_pure trivial
  refine ensures_bind (noFault_read _) fun _ _ => ?_
  exact ensures_bind (noFault_guard _ _) fun _ _ => ensures_update _

theorem noFault_gatherFace (t bytes : UInt32) : NoFault (gatherFace env t bytes) := by
  unfold gatherFace
  refine ensures_ite (fun _ => ensures_pure trivial) fun _ => ?_
  exact ensures_bind (noFault_tempGet _ _) fun _ _ => noFault_guard _ _

theorem noFault_execKvGather : NoFault (execKvGather env op) := by
  unfold execKvGather
  refine ensures_bind (noFault_guard _ _) fun _ _ => ?_
  refine ensures_bind (noFault_stateKvc _ _) fun i _ => ?_
  refine ensures_bind (Q := fun _ => True) ?_ fun _ _ => ?_
  · refine ensures_ite (fun _ => ?_) fun _ => ensures_pure trivial
    refine ensures_bind (noFault_read _) fun _ _ => ?_
    exact ensures_bind (noFault_guard _ _) fun _ _ => ensures_pure trivial
  · refine ensures_bind (noFault_gatherFace _ _) fun _ _ => ?_
    exact ensures_bind (noFault_gatherFace _ _) fun _ _ => noFault_kernel _

theorem noFault_stateAtLeast (stateRef : UInt32) (need : ℕ) (refMsg sizeMsg : String) :
    NoFault (stateAtLeast stateRef need refMsg sizeMsg) := by
  unfold stateAtLeast
  refine ensures_bind (noFault_guard _ _) fun _ _ => ?_
  exact ensures_bind (noFault_read _) fun _ _ => noFault_guard _ _

theorem noFault_xopPin : NoFault (xopPin b op) := by
  unfold xopPin
  refine ensures_bind (ensures_guard _ _) fun _ h => ?_
  refine ensures_bind (noFault_read _) fun _ _ => ?_
  refine ensures_ite (fun _ => ?_) fun _ => ensures_pure trivial
  exact ensures_bind (noFault_slotAt h) fun _ _ => ensures_pure trivial

/-! ### The handlers that index a table themselves -/

/-- The activation reference of a W4 matmul, unless it is prestaged, is an index
of the slot table. -/
def ActInTable (b : WtBlob) (op : WtOp) : Prop :=
  arg op 0 &&& 0x4000 = 0 → (arg op 0).toNat < b.slots.length

/-- The activation slot, unless prestaged, has the size the matmul wants. -/
def ActSizeMatches (b : WtBlob) (op : WtOp) : Prop :=
  arg op 0 &&& 0x4000 = 0 →
    ∀ s, b.slots[(arg op 0).toNat]? = some s → s.len = arg op 3 * arg op 4 * 2

/-- When an op stays inside the slot table and the temp tables: the condition of
the four handlers that index a table with an argument of their own. -/
def OpRefsOk (b : WtBlob) (op : WtOp) : Prop :=
  match op.opcode with
  | .matmulW4A16 => supplyFound b op = true → ActInTable b op ∧
      (ActSizeMatches b op → (arg op 1).toNat < b.slots.length)
  | .rmsnormF16 => (arg op 0).toNat < maxTemps ∧ (arg op 1).toNat < b.slots.length
  | .siluF16 => (arg op 0).toNat < maxTemps
  | .conv1dSsmStepF16 => CanResolve (arg op 0) → CanResolve (arg op 1) →
      (arg op 2).toNat < maxTemps → (arg op 1 &&& 0x7FFF).toNat < b.slots.length
  | _ => True

theorem ensures_checkActSlot (h : ActInTable b op) :
    Ensures (checkActSlot b op) fun _ => ActSizeMatches b op := by
  unfold checkActSlot
  refine ensures_ite (fun hact => ?_) fun hact => ensures_pure fun h0 => absurd h0 hact
  have hlt := h hact
  unfold slotAt
  rw [List.getElem?_eq_getElem hlt]
  refine (ensures_guard _ _).mono fun _ hlen _ s hs => ?_
  rw [List.getElem?_eq_getElem hlt, Option.some_inj] at hs
  rw [← hs]
  exact hlen

theorem noFault_carveMatmul : NoFault (carveMatmul env op) := by
  unfold carveMatmul
  refine ensures_bind (noFault_read _) fun _ _ => ?_
  refine ensures_ite (fun _ => ensures_pure trivial) fun _ => ?_
  refine ensures_bind (Q := fun _ => True) ?_ fun _ _ => ?_
  · unfold openEngine
    refine ensures_bind (noFault_read _) fun _ _ => ?_
    refine ensures_ite (fun _ => ensures_pure trivial) fun _ => ?_
    exact ensures_bind (noFault_ask _) fun _ _ => noFault_guard _ _
  · refine ensures_bind (noFault_ask _) fun _ _ => ?_
    exact ensures_bind (noFault_guard _ _) fun _ _ => ensures_update _

theorem noFault_execMatmul
    (h : supplyFound b op = true → ActInTable b op ∧
      (ActSizeMatches b op → (arg op 1).toNat < b.slots.length)) :
    NoFault (execMatmul env b op) := by
  unfold execMatmul
  refine ensures_bind (ensures_guard _ _) fun _ hsupply => ?_
  obtain ⟨hact, hw⟩ := h hsupply
  refine ensures_bind (ensures_checkActSlot hact) fun _ hsize => ?_
  refine ensures_bind (noFault_slotAt (hw hsize)) fun _ _ => ?_
  refine ensures_bind (noFault_guard _ _) fun _ _ => ?_
  refine ensures_bind noFault_carveMatmul fun _ _ => ?_
  refine ensures_bind (noFault_tempGet _ _) fun _ _ => ?_
  refine ensures_bind (noFault_guard _ _) fun _ _ => ?_
  refine ensures_bind (noFault_slotAt (hw hsize)) fun _ _ => ?_
  unfold invokeMatmul
  refine ensures_ite (fun _ => ?_) fun hpre => ?_
  · refine ensures_bind (noFault_refPtr _) fun _ _ => ?_
    refine ensures_bind (noFault_read _) fun _ _ => ?_
    exact ensures_bind (noFault_guard _ _) fun _ _ => noFault_kernel _
  · exact ensures_bind (noFault_slotAt (hact (not_not.mp hpre))) fun _ _ => noFault_kernel _

theorem noFault_execRmsnorm (m : UInt32) (hx : (arg op 0).toNat < maxTemps)
    (hw : (arg op 1).toNat < b.slots.length) : NoFault (execRmsnorm env b op m) := by
  unfold execRmsnorm
  refine ensures_bind (noFault_tempEntry _ hx) fun _ _ => ?_
  refine ensures_bind (noFault_guard _ _) fun _ _ => ?_
  refine ensures_bind (noFault_slotAt hw) fun _ _ => ?_
  refine ensures_bind (noFault_guard _ _) fun _ _ => ?_
  refine ensures_bind (noFault_guard _ _) fun _ _ => ?_
  refine ensures_bind (noFault_ask _) fun _ _ => ?_
  refine ensures_bind (noFault_ask _) fun _ _ => ?_
  refine ensures_bind (noFault_ask _) fun _ _ => ?_
  refine ensures_bind (noFault_tempGet _ _) fun _ _ => ?_
  refine ensures_bind (noFault_guard _ _) fun _ _ => ?_
  refine ensures_bind (noFault_slotAt hw) fun _ _ => ?_
  exact ensures_bind (noFault_tempEntry _ hx) fun _ _ => ensures_pure trivial

theorem noFault_execSilu (hx : (arg op 0).toNat < maxTemps) : NoFault (execSilu env op) := by
  unfold execSilu
  refine ensures_bind (noFault_tempEntry _ hx) fun _ _ => ?_
  refine ensures_bind (noFault_guard _ _) fun _ _ => ?_
  refine ensures_bind (noFault_tempEntry _ hx) fun _ _ => ?_
  refine ensures_bind (noFault_guard _ _) fun _ _ => ?_
  refine ensures_bind (noFault_tempGet _ _) fun _ _ => ?_
  refine ensures_bind (noFault_guard _ _) fun _ _ => ?_
  exact ensures_bind (noFault_tempEntry _ hx) fun _ _ => ensures_pure trivial

theorem noFault_execConv1dSsmStep
    (h : CanResolve (arg op 0) → CanResolve (arg op 1) → (arg op 2).toNat < maxTemps →
      (arg op 1 &&& 0x7FFF).toNat < b.slots.length) :
    NoFault (execConv1dSsmStep env b op) := by
  unfold execConv1dSsmStep
  refine ensures_bind (ensures_refPtr _) fun _ hx => ?_
  refine ensures_bind (ensures_refPtr _) fun _ hw => ?_
  refine ensures_bind (ensures_tempGet _ _) fun _ hy => ?_
  refine ensures_bind (ensures_guard _ _) fun _ hsome => ?_
  have hslot := h (hx hsome.1) (hw hsome.2.2) (hy hsome.2.1)
  refine ensures_bind (noFault_slotAt hslot) fun _ _ => ?_
  refine ensures_bind (noFault_guard _ _) fun _ _ => ?_
  refine ensures_bind (noFault_guard _ _) fun _ _ => ?_
  exact ensures_bind (noFault_stateAtLeast _ _ _ _) fun _ _ => noFault_kernel _

/-- An op that meets its condition never faults. SOURCE: oplist_exec.c:2462-2498 -/
theorem noFault_execOp (h : OpRefsOk b op) (engineM : UInt32) :
    NoFault (execOp env b op engineM) := by
  unfold OpRefsOk at h
  unfold execOp
  have hone : ∀ m ∈ [refPtr env b (arg op 0)], NoFault m := by
    simpa using noFault_refPtr _
  have htwo : ∀ m ∈ [refPtr env b (arg op 0), refPtr env b (arg op 1)], NoFault m := by
    simpa using ⟨noFault_refPtr _, noFault_refPtr _⟩
  cases hop : op.opcode <;> rw [hop] at h
  case nop => exact ensures_pure trivial
  case pin => exact noFault_xopPin
  case matmulW4A16 => exact noFault_execMatmul h
  case rmsnormF16 => exact noFault_execRmsnorm engineM h.1 h.2
  case siluF16 => exact noFault_execSilu h
  case im2col => exact noFault_refsBeforeTemp hone _ _ _ _
  case conv2dF16 => exact noFault_execConv2d
  case addF16 => exact noFault_refsBeforeTemp htwo _ _ _ _
  case spill => exact noFault_execSpill
  case fill => exact noFault_execFill
  case dma => exact noFault_execDma
  case padF16 => exact ensures_bind (noFault_refsThenTemp hone _ _ _) fun _ _ => noFault_guard _ _
  case transposeF16 => exact noFault_refsBeforeTemp hone _ _ _ _
  case unaryF16 => exact ensures_bind (noFault_refsThenTemp hone _ _ _) fun _ _ => noFault_guard _ _
  case binaryF16 =>
    exact ensures_ite (fun _ => noFault_execSelect) fun _ => noFault_refsThenTemp htwo _ _ _
  case softmaxF16 => exact noFault_refsThenTemp hone _ _ _
  case concatF16 => exact noFault_execConcat
  case stridedSliceF16 =>
    exact ensures_bind (noFault_refsThenTemp hone _ _ _) fun _ _ => noFault_guard _ _
  case splitF16 => exact noFault_execSplit
  case reduceF16 => exact noFault_execReduce
  case cumsumF32 => exact noFault_refsThenTemp hone _ _ _
  case conv1dSsmF16 =>
    refine noFault_refsThenTemp ?_ _ _ _
    simpa using ⟨noFault_refPtr _, noFault_slotPtr _⟩
  case gatherF16 =>
    exact ensures_bind (noFault_refsThenTemp htwo _ _ _) fun _ _ => noFault_guard _ _
  case scatterNdF16 =>
    refine ensures_bind (noFault_refsThenTemp ?_ _ _ _) fun _ _ => noFault_guard _ _
    simpa using ⟨noFault_refPtr _, noFault_refPtr _, noFault_refPtr _⟩
  case argmaxF16 => exact noFault_refsThenTemp hone _ _ _
  case kvAppendF16 => exact noFault_execKvAppend
  case kvGatherF16 => exact noFault_execKvGather
  case matmulF16 => exact noFault_refsThenTemp htwo _ _ _
  case matmulF16Split =>
    exact ensures_bind (noFault_refsThenTemp htwo _ _ _) fun _ _ => noFault_kernel _
  case rmsnorm2F16 => exact noFault_execRmsnorm2
  case broadcastF16 => exact noFault_execBroadcast
  case transposeGenF16 => exact noFault_execTransposeGen
  case conv1dSsmStepF16 => exact noFault_execConv1dSsmStep h
  case deltaChunkF16 =>
    refine ensures_bind (noFault_refsThenTemp ?_ _ _ _) fun _ _ => ?_
    · simpa using ⟨noFault_refPtr _, noFault_refPtr _, noFault_refPtr _, noFault_refPtr _,
        noFault_refPtr _⟩
    · refine ensures_bind (noFault_guard _ _) fun _ _ => ?_
      exact ensures_bind (noFault_stateAtLeast _ _ _ _) fun _ _ => noFault_kernel _

/-! ### The faults -/

theorem slotAt_fault {i : ℕ} (h : b.slots.length ≤ i) (st : ExecState) :
    slotAt b i st = (.error .fault, st) := by
  unfold slotAt
  rw [List.getElem?_eq_none h]
  rfl

theorem tempEntry_fault {α : Type} (f : ExecState → ℕ → α) {i : ℕ} (h : maxTemps ≤ i)
    (st : ExecState) : tempEntry f i st = (.error .fault, st) := by
  apply bind_apply_error
  rw [inTable, if_neg (not_lt.mpr h)]
  rfl

theorem tempEntry_ok {α : Type} (f : ExecState → ℕ → α) {i : ℕ} (h : i < maxTemps)
    (st : ExecState) : tempEntry f i st = (.ok (f st i), st) := by
  refine bind_apply_ok (t := st) (a := ()) ?_
  rw [inTable, if_pos h]
  rfl

theorem execMatmul_faultsAt (st : ExecState) (hsupply : supplyFound b op = true)
    (h : ¬ (ActInTable b op ∧ (ActSizeMatches b op → (arg op 1).toNat < b.slots.length))) :
    FaultsAt (execMatmul env b op) st := by
  unfold FaultsAt execMatmul
  rw [bind_apply_ok (guard_of hsupply _ st)]
  by_cases hact : ActInTable b op
  · obtain ⟨hsize, hw⟩ : ActSizeMatches b op ∧ b.slots.length ≤ (arg op 1).toNat := by
      simpa [hact] using h
    have hcheck : checkActSlot b op st = (.ok (), st) := by
      unfold checkActSlot
      split
      · rename_i h0
        have hlt := hact h0
        have hget := List.getElem?_eq_getElem hlt
        have hslot : slotAt b (arg op 0).toNat st = (.ok b.slots[(arg op 0).toNat], st) := by
          unfold slotAt
          rw [hget]
          rfl
        rw [bind_apply_ok hslot, guard_of (hsize h0 _ hget)]
      · rfl
    rw [bind_apply_ok hcheck, bind_apply_error (slotAt_fault hw st)]
  · obtain ⟨h0, hge⟩ : arg op 0 &&& 0x4000 = 0 ∧ b.slots.length ≤ (arg op 0).toNat := by
      simpa [ActInTable] using hact
    have hcheck : checkActSlot b op st = (.error .fault, st) := by
      unfold checkActSlot
      rw [if_pos h0, bind_apply_error (slotAt_fault hge st)]
    rw [bind_apply_error hcheck]

/-- An executor state in which every temp, VTCM resident and state is present. -/
def fullState : ExecState where
  temps := fun _ => some 0
  tempBytes := fun _ => 0
  lastBytes := fun _ => 0
  pool := some 0
  poolCap := 0
  poolUsed := 0
  staticOffsets := false
  staticOffArr := fun _ => noOffset
  vtcmPool := some 0
  vtcmPoolSize := 0xFFFFFFFF
  vtcmOffArr := fun _ => 0
  engineReady := true
  matmulCarved := true
  engM := 32
  engK := 32
  engN := 32
  nStates := wtMaxStates
  stBuf := fun _ => some 0
  stBytes := fun _ => 0
  stCount := fun _ => 0
  kvcReady := fun _ => false
  kvcSlotBytes := fun _ => 0
  kvcNslots := fun _ => 0
  tick := 0
  nStates_le := le_rfl

/-- An environment in which every request is granted and both injected buffers
are present. -/
def fullEnv : Env where
  memalign := fun _ _ => some 0
  wtcacheOpen := fun _ => true
  wtcacheLayout := fun _ => (some 0, 0xFFFFFFFF, 0)
  w4Carve := fun _ => true
  kernelOk := fun _ => true
  weightBase := 0
  extIn := some 0
  extWgt := some 0

theorem execRmsnorm_faultsAt (m : UInt32)
    (h : ¬ ((arg op 0).toNat < maxTemps ∧ (arg op 1).toNat < b.slots.length)) :
    FaultsAt (execRmsnorm env b op m) fullState := by
  unfold FaultsAt execRmsnorm
  by_cases hx : (arg op 0).toNat < maxTemps
  · have hw : b.slots.length ≤ (arg op 1).toNat := by
      simpa [hx] using h
    rw [bind_apply_ok (tempEntry_ok _ hx fullState), bind_apply_ok (guard_of (by rfl) _ fullState),
      bind_apply_error (slotAt_fault hw fullState)]
  · rw [bind_apply_error (tempEntry_fault _ (not_lt.mp hx) fullState)]

theorem execSilu_faultsAt (st : ExecState) (h : maxTemps ≤ (arg op 0).toNat) :
    FaultsAt (execSilu env op) st := by
  unfold FaultsAt execSilu
  rw [bind_apply_error (tempEntry_fault _ h st)]

theorem refPtr_fullState {r : UInt32} (h : CanResolve r)
    (hslot : r &&& 0x8000 ≠ 0 → (r &&& 0x7FFF).toNat < b.slots.length) :
    ∃ p, refPtr fullEnv b r fullState = (.ok (some p), fullState) := by
  unfold CanResolve at h
  unfold refPtr
  by_cases h8 : r &&& 0x8000 ≠ 0
  · have hlt := hslot h8
    refine ⟨(slotAddr fullEnv b.slots[(r &&& 0x7FFF).toNat]).getD 0, ?_⟩
    rw [if_pos h8, slotPtr, if_neg (not_le.mpr hlt)]
    have hat : slotAt b (r &&& 0x7FFF).toNat fullState =
        (.ok b.slots[(r &&& 0x7FFF).toNat], fullState) := by
      unfold slotAt
      rw [List.getElem?_eq_getElem hlt]
      rfl
    rw [bind_apply_ok hat]
    unfold slotAddr
    split
    · rfl
    · split <;> rfl
  · rw [if_neg h8] at h ⊢
    by_cases h6 : r &&& 0xE000 = 0x6000
    · rw [if_pos h6] at h ⊢
      refine ⟨0, ?_⟩
      show (Except.ok (if (r &&& 0x1FFF).toNat < wtMaxStates then some 0 else none), fullState) = _
      rw [if_pos h]
    · rw [if_neg h6] at h ⊢
      by_cases h4 : r &&& 0x4000 ≠ 0
      · rw [if_pos h4] at h ⊢
        refine ⟨0, ?_⟩
        simp only [h, if_true]
        rw [bind_apply_ok (tempEntry_ok _ h fullState)]
        rfl
      · rw [if_neg h4] at h ⊢
        refine ⟨0, ?_⟩
        rw [if_pos h, tempEntry_ok _ h]
        rfl

theorem tempGet_fullState {id : UInt32} (bytes : UInt32) (h : id.toNat < maxTemps) :
    ∃ t, tempGet fullEnv id bytes fullState = (.ok (some 0), t) := by
  unfold tempGet
  rw [if_neg (not_le.mpr h), bind_apply_ok (tempEntry_ok _ h fullState)]
  have hne : fullState.vtcmOffArr id.toNat ≠ noOffset := by
    show (0 : UInt32) ≠ 0xFFFFFFFF
    decide
  have hsize : ¬ fullState.vtcmPoolSize < fullState.vtcmOffArr id.toNat + bytes := by
    show ¬ (0xFFFFFFFF : UInt32) < 0 + bytes
    have hb := bytes.toNat_lt
    rw [UInt32.lt_iff_toNat_lt, UInt32.toNat_add]
    simp only [UInt32.reduceToNat]
    omega
  simp only [hne, ne_eq, not_false_eq_true, if_true]
  unfold tempGetVtcm
  rw [bind_apply_ok (show read (·.vtcmPoolSize) fullState = (.ok fullState.vtcmPoolSize, fullState)
    from rfl)]
  simp only [hsize, if_false]
  rw [bind_apply_ok (show vtcmPoolEnsure fullEnv fullState = (.ok (some 0), fullState) from rfl)]
  have hin : (inTable maxTemps id.toNat : Exec Unit) fullState = (.ok (), fullState) := by
    rw [inTable, if_pos h]
    rfl
  simp only [placeTemp]
  rw [bind_apply_ok hin]
  exact ⟨_, rfl⟩

theorem execConv1dSsmStep_faultsAt (hx : CanResolve (arg op 0)) (hw : CanResolve (arg op 1))
    (hxs : arg op 0 &&& 0x8000 ≠ 0 → (arg op 0 &&& 0x7FFF).toNat < b.slots.length)
    (hws : arg op 1 &&& 0x8000 ≠ 0 → (arg op 1 &&& 0x7FFF).toNat < b.slots.length)
    (hy : (arg op 2).toNat < maxTemps)
    (hslot : b.slots.length ≤ (arg op 1 &&& 0x7FFF).toNat) :
    FaultsAt (execConv1dSsmStep fullEnv b op) fullState := by
  obtain ⟨px, hpx⟩ := refPtr_fullState hx hxs
  obtain ⟨pw, hpw⟩ := refPtr_fullState hw hws
  obtain ⟨t, ht⟩ := tempGet_fullState (arg op 4 * 2) hy
  unfold FaultsAt execConv1dSsmStep
  rw [bind_apply_ok hpx, bind_apply_ok hpw, bind_apply_ok ht, bind_apply_ok (guard_of (by simp) _ t),
    bind_apply_error (slotAt_fault hslot t)]

/-! ### Ops of an accepted blob -/

theorem flagged_lt {buf : Buf} {blob : WtBlob} (h : wtParse buf = .ok blob)
    (hop : op ∈ blob.ops) (i : ℕ) (hi : i < op.args.length)
    (hslot : argIsSlot op.opcode i = true) (hdma : op.opcode ≠ .dma)
    (hflag : arg op i &&& 0x8000 ≠ 0) : (arg op i &&& 0x7FFF).toNat < blob.slots.length := by
  obtain ⟨hdr, opsEnd, -, -, hslots, -, -, -, -, hrefs, -, -⟩ := OplistParseBounds.wtParse_eq_ok h
  have hlen : blob.slots.length = hdr.nSlots.toNat := by
    rw [← hslots.length_eq, List.length_range]
  have hcheck := hrefs op hop
  rw [checkRefs, forM_eq_ok] at hcheck
  have hval : op.args[i] = arg op i := by
    simp [arg, hi]
  have hmem : (arg op i, i) ∈ op.args.zipIdx := by
    rw [List.mem_zipIdx_iff_getElem?, ← hval]
    exact List.getElem?_eq_getElem hi
  have hone := hcheck _ hmem
  unfold checkRef at hone
  rw [if_neg (by simp [hslot]), if_neg (by simp [hdma]), ensure_eq_ok] at hone
  have hlt : (arg op i &&& 0x7FFF).toNat < hdr.nSlots.toNat := by
    by_contra hge
    exact hone ⟨hflag, not_lt.mp hge⟩
  omega

/-- An op of an accepted blob stays inside the slot table and the temp tables,
from every executor state and in every environment, exactly when it meets
`OpRefsOk`. SOURCE: oplist_exec.c:438-2340, oplist_parse.c:150-167 -/
theorem execOp_inside_tables_iff (buf : Buf) (blob : WtBlob) (h : wtParse buf = .ok blob)
    (op : WtOp) (hop : op ∈ blob.ops) :
    (∀ env engineM st, ¬ FaultsAt (execOp env blob op engineM) st) ↔ OpRefsOk blob op := by
  constructor
  · intro hsafe
    have hfull := fun m => hsafe fullEnv m fullState
    unfold OpRefsOk
    unfold execOp at hfull
    cases hopc : op.opcode <;> simp only [hopc] at hfull ⊢
    case matmulW4A16 =>
      intro hsupply
      by_contra hbad
      exact hfull 0 (execMatmul_faultsAt fullState hsupply hbad)
    case rmsnormF16 =>
      by_contra hbad
      exact hfull 0 (execRmsnorm_faultsAt 0 hbad)
    case siluF16 =>
      by_contra hbad
      exact hfull 0 (execSilu_faultsAt fullState (not_lt.mp hbad))
    case conv1dSsmStepF16 =>
      intro hx hw hy
      by_contra hbad
      have harity := op.arity
      rw [hopc] at harity
      have hflag : ∀ i < 2, arg op i &&& 0x8000 ≠ 0 →
          (arg op i &&& 0x7FFF).toNat < blob.slots.length := by
        intro i hi
        refine flagged_lt h hop i (by rw [harity, arityOf]; omega) ?_ (by simp [hopc])
        rw [hopc]
        have hcases : i = 0 ∨ i = 1 := by omega
        rcases hcases with rfl | rfl <;> rfl
      exact hfull 0 (execConv1dSsmStep_faultsAt hx hw (hflag 0 (by omega)) (hflag 1 (by omega)) hy
        (not_lt.mp hbad))
  · intro hok env engineM st
    exact (noFault_execOp hok engineM).not_faultsAt st

/-- A version 1 blob with one slot of 128 bytes and one crouton RMSNorm of 32
columns from temp `x` with weight slot `w`. -/
def rmsnormBlob (x w : UInt32) : Buf where
  bytes := [87, 84, 79, 80, 1, 0, 0x34, 0x12, 1, 0, 0, 0, 1, 0, 0, 0] ++
    (u32le 128 ++ u32le 64 ++ u32le 0 ++ u32le 0) ++
    ([2, 0, 4, 0] ++ u32le x ++ u32le w ++ u32le 1 ++ u32le 32) ++ List.replicate 204 0
  size_lt := by
    simp only [List.length_append, List.length_replicate, u32le_length, List.length_cons,
      List.length_nil]
    omega

/-- An RMSNorm whose source is temp 4096 passes the parser and reads past the end
of the temp table, from every state. -/
theorem rmsnorm_temp_past_table :
    ∃ blob, wtParse (rmsnormBlob 4096 0) = .ok blob ∧
      ∃ op ∈ blob.ops, ∀ env engineM st, FaultsAt (execOp env blob op engineM) st := by
  have hparse : wtParse (rmsnormBlob 4096 0) =
      .ok ⟨1, [⟨128, 64, 0, 0⟩], [⟨.rmsnormF16, [4096, 0, 1, 32], rfl⟩], 128,
        List.replicate 128 0⟩ := by
    decide +kernel
  refine ⟨_, hparse, _, List.mem_singleton.mpr rfl, fun env engineM st => ?_⟩
  show (execRmsnorm env _ _ engineM st).1 = .error .fault
  unfold execRmsnorm
  rw [bind_apply_error (tempEntry_fault _ (by decide) st)]

/-- The same op on temp 0 and slot 0 stays inside the tables. -/
theorem rmsnorm_temp_zero_inside :
    ∃ blob, wtParse (rmsnormBlob 0 0) = .ok blob ∧
      ∃ op ∈ blob.ops, (∀ env engineM st, ¬ FaultsAt (execOp env blob op engineM) st) ↔
        OpRefsOk blob op := by
  have hparse : wtParse (rmsnormBlob 0 0) =
      .ok ⟨1, [⟨128, 64, 0, 0⟩], [⟨.rmsnormF16, [0, 0, 1, 32], rfl⟩], 128,
        List.replicate 128 0⟩ := by
    decide +kernel
  exact ⟨_, hparse, _, List.mem_singleton.mpr rfl,
    execOp_inside_tables_iff _ _ hparse _ (List.mem_singleton.mpr rfl)⟩

end Gehtp.Analysis.OplistRefs
