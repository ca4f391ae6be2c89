import Gehtp.Lib.Machine
import Gehtp.Model.OplistParse

/-!
# The device executor

`kernels/src/runtime/oplist_exec.c` runs the ops of a parsed blob one after the
other. What this file keeps of it is everything that decides which entry of the
slot table and of the temp tables an op touches: the reference encodings, the
allocation of temps, the argument checks of every handler in their order, and the
state they read. The numeric kernels work on memory that these decisions have
already fixed; here they are answers of the environment, as are allocation, the
VTCM manager and the DMA engine.

An access to a table is a checked one: an index past the end of the slot table or
of the temp tables is a fault.
-/

set_option autoImplicit false

namespace Gehtp.Model.OplistExec

open Lib Lib.Machine Model.OplistParse

/-- The number of entries of the temp tables. SOURCE: oplist_exec.c:46 -/
def maxTemps : ℕ := 4096

/-- The sentinel of the offset tables: no offset. -/
def noOffset : UInt32 := 0xFFFFFFFF

def wtMaxStates : ℕ := 64
def wtKvPosAuto : UInt32 := 0xFFFFFFFA
def wtDmaFenceNone : UInt32 := 0xFF

/-- The longest chunk of the delta kernel (`GDN_C_MAX`). SOURCE: gdn_sm.h:49 -/
def gdnCMax : UInt32 := 64

/-- What surrounds the executor. The functions answer the `n`-th question asked
so far: the address a memory request gets, whether the VTCM manager opens and
what layout it reports, whether the W4 arena can be carved, whether a kernel, a
DMA transfer or a fence reports success. The addresses are those of the weight
area and of the buffers the caller injects. -/
structure Env where
  memalign : ℕ → UInt32 → Option ℕ
  wtcacheOpen : ℕ → Bool
  wtcacheLayout : ℕ → Option ℕ × UInt32 × UInt32
  w4Carve : ℕ → Bool
  kernelOk : ℕ → Bool
  weightBase : ℕ
  extIn : Option ℕ
  extWgt : Option ℕ

/-- The executor's global state `g_exec` with `g_last_bytes`. A pointer is an
address, or `none` for NULL; `tick` counts the questions to the environment.
SOURCE: oplist_exec.c:48-90 -/
structure ExecState where
  temps : ℕ → Option ℕ
  tempBytes : ℕ → UInt32
  lastBytes : ℕ → UInt32
  pool : Option ℕ
  poolCap : UInt32
  poolUsed : UInt32
  staticOffsets : Bool
  staticOffArr : ℕ → UInt32
  vtcmPool : Option ℕ
  vtcmPoolSize : UInt32
  vtcmOffArr : ℕ → UInt32
  engineReady : Bool
  matmulCarved : Bool
  engM : UInt32
  engK : UInt32
  engN : UInt32
  nStates : ℕ
  stBuf : ℕ → Option ℕ
  stBytes : ℕ → UInt32
  stCount : ℕ → UInt32
  kvcReady : ℕ → Bool
  kvcSlotBytes : ℕ → UInt32
  kvcNslots : ℕ → UInt32
  tick : ℕ
  nStates_le : nStates ≤ wtMaxStates

/-- A step of the executor; its error code is the text it leaves in `err`. -/
abbrev Exec (α : Type) : Type := Machine ExecState String α

/-- Put a question to the environment. -/
def ask {α : Type} (f : ℕ → α) : Exec α := do
  let n ← read (·.tick)
  update fun s => { s with tick := n + 1 }
  pure (f n)

/-- Argument `i` of an op. -/
def arg (op : WtOp) (i : ℕ) : UInt32 := op.args.getD i 0

/-- Read entry `i` of one of the temp tables. -/
def tempEntry {α : Type} (f : ExecState → ℕ → α) (i : ℕ) : Exec α := do
  inTable maxTemps i
  read fun s => f s i

/-- Read entry `i` of the slot table. -/
def slotAt (b : WtBlob) (i : ℕ) : Exec WtSlot :=
  match b.slots[i]? with
  | some s => pure s
  | none => fault

/-- The address of a slot's data. SOURCE: oplist_exec.c:175-186 -/
def slotAddr (env : Env) (slot : WtSlot) : Option ℕ :=
  if slot.addr = wtSlotExtIn ∧ env.extIn.isSome then env.extIn
  else if slot.addr = wtSlotExtWgt then env.extWgt.map (· + slot.offset.toNat)
  else some (env.weightBase + slot.offset.toNat)

/-- The data of slot `s`, NULL for an index outside of the table.
SOURCE: oplist_exec.c:175-186 -/
def slotPtr (env : Env) (b : WtBlob) (s : ℕ) : Exec (Option ℕ) :=
  if b.slots.length ≤ s then pure none
  else do
    let slot ← slotAt b s
    pure (slotAddr env slot)

/-- Decode a reference: a slot, a persistent state, a VTCM resident or a temp.
SOURCE: oplist_exec.c:189-202 -/
def refPtr (env : Env) (b : WtBlob) (r : UInt32) : Exec (Option ℕ) :=
  if r &&& 0x8000 ≠ 0 then slotPtr env b (r &&& 0x7FFF).toNat
  else if r &&& 0xE000 = 0x6000 then
    let s := (r &&& 0x1FFF).toNat
    read fun st => if s < st.nStates then st.stBuf s else none
  else if r &&& 0x4000 ≠ 0 then
    let t := (r &&& 0x3FFF).toNat
    if t < maxTemps then do
      let off ← tempEntry (·.vtcmOffArr) t
      read fun st => if off ≠ noOffset then st.vtcmPool.map (· + off.toNat) else none
    else pure none
  else if r.toNat < maxTemps then tempEntry (·.temps) r.toNat
  else pure none

/-- The number of f16 elements behind a reference. SOURCE: oplist_exec.c:209-213 -/
def refElemCount (b : WtBlob) (r : UInt32) : Exec UInt32 :=
  if r &&& 0x8000 ≠ 0 then
    let s := (r &&& 0x7FFF).toNat
    if s < b.slots.length then do
      let slot ← slotAt b s
      pure slot.count
    else pure 0
  else if r &&& 0x4000 ≠ 0 then pure 0
  else if r.toNat < maxTemps then do
    let n ← tempEntry (·.lastBytes) r.toNat
    pure (n / 2)
  else pure 0

/-- Whether an address lies in the VTCM pool. SOURCE: oplist_exec.c:249-255 -/
def ptrInVtcm (st : ExecState) (p : ℕ) : Bool :=
  match st.vtcmPool with
  | none => false
  | some base => decide (base ≤ p ∧ p - base < st.vtcmPoolSize.toNat)

def wtcacheEnsure (env : Env) : Exec Bool := do
  let ready ← read (·.engineReady)
  if ready then pure true
  else do
    let ok ← ask env.wtcacheOpen
    if ok then do
      update fun s => { s with engineReady := true }
      pure true
    else pure false

/-- Lay the VTCM pool at the end of the VTCM, above the area that the matmul
arena carves. SOURCE: oplist_exec.c:240-246, 266-283 -/
def vtcmPoolLay (env : Env) : Exec (Option ℕ) := do
  let lay ← ask env.wtcacheLayout
  let size ← read (·.vtcmPoolSize)
  match lay with
  | (none, _, _) => pure none
  | (some vb, vs, pc) =>
    if vs < size then pure none
    else if vs < ((pc + 2047) &&& ~~~2047) + size then pure none
    else do
      update fun s => { s with vtcmPool := some (vb + (vs - size).toNat) }
      pure (some (vb + (vs - size).toNat))

/-- The base of the VTCM pool. SOURCE: oplist_exec.c:234-247 -/
def vtcmPoolEnsure (env : Env) : Exec (Option ℕ) := do
  let pool ← read (·.vtcmPool)
  match pool with
  | some base => pure (some base)
  | none => do
    let ok ← wtcacheEnsure env
    if ok then vtcmPoolLay env else pure none

/-- Record where a temp is and how many bytes were asked for. -/
def placeTemp (id : ℕ) (p : ℕ) (bytes : UInt32) : Exec (Option ℕ) := do
  inTable maxTemps id
  update fun s => { s with
    temps := Function.update s.temps id (some p)
    tempBytes := Function.update s.tempBytes id bytes
    lastBytes := Function.update s.lastBytes id bytes }
  pure (some p)

/-- The doubling loop of the pool; the 32-bit capacity reaches 0 after 32 rounds
and then never changes, so 33 rounds without an answer are an endless loop.
SOURCE: oplist_exec.c:317 -/
def growCap : ℕ → UInt32 → UInt32 → Option UInt32
  | 0, _, _ => none
  | n + 1, cap, need => if cap < need then growCap n (cap * 2) need else some cap

/-- Make room for `aligned` more bytes; `false` is the source's NULL.
SOURCE: oplist_exec.c:313-328 -/
def growPool (env : Env) (aligned : UInt32) : Exec Bool := do
  let st ← read id
  if st.poolCap < st.poolUsed + aligned then
    if st.staticOffsets then pure false
    else
      match growCap 33 (if st.poolCap ≠ 0 then st.poolCap else 0x4000000)
          (st.poolUsed + aligned) with
      | none => hang
      | some ncap => do
        let np ← ask (env.memalign · ncap)
        match np with
        | none => pure false
        | some p => do
          update fun s => { s with pool := some p, poolCap := ncap }
          pure true
  else pure true

/-- The bump path of `temp_get`. SOURCE: oplist_exec.c:307-334 -/
def tempBump (env : Env) (id : ℕ) (bytes : UInt32) : Exec (Option ℕ) := do
  let cur ← tempEntry (·.temps) id
  let have' ← tempEntry (·.tempBytes) id
  if cur = none ∨ have' < bytes then do
    let aligned := (bytes + 127) &&& ~~~127
    let ok ← growPool env aligned
    if ok then do
      update fun s => { s with
        temps := Function.update s.temps id (s.pool.map (· + s.poolUsed.toNat))
        tempBytes := Function.update s.tempBytes id bytes
        lastBytes := Function.update s.lastBytes id bytes
        poolUsed := s.poolUsed + aligned }
      tempEntry (·.temps) id
    else pure none
  else do
    update fun s => { s with lastBytes := Function.update s.lastBytes id bytes }
    pure cur

/-- The table path of `temp_get`: the static offset if the table has one, the
bump path otherwise. SOURCE: oplist_exec.c:293-334 -/
def tempGetDdr (env : Env) (id : ℕ) (bytes : UInt32) : Exec (Option ℕ) := do
  let st ← read fun s => (s.staticOffsets, s.pool)
  match st with
  | (true, some base) => do
    let off ← tempEntry (·.staticOffArr) id
    if off ≠ noOffset then do
      let used ← read (·.poolUsed)
      if used < off + bytes then pure none
      else placeTemp id (base + off.toNat) bytes
    else tempBump env id bytes
  | _ => tempBump env id bytes

/-- The VTCM path of `temp_get`. SOURCE: oplist_exec.c:259-292 -/
def tempGetVtcm (env : Env) (id : ℕ) (off bytes : UInt32) : Exec (Option ℕ) := do
  let size ← read (·.vtcmPoolSize)
  if size < off + bytes then pure none
  else do
    let base ← vtcmPoolEnsure env
    match base with
    | none => pure none
    | some p => placeTemp id (p + off.toNat) bytes

/-- The address of temp `id` for `bytes` bytes. SOURCE: oplist_exec.c:257-335 -/
def tempGet (env : Env) (id bytes : UInt32) : Exec (Option ℕ) :=
  if maxTemps ≤ id.toNat then pure none
  else do
    let off ← tempEntry (·.vtcmOffArr) id.toNat
    if off ≠ noOffset then tempGetVtcm env id.toNat off bytes
    else tempGetDdr env id.toNat bytes

end Gehtp.Model.OplistExec
