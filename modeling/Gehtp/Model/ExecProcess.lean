import Gehtp.Model.OplistHandlers
import Gehtp.Model.TempoffSlot

/-!
# The executor over the life of a process

`g_exec` lives as long as the process. A run of a blob first reads two tables from its slots, the
temp offsets and the persistent states, unless they are there already, and then runs its ops. The
tables of temp offsets go with `wt_exec_shutdown`; the states stay.
-/

set_option autoImplicit false

namespace Gehtp.Model.ExecProcess

open Lib Lib.Machine Model.OplistParse Model.OplistExec Model.OplistHandlers Model.TempoffSlot

/-- The executor with the flag `states_loaded`. SOURCE: oplist_exec.c:48-84 -/
structure Process where
  exec : ExecState
  statesLoaded : Bool

abbrev Proc (α : Type) : Type := Machine Process String α

def onExec {α : Type} (m : Exec α) : Proc α := fun p => ((m p.exec).1, { p with exec := (m p.exec).2 })

/-- The globals before the first call. -/
def ExecState.zero : ExecState where
  temps := fun _ => none
  tempBytes := fun _ => 0
  lastBytes := fun _ => 0
  pool := none
  poolCap := 0
  poolUsed := 0
  staticOffsets := false
  staticOffArr := fun _ => 0
  vtcmPool := none
  vtcmPoolSize := 0
  vtcmOffArr := fun _ => 0
  engineReady := false
  matmulCarved := false
  engM := 0
  engK := 0
  engN := 0
  nStates := 0
  stBuf := fun _ => none
  stBytes := fun _ => 0
  stCount := fun _ => 0
  kvcReady := fun _ => false
  kvcSlotBytes := fun _ => 0
  kvcNslots := fun _ => 0
  tick := 0
  nStates_le := Nat.zero_le _

def Process.new : Process := ⟨ExecState.zero, false⟩

/-! ### The state table -/

/-- One buffer; it is entered in the table before it is checked.
SOURCE: oplist_exec.c:2083-2094 -/
def allocState (env : Env) (mem : List UInt8) (p i : ℕ) : Exec Unit := do
  let bytes ← word mem (p + 4 + i * 4)
  if bytes = 0 ∨ 0x40000000 < bytes then reject "state %u bytes bad %u"
  else do
    let buf ← ask (env.memalign · bytes)
    update fun s => { s with stBuf := Function.update s.stBuf i buf }
    match buf with
    | none => reject "state %u alloc %u"
    | some _ => update fun s => { s with stBytes := Function.update s.stBytes i bytes }

/-- The buffers from number `i` on. -/
def allocStates (env : Env) (mem : List UInt8) (p : ℕ) : ℕ → ℕ → Exec Unit
  | 0, _ => pure ()
  | k + 1, i => do
    allocState env mem p i
    allocStates env mem p k (i + 1)

theorem nStates_le_of_checked {n len : UInt32}
    (h : ¬ (n = 0 ∨ wtMaxStates < n.toNat ∨ len < 4 + n * 4)) : n.toNat ≤ wtMaxStates :=
  not_lt.mp fun hlt => h (.inr (.inl hlt))

/-- The slot at `p`. SOURCE: oplist_exec.c:2073-2096 -/
def loadStateSlot (env : Env) (mem : List UInt8) (p : ℕ) (len : UInt32) : Exec Unit :=
  if len < 4 then reject "state slot short"
  else do
    let n ← word mem p
    if h : n = 0 ∨ wtMaxStates < n.toNat ∨ len < 4 + n * 4 then
      reject "state slot table bad (n=%u len=%u)"
    else do
      allocStates env mem p n.toNat 0
      update fun s => { s with nStates := n.toNat, nStates_le := nStates_le_of_checked h }

/-- The first state slot is read. SOURCE: oplist_exec.c:2070-2098 -/
def loadFirstStates (env : Env) (mem : List UInt8) : List WtSlot → Exec Unit
  | [] => pure ()
  | slot :: slots =>
    if slot.addr ≠ wtSlotState then loadFirstStates env mem slots
    else loadStateSlot env mem slot.offset.toNat slot.len

/-- Read the states of a blob, once. SOURCE: oplist_exec.c:2068-2102 -/
def wtExecLoadStates (env : Env) (b : WtBlob) : Proc Unit := do
  let loaded ← read (·.statesLoaded)
  if loaded then pure ()
  else do
    onExec (loadFirstStates env b.weight b.slots)
    update fun p => { p with statesLoaded := true }

/-! ### Runs -/

def engineRows (s : ExecState) : UInt32 := if s.engineReady then s.engM else 0

/-- Op `i` of a blob. -/
def opAt (b : WtBlob) (i : ℕ) : Exec WtOp :=
  match b.ops[i]? with
  | some op => pure op
  | none => fault

/-- `k` ops from number `i` on; `m` is what `engine_m` points to.
SOURCE: oplist_exec.c:2508-2557, 2329-2334 -/
def execOps (env : Env) (b : WtBlob) : ℕ → UInt32 → UInt32 → Exec UInt32
  | 0, _, m => pure m
  | k + 1, i, m => do
    let op ← opAt b i.toNat
    execOp env b op m
    let m' ← if op.opcode = .matmulW4A16 then read engineRows else pure m
    execOps env b k (i + 1) m'

/-- A run up to op number `k` of its range. -/
def runUntil (env : Env) (b : WtBlob) (first : UInt32) (k : ℕ) : Proc UInt32 := do
  let m ← read fun p => engineRows p.exec
  onExec (wtExecLoadTempoff env b)
  wtExecLoadStates env b
  onExec (execOps env b k first m)

/-- SOURCE: oplist_exec.c:2499-2557, wt_exec_run_range -/
def wtExecRunRange (env : Env) (b : WtBlob) (first count : UInt32) : Proc UInt32 :=
  if b.ops.length < (first + count).toNat then reject "range oob"
  else runUntil env b first count.toNat

/-- SOURCE: oplist_exec.c:531-557, wt_exec_shutdown -/
def wtExecShutdown (s : ExecState) : ExecState :=
  { s with
    engineReady := false
    matmulCarved := if s.engineReady then false else s.matmulCarved
    pool := none
    poolCap := 0
    poolUsed := 0
    staticOffsets := false
    vtcmPool := none
    vtcmPoolSize := 0
    staticOffArr := fun _ => noOffset
    vtcmOffArr := fun _ => noOffset
    temps := fun _ => none
    tempBytes := fun _ => 0
    lastBytes := fun _ => 0 }

/-- SOURCE: oplist_exec.c:2104-2114, wt_exec_state_reset -/
def wtExecStateReset (s : ExecState) : ExecState :=
  { s with stCount := fun i => if i < s.nStates then 0 else s.stCount i }

/-- What the process calls. A run has an environment of its own, since the weight area and the
injected buffers are those of its blob. -/
inductive ExecCall where
  | run (env : Env) (b : WtBlob) (first count : UInt32)
  | shutdown
  | stateReset

/-- One call; a run that stops keeps what it has reached. -/
def ExecCall.apply (p : Process) : ExecCall → Process
  | .run env b first count => (wtExecRunRange env b first count p).2
  | .shutdown => { p with exec := wtExecShutdown p.exec }
  | .stateReset => { p with exec := wtExecStateReset p.exec }

def history (calls : List ExecCall) : Process := calls.foldl ExecCall.apply Process.new

end Gehtp.Model.ExecProcess
