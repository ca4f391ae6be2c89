import Gehtp.Model.OplistHandlers
import Gehtp.Model.TempRun

/-!
# Spills and fills

A spilled output leaves its temp for the spill pool after its operator and comes back
before each consumer. `wtop_emit` encodes these moves in two ways: as `OP_SPILL` and
`OP_FILL`, or, with the DMA run-list, as `OP_DMA` descriptors. The device runs them with
different handlers; here the handlers of `OplistHandlers` also move the bytes.
-/

set_option autoImplicit false

namespace Gehtp.Model.SpillRun

open Lib Lib.Machine Model.OplistParse Model.OplistExec Model.OplistHandlers Model.TempEmit

/-! ### Emission -/

/-- A place in the spill pool. -/
structure SpillPlace where
  offset : UInt32
  size : UInt32
  deriving DecidableEq

/-- The places of the spilled outputs. SOURCE: wtop_emit.cpp:140-141 -/
def ddrSpillMap (cfg : EmitConfig) : ℕ → Option SpillPlace :=
  store (fun _ => none) (cfg.plan.spilled.map fun e =>
    (e.opId, ⟨UInt32.ofNat e.offset, UInt32.ofNat e.size⟩))

/-- What the emitter adds to the op list: an op of a handler, numbered by its call, or a move
of a temp. -/
inductive EmittedOp where
  | other (call : ℕ) (op : DeviceOp)
  | fill (t : ℕ) (p : SpillPlace)
  | spill (t : ℕ) (p : SpillPlace)

/-- The op that a call adds, if any. SOURCE: wtop_emit.cpp:515-562 -/
def emittedOf (cfg : EmitConfig) (em : Emitter) (call pos : ℕ) : EmitCall → Option EmittedOp
  | .fill c =>
    match ddrSpillMap cfg c.srcId, em.lookup (tkey c.srcId c.outIdx) with
    | some p, some t => some (.fill t.1 p)
    | _, _ => none
  | .spill id =>
    match ddrSpillMap cfg id, em.lookup (tkey id 0) with
    | some p, some t => some (.spill t.1 p)
    | _, _ => none
  | .addOp od reads dst =>
    match reads.mapM (resolve cfg em od), resolveDst cfg em od dst with
    | some rs, some d => some (.other call ⟨pos, rs.reduceOption, d⟩)
    | _, _ => none
  | .fresh _ _ | .release _ | .abort => none

def emittedFrom (cfg : EmitConfig) (em : Emitter) (call : ℕ) :
    List (ℕ × EmitCall) → Option (List EmittedOp)
  | [] => some []
  | c :: rest =>
    (emitCall cfg em c.1 c.2).bind fun em' =>
      (emittedFrom cfg em' (call + 1) rest).map fun ops =>
        (emittedOf cfg em call c.1 c.2).toList ++ ops

def emittedOps (cfg : EmitConfig) : Option (List EmittedOp) :=
  emittedFrom cfg Emitter.new 0 (emitCalls cfg)

theorem arity_spill (x y z u : UInt32) : [x, y, z, u].length = arityOf .spill := rfl

theorem arity_fill (x y z u : UInt32) : [x, y, z, u].length = arityOf .fill := rfl

theorem arity_dma (x y z : UInt32) :
    [x, y, z, 0, 0, 1, wtDmaFenceNone, wtDmaFenceNone].length = arityOf .dma := rfl

/-- SOURCE: wtop_emit.cpp:529-530 -/
def fillOp (slot t : ℕ) (p : SpillPlace) : WtOp where
  opcode := .fill
  args := [UInt32.ofNat slot, p.offset, UInt32.ofNat t, p.size / 2]
  arity := arity_fill _ _ _ _

/-- SOURCE: wtop_emit.cpp:556-558 -/
def spillOp (slot t : ℕ) (p : SpillPlace) : WtOp where
  opcode := .spill
  args := [UInt32.ofNat t, UInt32.ofNat slot, p.offset, p.size / 2]
  arity := arity_spill _ _ _ _

/-- A descriptor between two references; both offsets are 0.
SOURCE: wtop_emit.cpp:522-527, 549-554 -/
def dmaOp (src dst : UInt32) (p : SpillPlace) : WtOp where
  opcode := .dma
  args := [src, dst, p.size, 0, 0, 1, wtDmaFenceNone, wtDmaFenceNone]
  arity := arity_dma _ _ _

/-- SOURCE: wtop_emit.cpp:525-527 -/
def dmaFillOp (slot t : ℕ) (p : SpillPlace) : WtOp :=
  dmaOp (0x8000 ||| UInt32.ofNat slot) (UInt32.ofNat t) p

/-- SOURCE: wtop_emit.cpp:552-554 -/
def dmaSpillOp (slot t : ℕ) (p : SpillPlace) : WtOp :=
  dmaOp (UInt32.ofNat t) (0x8000 ||| UInt32.ofNat slot) p

/-! ### The device with its memory -/

/-- The executor and the bytes at each address. -/
structure Device where
  st : ExecState
  mem : ℕ → UInt8

abbrev Dev (α : Type) : Type := Machine Device String α

/-- A step of the executor, which moves no bytes. -/
def onState {α : Type} (m : Exec α) : Dev α := fun d => ((m d.st).1, ⟨(m d.st).2, d.mem⟩)

/-- Memory after `n` bytes were copied. -/
def copyBytes (dst src n : ℕ) (mem : ℕ → UInt8) : ℕ → UInt8 :=
  fun a => if dst ≤ a ∧ a < dst + n then mem (src + (a - dst)) else mem a

/-- Copy between two addresses that were resolved. -/
def copyOver (dst src : Option ℕ) (n : UInt32) : Dev Unit :=
  match dst, src with
  | some dst, some src => update fun d => { d with mem := copyBytes dst src n.toNat d.mem }
  | _, _ => pure ()

variable (env : Env) (b : WtBlob)

/-- SOURCE: oplist_exec.c:849-863 -/
def execSpillBytes (op : WtOp) : Dev Unit := do
  onState (execSpill env b op)
  let src ← onState (refPtr env b (arg op 0))
  let pool ← onState (slotPtr env b (arg op 1).toNat)
  copyOver (pool.map (· + (arg op 2).toNat)) src (arg op 3 * 2)

/-- SOURCE: oplist_exec.c:864-884 -/
def execFillBytes (op : WtOp) : Dev Unit := do
  onState (execFill env b op)
  let pool ← onState (slotPtr env b (arg op 0).toNat)
  let dst ← onState (refPtr env b (arg op 2))
  copyOver dst (pool.map (· + (arg op 1).toNat)) (arg op 3 * 2)

/-- The address of an end of a DMA. The surfaces of the engine hold neither temps nor the
spill pool. SOURCE: oplist_exec.c:886-935 -/
def dmaAddr (r off : UInt32) : Exec (Option ℕ) :=
  if r &&& 0xC000 = 0xC000 then pure none
  else if r &&& 0x8000 ≠ 0 then do
    let p ← slotPtr env b (r &&& 0x7FFF).toNat
    pure (p.map (· + off.toNat))
  else if r &&& 0x4000 ≠ 0 then do
    let base ← tempEntry (·.vtcmOffArr) (r &&& 0x3FFF).toNat
    read fun st => st.vtcmPool.map (· + base.toNat + off.toNat)
  else do
    let p ← tempEntry (·.temps) r.toNat
    pure (p.map (· + off.toNat))

/-- SOURCE: oplist_exec.c:937-980 -/
def execDmaBytes (op : WtOp) : Dev Unit :=
  if arg op 2 = 0 then onState (execDma env b op)
  else do
    onState (execDma env b op)
    let src ← onState (dmaAddr env b (arg op 0) (arg op 3))
    let dst ← onState (dmaAddr env b (arg op 1) (arg op 4))
    copyOver dst src (arg op 2)

/-- One op of the list; the encoding of the moves is the one of the run-list or not. What an
op of a handler does is `kern`. -/
def execEmitted (kern : ℕ → DeviceOp → Dev Unit) (slot : ℕ) (runlist : Bool) :
    EmittedOp → Dev Unit
  | .other call op => kern call op
  | .fill t p =>
    if runlist then execDmaBytes env b (dmaFillOp slot t p)
    else execFillBytes env b (fillOp slot t p)
  | .spill t p =>
    if runlist then execDmaBytes env b (dmaSpillOp slot t p)
    else execSpillBytes env b (spillOp slot t p)

def execAll (kern : ℕ → DeviceOp → Dev Unit) (slot : ℕ) (runlist : Bool) :
    List EmittedOp → Dev Unit
  | [] => pure ()
  | op :: ops => do
    execEmitted env b kern slot runlist op
    execAll kern slot runlist ops

end Gehtp.Model.SpillRun
