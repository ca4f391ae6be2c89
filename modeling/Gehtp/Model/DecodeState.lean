import Gehtp.Lib.Lease
import Gehtp.Model.KvDecode
import Gehtp.Model.OpGraph

/-!
# The states of a decode graph

The operators of a decode graph that carry state name it by a kind and an index. The emitter
(`compiler/tools/wtop_emit.cpp`, `compiler/tools/wtop_ops/op_decode_state.cpp`) maps the three
kinds into one table, writes the sizes of the states into a slot, and writes a reference to the
table into each op. The device (`kernels/src/runtime/oplist_exec.c`) makes the states from the
slot.

A scalar parameter is given by its value as a number of 32 bits; the conversion from a double is
left out. The data of the slot is given by its words of 32 bits.
-/

set_option autoImplicit false

namespace Gehtp.Model.DecodeState

open Lib Lib.Lease Model.OpGraph Model.KvDecode

/-- SOURCE: op_decode_state.cpp:121-126 -/
inductive StateOpName where
  | kvAppendF16 | kvGatherKT | kvGatherV | conv1dSsmStepF16 | deltaChunkF16
  deriving DecidableEq

/-- The kinds of states, each with indices of its own. SOURCE: wtop_ops.hpp:478-482 -/
inductive StateKind where
  | kv | conv | delta
  deriving DecidableEq

namespace StateOpName

/-- The kind of the state of an operator. -/
def kind : StateOpName → StateKind
  | .kvAppendF16 | .kvGatherKT | .kvGatherV => .kv
  | .conv1dSsmStepF16 => .conv
  | .deltaChunkF16 => .delta

/-- The operators that read a KV state. -/
def isGather : StateOpName → Bool
  | .kvGatherKT | .kvGatherV => true
  | _ => false

end StateOpName

/-- SOURCE: wtop_ops.hpp:483-490, decode_state_gid -/
def decodeStateGid : StateOpName → UInt32 → UInt32
  | .kvAppendF16, si | .kvGatherKT, si | .kvGatherV, si => si
  | .conv1dSsmStepF16, si => 6 + si
  | .deltaChunkF16, si => 24 + si

/-- An operator with its scalar parameters and the shape of its output. -/
structure StateOp where
  name : StateOpName
  params : List (String × UInt32)
  output : OutputDef

namespace StateOp

variable (op : StateOp)

/-- A parameter or its default. SOURCE: op_decode_state.cpp:16-19, Sp::u -/
def u (k : String) (default : UInt32) : UInt32 := (op.params.lookup k).getD default

/-- The index of the state, as the handlers take it. -/
def stateIdx : UInt32 := op.u "state_idx" 0

/-- The state: its kind and its index. -/
def state : StateKind × UInt32 := (op.name.kind, op.stateIdx)

def gid : UInt32 := decodeStateGid op.name op.stateIdx

/-- The positions of a KV state, from the shape of the face. SOURCE: wtop_emit.cpp:303-306 -/
def maxPos : UInt32 :=
  UInt32.ofNat (if 4 ≤ op.output.rank ∧ op.output.dims[3] = (op.u "head_dim" 256).toNat then
    op.output.dims[2] else op.output.dims[3])

/-- The bytes of the state that an operator expects; an append is not in the pass.
SOURCE: wtop_emit.cpp:301-312 -/
def stateBytes : Option UInt32 :=
  match op.name with
  | .kvAppendF16 => none
  | .kvGatherKT | .kvGatherV => some (op.u "kv_heads" 2 * op.u "head_dim" 256 * 2 * 2 * op.maxPos)
  | .conv1dSsmStepF16 => some ((op.u "d_conv" 4 - 1) * op.u "C" 6144 * 4)
  | .deltaChunkF16 => some (op.u "H" 16 * op.u "D" 128 * op.u "D" 128 * 4)

end StateOp

/-! ### The table of the emitter -/

/-- The texts of the errors. SOURCE: wtop_emit.cpp:292, 315, 324 -/
inductive StateError where
  | missingStateIdx (name : StateOpName)
  | sizeConflict (gid before now : UInt32)
  | gap (i n : ℕ)
  deriving DecidableEq

/-- One operator of the pass. SOURCE: wtop_emit.cpp:279-319 -/
def addState (stBytes : List (UInt32 × UInt32)) (op : StateOp) :
    Checked StateError (List (UInt32 × UInt32)) :=
  match op.stateBytes with
  | none => .ok stBytes
  | some b =>
    let si := op.u "state_idx" 0xFFFFFFFF
    if si = 0xFFFFFFFF then .error (.reject (.missingStateIdx op.name))
    else
      let gid := decodeStateGid op.name si
      match stBytes.lookup gid with
      | none => .ok (stBytes ++ [(gid, b)])
      | some b' => if b' = b then .ok stBytes else .error (.reject (.sizeConflict gid b' b))

/-- The entries of the table from 0 on; the first one that is missing is an error.
SOURCE: wtop_emit.cpp:321-330 -/
def tableSizes (stBytes : List (UInt32 × UInt32)) : Checked StateError (List UInt32) :=
  (List.range stBytes.length).mapM fun i =>
    match stBytes.lookup (UInt32.ofNat i) with
    | none => .error (.reject (.gap i stBytes.length))
    | some b => .ok b

/-- The words of the state slot, if there is one. SOURCE: wtop_emit.cpp:277-336 -/
def stateSlot (ops : List StateOp) : Checked StateError (Option (List UInt32)) := do
  let stBytes ← ops.foldlM addState []
  if stBytes = [] then pure none
  else do
    let sizes ← tableSizes stBytes
    pure (some (UInt32.ofNat stBytes.length :: sizes))

/-! ### The ops of the emitter -/

/-- The reference to the state. SOURCE: op_decode_state.cpp:61, 74, 91, 112 -/
def StateOp.stateRef (op : StateOp) : UInt32 := 0x6000 ||| op.gid

/-- The arguments of `OP_KV_GATHER_F16`. -/
structure GatherArgs where
  stateRef : UInt32
  kOut : UInt32
  vOut : UInt32
  nKv : UInt32
  nHeads : UInt32
  kvHeads : UInt32
  hd : UInt32

/-- The face goes to the temp `outT` of the operator. SOURCE: op_decode_state.cpp:67-80 -/
def opKvGather (op : StateOp) (outT : UInt32) : GatherArgs where
  stateRef := op.stateRef
  kOut := if op.name = .kvGatherKT then outT else 0
  vOut := if op.name = .kvGatherKT then 0 else outT
  nKv := wtKvPosAuto
  nHeads := op.u "n_heads" 8
  kvHeads := op.u "kv_heads" 2
  hd := op.u "head_dim" 256

/-- An operator and the temps when its handler is called; `fresh_temp` ends the emitter when there
are too many. SOURCE: wtop_ops.hpp:141-185 -/
structure EmittedOp where
  op : StateOp
  temps : Desk ℕ
  taken_lt : temps.taken < 32768

/-- The temp of the output. SOURCE: wtop_ops.hpp:142-144 -/
def EmittedOp.outT (e : EmittedOp) : UInt32 := UInt32.ofNat e.temps.taken

/-! ### The device -/

/-- SOURCE: oplist_parse.h, WT_MAX_STATES -/
def maxStates : UInt32 := 64

/-- The buffers of `n` states; `memalign` says which sizes are granted.
SOURCE: oplist_exec.c:2084-2095 -/
def allocStates (memalign : UInt32 → Bool) : ℕ → List UInt32 → Checked String (List UInt32)
  | 0, _ => .ok []
  | _ + 1, [] => .error .fault
  | n + 1, bytes :: rest => do
    ensure (bytes ≠ 0 ∧ bytes ≤ 0x40000000) "state %u bytes bad %u"
    ensure (memalign bytes = true) "state %u alloc %u"
    let l ← allocStates memalign n rest
    pure (bytes :: l)

/-- The sizes of the states that are made from the slot, on a device that has none yet.
SOURCE: oplist_exec.c:2071-2101, wt_exec_load_states -/
def loadStates (memalign : UInt32 → Bool) : Option (List UInt32) → Checked String (List UInt32)
  | none => .ok []
  | some [] => .error (.reject "state slot short")
  | some (n :: words) => do
    ensure (n ≠ 0 ∧ n ≤ maxStates ∧ 4 + n * 4 ≤ UInt32.ofNat (4 + 4 * words.length))
      "state slot table bad (n=%u len=%u)"
    allocStates memalign n.toNat words

/-- Whether a word is taken for a reference to a state. SOURCE: oplist_exec.c:2121, 2247, 2275 -/
def IsStateRef (w : UInt32) : Prop := w &&& 0xE000 = 0x6000

instance (w : UInt32) : Decidable (IsStateRef w) := inferInstanceAs (Decidable (_ = _))

/-- The state of a reference. SOURCE: oplist_exec.c:2125, 2250, 2278 -/
def deviceIdx (w : UInt32) : ℕ := (w &&& 0x1FFF).toNat

/-- `OP_KV_GATHER_F16` on the device. -/
def execGather (env : KvEnv) (a : GatherArgs) : Kv Unit :=
  execKvGather env a.stateRef a.kOut a.vOut a.nKv a.nHeads a.kvHeads a.hd

end Gehtp.Model.DecodeState
