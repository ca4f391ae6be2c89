import Gehtp.Lib.Lease
import Gehtp.Model.OplistExec

/-!
# References in the arguments of an op

The emitter writes temp ids, slot ids and slot ids with the flag 0x8000 as arguments
(`compiler/tools/wtop_ops`), and each handler of the device takes an argument in its own way
(`kernels/src/runtime/oplist_exec.c`): as a reference, as the temp to write, as a slot. The two
tables below say, op by op, what the one writes and how the other takes it.
-/

set_option autoImplicit false

namespace Gehtp.Model.RefEmit

open Lib.Lease Model.OplistParse Model.OplistExec

/-! ### The device -/

/-- What the device takes an argument for; `noFace` is a face that a gather leaves out. -/
inductive Target where
  | temp (t : ℕ)
  | vtcm (t : ℕ)
  | slot (s : ℕ)
  | state (i : ℕ)
  | surface (i : ℕ)
  | noFace
  | null
  deriving DecidableEq

/-- How a handler takes an argument: `ref_ptr`, `temp_get`, `temp_get` unless it is 0, an index
of the slot table, the same after a mask, a slot or a VTCM resident, a reference whose length is
looked up in the slot table, an end of a DMA transfer, the destination of a fill, a number, or not
at all. -/
inductive Role where
  | ref | dst | dstUnlessZero | slot | slotLow | slotOrVtcm | refAndSlot | dma | fillDst | number
  | dropped
  deriving DecidableEq

/-- SOURCE: oplist_exec.c:189-203, ref_ptr -/
def refTarget (w : UInt32) : Target :=
  if w &&& 0x8000 ≠ 0 then .slot (w &&& 0x7FFF).toNat
  else if w &&& 0xE000 = 0x6000 then .state (w &&& 0x1FFF).toNat
  else if w &&& 0x4000 ≠ 0 then
    if (w &&& 0x3FFF).toNat < maxTemps then .vtcm (w &&& 0x3FFF).toNat else .null
  else if w.toNat < maxTemps then .temp w.toNat
  else .null

/-- SOURCE: oplist_exec.c:257-258, temp_get -/
def dstTarget (w : UInt32) : Target := if w.toNat < maxTemps then .temp w.toNat else .null

/-- SOURCE: oplist_exec.c:886-934, dma_ref_resolve -/
def dmaTarget (w : UInt32) : Target :=
  if w &&& 0xC000 = 0xC000 then .surface (w &&& 0xFF).toNat
  else if w &&& 0x8000 ≠ 0 then .slot (w &&& 0x7FFF).toNat
  else if w &&& 0x4000 ≠ 0 then
    if (w &&& 0x3FFF).toNat < maxTemps then .vtcm (w &&& 0x3FFF).toNat else .null
  else dstTarget w

/-- What a handler takes the word `w` for. -/
def Role.targets (w : UInt32) : Role → List Target
  | .ref => [refTarget w]
  | .dst => [dstTarget w]
  | .dstUnlessZero => [if w ≠ 0 then dstTarget w else .noFace]
  | .slot => [.slot w.toNat]
  | .slotLow => [.slot (w &&& 0x7FFF).toNat]
  | .slotOrVtcm => [if w &&& 0x4000 ≠ 0 then .vtcm (w &&& 0x3FFF).toNat else .slot w.toNat]
  | .refAndSlot => [refTarget w, .slot (w &&& 0x7FFF).toNat]
  | .dma => [dmaTarget w]
  | .fillDst => [if w &&& 0x8000 ≠ 0 then .slot (w &&& 0x7FFF).toNat else dstTarget w]
  | .number => []
  | .dropped => [.null]

/-- The references among the first arguments of an op that the emitter writes; `sub` is argument
4, which makes `OP_BINARY_F16` a selection. Of the eight sources of `OP_CONCAT_F16` the device takes
the first four. SOURCE: oplist_exec.c:438-2281 -/
def deviceRoles (sub : UInt32) : Opcode → List Role
  | .matmulW4A16 => [.slotOrVtcm, .slot, .dst]
  | .im2col => [.ref, .dst]
  | .conv2dF16 => [.ref, .slot, .slot, .dst]
  | .addF16 => [.ref, .ref, .dst]
  | .spill => [.ref, .slot]
  | .fill => [.slot, .number, .fillDst]
  | .dma => [.dma, .dma]
  | .padF16 => [.ref, .dst]
  | .unaryF16 => [.ref, .dst]
  | .binaryF16 => if sub = 8 then [.ref, .ref, .ref, .dst] else [.ref, .ref, .dst]
  | .softmaxF16 => [.ref, .dst]
  | .concatF16 => [.ref, .ref, .ref, .ref, .dropped, .dropped, .dropped, .dropped, .dst]
  | .stridedSliceF16 => [.ref, .dst]
  | .splitF16 => [.ref, .dst]
  | .reduceF16 => [.ref, .dst]
  | .cumsumF32 => [.ref, .dst]
  | .conv1dSsmF16 => [.ref, .slot, .dst]
  | .gatherF16 => [.ref, .ref, .dst]
  | .scatterNdF16 => [.ref, .ref, .ref, .dst]
  | .kvAppendF16 => [.ref, .ref]
  | .kvGatherF16 => [.number, .dstUnlessZero, .dstUnlessZero]
  | .matmulF16 => [.ref, .ref, .dst]
  | .matmulF16Split => [.ref, .ref, .dst]
  | .rmsnorm2F16 => [.ref, .slotLow, .slotLow, .dst]
  | .broadcastF16 => [.ref, .dst]
  | .transposeGenF16 => [.ref, .dst]
  | .conv1dSsmStepF16 => [.ref, .refAndSlot, .dst]
  | .deltaChunkF16 => [.ref, .ref, .ref, .ref, .ref, .dst]
  | .nop | .pin | .rmsnormF16 | .siluF16 | .transposeF16 | .argmaxF16 => []

/-! ### The emitter -/

/-- The form of an argument. -/
inductive ArgForm where
  | temp | slotRef | slotId
  | number (w : UInt32)
  deriving DecidableEq

/-- What the emitter writes at a place: a temp or a flagged slot, the same or a 0 for a missing
input, one of the two, a bare slot id, or a number with or without a value that is told apart. -/
inductive ArgKind where
  | ref | refOrZero | temp | slotRef | slotId | number
  | numberIs (w : UInt32)
  | numberIsNot (w : UInt32)
  deriving DecidableEq

def ArgKind.allows : ArgKind → ArgForm → Bool
  | .ref, .temp | .ref, .slotRef | .temp, .temp | .slotRef, .slotRef | .slotId, .slotId => true
  | .refOrZero, .temp | .refOrZero, .slotRef | .refOrZero, .number _ | .number, .number _ => true
  | .numberIs w, .number v => decide (v = w)
  | .numberIsNot w, .number v => decide (v ≠ w)
  | _, _ => false

/-- The first arguments are those of the shape; the rest are numbers. -/
def fitsShape : List ArgKind → List ArgForm → Bool
  | [], fs => fs.all fun f => ArgKind.number.allows f
  | _ :: _, [] => false
  | k :: ks, f :: fs => k.allows f && fitsShape ks fs

/-- What the handlers of the emitter write. SOURCE: wtop_ops/op_concat.cpp:33,
op_conv2d.cpp:51-57, op_copy_sem.cpp:43-123, op_cumsum.cpp:22, op_decode_state.cpp:46-115,
op_dwconv.cpp:38, op_eltwise_binary.cpp:51-62, op_eltwise_ternary.cpp:41-50, op_gather.cpp:76,
op_isnan.cpp:26, op_matmul.cpp:15-97, op_reduce.cpp:89, op_rmsnorm.cpp:16, op_scatter_nd.cpp:64,
op_softmax.cpp:19, op_split.cpp:27, op_strided_slice.cpp:54-142, op_transpose.cpp:100,
op_unary.cpp:27, wtop_emit.cpp:525-558 -/
def emitShapes : Opcode → List (List ArgKind)
  | .matmulW4A16 => [[.ref, .slotRef, .temp]]
  | .im2col => [[.ref, .temp]]
  | .conv2dF16 => [[.temp, .slotId, .slotId, .temp]]
  | .addF16 => [[.ref, .ref, .temp]]
  | .spill => [[.temp, .slotId]]
  | .fill => [[.slotId, .number, .temp]]
  | .dma => [[.slotRef, .temp], [.temp, .slotRef]]
  | .padF16 => [[.ref, .temp]]
  | .unaryF16 => [[.ref, .temp]]
  | .binaryF16 => [[.ref, .ref, .temp, .number, .numberIsNot 8],
      [.ref, .ref, .ref, .temp, .numberIs 8]]
  | .softmaxF16 => [[.ref, .temp]]
  | .concatF16 => [[.refOrZero, .refOrZero, .refOrZero, .refOrZero, .refOrZero, .refOrZero,
      .refOrZero, .refOrZero, .temp]]
  | .stridedSliceF16 => [[.ref, .temp]]
  | .splitF16 => [[.ref, .temp], [.ref, .number]]
  | .reduceF16 => [[.ref, .temp]]
  | .cumsumF32 => [[.ref, .temp]]
  | .conv1dSsmF16 => [[.ref, .slotId, .temp]]
  | .gatherF16 => [[.ref, .ref, .temp]]
  | .scatterNdF16 => [[.ref, .slotRef, .ref, .temp]]
  | .kvAppendF16 => [[.ref, .ref]]
  | .kvGatherF16 => [[.number, .temp, .numberIs 0], [.number, .numberIs 0, .temp]]
  | .matmulF16 => [[.ref, .ref, .temp], [.ref, .slotId, .temp]]
  | .matmulF16Split => [[.ref, .ref, .temp], [.ref, .slotId, .temp]]
  | .rmsnorm2F16 => [[.ref, .slotId, .slotId, .temp]]
  | .broadcastF16 => [[.ref, .temp]]
  | .transposeGenF16 => [[.ref, .temp]]
  | .conv1dSsmStepF16 => [[.ref, .ref, .temp]]
  | .deltaChunkF16 => [[.ref, .ref, .ref, .ref, .ref, .temp]]
  | .nop | .pin | .rmsnormF16 | .siluF16 | .transposeF16 | .argmaxF16 => []

/-- Where the emitter takes a slot from: the input node `id`, a weight or an index constant, the
shared empty slot, made now or as it is, the spill pool, or the weights of the first convolution. -/
inductive SlotSource where
  | mainInput | input (id : ℕ) | weight (id : ℕ) | index (id : ℕ) | dummy | dummyNow | spillPool
  | convWeight | convBias

/-- An argument as a handler gives it; a temp is named by the key of its output. -/
inductive EmitArg where
  | temp (key : ℕ)
  | slotRef (src : SlotSource)
  | slotId (src : SlotSource)
  | number (w : UInt32)

def EmitArg.form : EmitArg → ArgForm
  | .temp _ => .temp
  | .slotRef _ => .slotRef
  | .slotId _ => .slotId
  | .number w => .number w

/-- An op as a handler gives it. -/
structure EmitOp where
  opcode : Opcode
  args : List EmitArg
  shape : ∃ sh ∈ emitShapes opcode, fitsShape sh (args.map EmitArg.form) = true

/-- An argument with what it stands for. -/
inductive WrittenArg where
  | temp (t : ℕ)
  | slotRef (s : ℕ)
  | slotId (s : ℕ)
  | number (w : UInt32)

namespace WrittenArg

def form : WrittenArg → ArgForm
  | .temp _ => .temp
  | .slotRef _ => .slotRef
  | .slotId _ => .slotId
  | .number w => .number w

/-- The word in the blob. SOURCE: wtop_ops.hpp:372-407 -/
def word : WrittenArg → UInt32
  | .temp t => UInt32.ofNat t
  | .slotRef s => 0x8000 ||| UInt32.ofNat s
  | .slotId s => UInt32.ofNat s
  | .number w => w

/-- What the emitter means. -/
def target : WrittenArg → Option Target
  | .temp t => some (.temp t)
  | .slotRef s | .slotId s => some (.slot s)
  | .number _ => none

end WrittenArg

/-- An op of the blob. -/
structure WrittenOp where
  opcode : Opcode
  args : List WrittenArg

/-- The part of `Emitter` that references come from. SOURCE: wtop_ops.hpp:89-116, 369-372 -/
structure Emitter where
  desk : Desk ℕ
  nSlots : ℕ
  inputSlots : ℕ → Option ℕ
  wslots : ℕ → Option ℕ
  i32Slots : ℕ → Option ℕ
  dummySlotId : ℕ
  spillPoolSlot : ℕ
  wSlot : ℕ
  bSlot : ℕ
  ops : List WrittenOp

def Emitter.new : Emitter := ⟨Desk.new, 0, fun _ => none, fun _ => none, fun _ => none, 0, 0, 0, 0, []⟩

/-- A slot of a constant is made once. SOURCE: wtop_ops.hpp:263-340, ensure_weight_slot -/
def ensureWeightSlot (em : Emitter) (id : ℕ) : ℕ × Emitter :=
  match em.wslots id with
  | some s => (s, em)
  | none => (em.nSlots,
      { em with nSlots := em.nSlots + 1, wslots := Function.update em.wslots id (some em.nSlots) })

/-- SOURCE: wtop_ops.hpp:345-364, ensure_i32_slot -/
def ensureI32Slot (em : Emitter) (id : ℕ) : ℕ × Emitter :=
  match em.i32Slots id with
  | some s => (s, em)
  | none => (em.nSlots,
      { em with
        nSlots := em.nSlots + 1, i32Slots := Function.update em.i32Slots id (some em.nSlots) })

/-- The slot of a source; `none` where the emitter ends.
SOURCE: wtop_ops.hpp:372-406, src_ref -/
def slotOf (em : Emitter) : SlotSource → Option (ℕ × Emitter)
  | .mainInput => some (0, em)
  | .input id => (em.inputSlots id).map fun s => (s, em)
  | .weight id => some (ensureWeightSlot em id)
  | .index id => some (ensureI32Slot em id)
  | .dummy =>
    if em.dummySlotId = 0 then
      some (em.nSlots, { em with nSlots := em.nSlots + 1, dummySlotId := em.nSlots })
    else some (em.dummySlotId, em)
  | .dummyNow => some (em.dummySlotId, em)
  | .spillPool => some (em.spillPoolSlot, em)
  | .convWeight => some (em.wSlot, em)
  | .convBias => some (em.bSlot, em)

/-- One argument. A temp that is not there ends the emitter.
SOURCE: wtop_ops.hpp:408-433, temp_of -/
def writeArg (em : Emitter) : EmitArg → Option (WrittenArg × Emitter)
  | .temp key => (em.desk.own key).map fun t => (.temp t, em)
  | .slotRef src => (slotOf em src).map fun r => (.slotRef r.1, r.2)
  | .slotId src => (slotOf em src).map fun r => (.slotId r.1, r.2)
  | .number w => some (.number w, em)

def writeArgs (em : Emitter) : List EmitArg → Option (List WrittenArg × Emitter)
  | [] => some ([], em)
  | a :: as => do
    let (w, em) ← writeArg em a
    let (ws, em) ← writeArgs em as
    pure (w :: ws, em)

/-- What the emitter does on the way to the blob. -/
inductive EmitCall where
  | addInput (ids : List ℕ)
  | addSlot
  | addSpillPool
  | convSlots (w : ℕ) (b : Option ℕ)
  | fresh (key : ℕ)
  | release (key : ℕ)
  | addOp (op : EmitOp)

/-- The slots of the first convolution. SOURCE: wtop_emit.cpp:410-429 -/
def convSlots (em : Emitter) (w : ℕ) (b : Option ℕ) : Emitter :=
  let r := ensureWeightSlot em w
  match b with
  | none => { r.2 with wSlot := r.1 }
  | some b =>
    let q := ensureWeightSlot r.2 b
    { q.2 with wSlot := r.1, bSlot := q.1 }

/-- One call. SOURCE: wtop_ops.hpp:130-185, 434-460, wtop_emit.cpp:143-272, 339-347 -/
def emitCall (em : Emitter) : EmitCall → Option Emitter
  | .addInput ids =>
    some { em with
      nSlots := em.nSlots + 1
      inputSlots := fun id => if id ∈ ids then some em.nSlots else em.inputSlots id }
  | .addSlot => some { em with nSlots := em.nSlots + 1 }
  | .addSpillPool => some { em with nSlots := em.nSlots + 1, spillPoolSlot := em.nSlots }
  | .convSlots w b => some (convSlots em w b)
  | .fresh key =>
    if 32768 < (em.desk.acquire key).next then none
    else some { em with desk := em.desk.acquire key }
  | .release key => some { em with desk := em.desk.release key }
  | .addOp op => do
    let (args, em) ← writeArgs em op.args
    pure { em with ops := em.ops ++ [⟨op.opcode, args⟩] }

def runCalls (em : Emitter) (calls : List EmitCall) : Option Emitter := calls.foldlM emitCall em

/-- The whole run; a blob with too many slots fails the check of the emitter.
SOURCE: wtop_emit.cpp:667-680, oplist_parse.c:95-96 -/
def emit (calls : List EmitCall) : Option Emitter := do
  let em ← runCalls Emitter.new calls
  if em.nSlots = 0 ∨ 4096 < em.nSlots then none else pure em

end Gehtp.Model.RefEmit
