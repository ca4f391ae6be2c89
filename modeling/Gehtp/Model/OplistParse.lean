import Gehtp.Lib.Bytes

/-!
# The op-list blob and its parser

`wt_parse` (`kernels/src/runtime/oplist_parse.c`) reads the blob that the
compiler emits and the device runs: a 16-byte header, a table of slot records
(16 bytes each in version 1, 24 bytes in version 2), a list of ops with a fixed
number of 32-bit arguments per opcode, and the weight area at the next multiple
of 128 bytes. This file is that parser, with every read of the input buffer a
checked one. The constants, the opcode numbers, the arities and the table of
slot-reference positions are those of `kernels/include/oplist_parse.h`.
-/

set_option autoImplicit false

namespace Gehtp.Model.OplistParse

open Lib

/-- The opcodes of the format. SOURCE: oplist_parse.h:103-215 -/
inductive Opcode where
  | nop | matmulW4A16 | rmsnormF16 | pin | siluF16 | im2col | conv2dF16 | addF16
  | spill | fill | transposeF16 | unaryF16 | binaryF16 | softmaxF16 | concatF16
  | stridedSliceF16 | splitF16 | reduceF16 | cumsumF32 | conv1dSsmF16 | gatherF16
  | argmaxF16 | kvAppendF16 | kvGatherF16 | matmulF16 | rmsnorm2F16 | broadcastF16
  | transposeGenF16 | scatterNdF16 | conv1dSsmStepF16 | deltaChunkF16 | dma | padF16
  | matmulF16Split
  deriving DecidableEq, Repr

namespace Opcode

/-- The number of an opcode on the wire. -/
def code : Opcode → UInt16
  | nop => 0
  | matmulW4A16 => 1
  | rmsnormF16 => 2
  | pin => 3
  | siluF16 => 4
  | im2col => 5
  | conv2dF16 => 6
  | addF16 => 7
  | spill => 8
  | fill => 9
  | transposeF16 => 10
  | unaryF16 => 11
  | binaryF16 => 12
  | softmaxF16 => 13
  | concatF16 => 14
  | stridedSliceF16 => 15
  | splitF16 => 16
  | reduceF16 => 17
  | cumsumF32 => 18
  | conv1dSsmF16 => 19
  | gatherF16 => 20
  | argmaxF16 => 21
  | kvAppendF16 => 22
  | kvGatherF16 => 23
  | matmulF16 => 24
  | rmsnorm2F16 => 25
  | broadcastF16 => 26
  | transposeGenF16 => 27
  | scatterNdF16 => 28
  | conv1dSsmStepF16 => 29
  | deltaChunkF16 => 30
  | dma => 33
  | padF16 => 34
  | matmulF16Split => 35

/-- The opcodes in the order of their numbers. -/
def all : List Opcode :=
  [nop, matmulW4A16, rmsnormF16, pin, siluF16, im2col, conv2dF16, addF16, spill, fill,
    transposeF16, unaryF16, binaryF16, softmaxF16, concatF16, stridedSliceF16, splitF16,
    reduceF16, cumsumF32, conv1dSsmF16, gatherF16, argmaxF16, kvAppendF16, kvGatherF16,
    matmulF16, rmsnorm2F16, broadcastF16, transposeGenF16, scatterNdF16, conv1dSsmStepF16,
    deltaChunkF16, dma, padF16, matmulF16Split]

/-- The opcode with a given number; the unknown numbers are those on which the
source's `arity_of` returns -1. -/
def ofCode (c : UInt16) : Option Opcode := all.find? fun o => o.code == c

theorem ofCode_code (o : Opcode) : ofCode o.code = some o := by
  cases o <;> rfl

end Opcode

/-- The number of arguments of an opcode. SOURCE: oplist_parse.c:10-48 -/
def arityOf : Opcode → ℕ
  | .nop => 0
  | .matmulW4A16 => 6
  | .rmsnormF16 => 4
  | .pin => 1
  | .siluF16 => 3
  | .im2col => 15
  | .conv2dF16 => 13
  | .addF16 => 4
  | .spill => 4
  | .fill => 4
  | .transposeF16 => 6
  | .unaryF16 => 4
  | .binaryF16 => 5
  | .softmaxF16 => 4
  | .concatF16 => 16
  | .stridedSliceF16 => 16
  | .splitF16 => 16
  | .reduceF16 => 9
  | .cumsumF32 => 7
  | .conv1dSsmF16 => 6
  | .gatherF16 => 15
  | .argmaxF16 => 3
  | .kvAppendF16 => 4
  | .kvGatherF16 => 7
  | .matmulF16 => 7
  | .rmsnorm2F16 => 5
  | .broadcastF16 => 12
  | .transposeGenF16 => 8
  | .scatterNdF16 => 14
  | .conv1dSsmStepF16 => 6
  | .deltaChunkF16 => 12
  | .dma => 8
  | .padF16 => 7
  | .matmulF16Split => 9

/-- Whether argument `idx` of an opcode is checked as a slot reference.
SOURCE: oplist_parse.c:51-84 -/
def argIsSlot : Opcode → ℕ → Bool
  | .matmulW4A16, idx => idx == 0 || idx == 1
  | .rmsnormF16, idx => idx == 1
  | .pin, idx => idx == 0
  | .conv2dF16, idx => idx == 1 || idx == 2
  | .spill, idx => idx == 1
  | .fill, idx => idx == 0
  | .unaryF16, idx => idx == 0
  | .binaryF16, idx => idx == 0 || idx == 1
  | .softmaxF16, idx => idx == 0
  | .concatF16, idx => idx ≤ 7
  | .stridedSliceF16, idx => idx == 0
  | .splitF16, idx => idx == 0
  | .reduceF16, idx => idx == 0
  | .cumsumF32, idx => idx == 0
  | .conv1dSsmF16, idx => idx == 0 || idx == 1
  | .gatherF16, idx => idx == 0 || idx == 1
  | .argmaxF16, idx => idx == 0
  | .kvAppendF16, idx => idx == 0 || idx == 1 || idx == 2
  | .kvGatherF16, idx => idx == 0 || idx == 1
  | .matmulF16, idx => idx == 0 || idx == 1
  | .rmsnorm2F16, idx => idx == 1 || idx == 2
  | .broadcastF16, idx => idx == 0
  | .transposeGenF16, idx => idx == 0
  | .scatterNdF16, idx => idx == 0 || idx == 1 || idx == 2
  | .dma, idx => idx == 0 || idx == 1
  | .padF16, idx => idx == 0
  | .matmulF16Split, idx => idx == 0 || idx == 1
  | .conv1dSsmStepF16, idx => idx == 0 || idx == 1
  | .deltaChunkF16, idx => idx ≤ 4
  | _, _ => false

/-- The error codes of `wt_parse`. SOURCE: oplist_parse.h:277-292 -/
inductive WtErr where
  | short | magic | ver | endian | nslots | nops | slotsOverrun | weightOverrun
  | opTrunc | opcode | arity | badRef | align
  deriving DecidableEq, Repr

def wtBlobVer : UInt16 := 1
def wtBlobVer2 : UInt16 := 2
def wtEndianChk : UInt16 := 0x1234
def wtMaxSlots : UInt32 := 4096
def wtMaxOps : UInt32 := 65536
def wtWeightAlign : UInt32 := 128

/-- The slot address tags: run-time input, static temp offsets, external
weights, persistent states. -/
def wtSlotExtIn : UInt32 := 0xFFFFFFFF
def wtSlotTempoff : UInt32 := 0xFFFFFFFD
def wtSlotExtWgt : UInt32 := 0xFFFFFFFC
def wtSlotState : UInt32 := 0xFFFFFFFB

/-- One entry of the slot table. SOURCE: oplist_parse.h:253-258 -/
structure WtSlot where
  len : UInt32
  count : UInt32
  offset : UInt64
  addr : UInt32
  deriving DecidableEq, Repr

/-- One op; it has as many arguments as its opcode takes.
SOURCE: oplist_parse.h:260-264 -/
structure WtOp where
  opcode : Opcode
  args : List UInt32
  arity : args.length = arityOf opcode
  deriving DecidableEq

/-- The parsed blob; `weight` is the memory between `weight_base` and the end of
the buffer. SOURCE: oplist_parse.h:266-275 -/
structure WtBlob where
  ver : UInt16
  slots : List WtSlot
  ops : List WtOp
  weightOff : UInt32
  weight : List UInt8
  deriving DecidableEq

/-- Round up to a multiple of `a`, in 32-bit arithmetic.
SOURCE: oplist_parse.c:6-8 -/
def alignUp (x a : UInt32) : UInt32 := a * ((x + a - 1) / a)

/-- The size of a slot record in a given version. -/
def slotRec (ver : UInt16) : ℕ := if wtBlobVer2 ≤ ver then 24 else 16

/-- Read the slot record at position `s`: four words in version 1, six words with
a two-word offset in version 2 (the last one is reserved and not read).
SOURCE: oplist_parse.c:103-113 -/
def rdSlot (buf : Buf) (ver : UInt16) (s : ℕ) : Checked WtErr WtSlot :=
  if wtBlobVer2 ≤ ver then do
    let len ← rdU32 buf s
    let count ← rdU32 buf (s + 4)
    let lo ← rdU32 buf (s + 8)
    let hi ← rdU32 buf (s + 12)
    let addr ← rdU32 buf (s + 16)
    pure ⟨len, count, u64OfHalves lo hi, addr⟩
  else do
    let len ← rdU32 buf s
    let count ← rdU32 buf (s + 4)
    let off ← rdU32 buf (s + 8)
    let addr ← rdU32 buf (s + 12)
    pure ⟨len, count, off.toUInt64, addr⟩

/-- Read slot record `i` and check it on its own. SOURCE: oplist_parse.c:102-120 -/
def parseSlot (buf : Buf) (ver : UInt16) (i : ℕ) : Checked WtErr WtSlot := do
  let slot ← rdSlot buf ver (16 + i * slotRec ver)
  ensure (slot.len ≠ 0) .weightOverrun
  ensure (slot.offset % wtWeightAlign.toUInt64 = 0) .align
  ensure (¬ (ver < wtBlobVer2 ∧ slot.offset + slot.len.toUInt64 > 0xFFFFFFFF)) .weightOverrun
  pure slot

/-- Read `n` argument words starting at position `p`. -/
def rdArgs (buf : Buf) : ℕ → (n : ℕ) → Checked WtErr {l : List UInt32 // l.length = n}
  | _, 0 => pure ⟨[], rfl⟩
  | p, n + 1 => do
    let x ← rdU32 buf p
    let l ← rdArgs buf (p + 4) n
    pure ⟨x :: l.1, by simp [l.2]⟩

/-- Read the op at position `p`. SOURCE: oplist_parse.c:125-136 -/
def parseOp (buf : Buf) (p : ℕ) : Checked WtErr WtOp := do
  ensure (p + 4 ≤ buf.size) .opTrunc
  let code ← rdU16 buf p
  let nArgs ← rdU16 buf (p + 2)
  match Opcode.ofCode code with
  | none => .error (.reject .opcode)
  | some opcode =>
    ensure (nArgs.toNat = arityOf opcode) .arity
    ensure (p + 4 + arityOf opcode * 4 ≤ buf.size) .opTrunc
    let args ← rdArgs buf (p + 4) (arityOf opcode)
    pure ⟨opcode, args.1, args.2⟩

/-- The op loop: read `n` ops from position `p` on and return them with the
position after the last one. SOURCE: oplist_parse.c:123-137 -/
def parseOps (buf : Buf) : (n p : ℕ) → Checked WtErr (List WtOp × ℕ)
  | 0, p => pure ([], p)
  | n + 1, p => do
    let op ← parseOp buf p
    let rest ← parseOps buf n (p + (4 + op.args.length * 4))
    pure (op :: rest.1, rest.2)

/-- The end of an inline slot is compared with the size of the weight area; the
sum is a 64-bit one. SOURCE: oplist_parse.c:144-149 -/
def checkSlotEnd (weightBytes : ℕ) (slot : WtSlot) : Checked WtErr Unit :=
  if slot.addr = wtSlotExtWgt then pure ()
  else ensure ((slot.offset + slot.len.toUInt64).toNat ≤ weightBytes) .weightOverrun

/-- The reference check of one argument: only values flagged with 0x8000 name
slots, and the engine surfaces of `OP_DMA` are exempt.
SOURCE: oplist_parse.c:153-165 -/
def checkRef (nSlots : ℕ) (opcode : Opcode) (arg : UInt32 × ℕ) : Checked WtErr Unit :=
  if argIsSlot opcode arg.2 = false then pure ()
  else if opcode = .dma ∧ arg.1 &&& 0xC000 = 0xC000 then pure ()
  else ensure (¬ (arg.1 &&& 0x8000 ≠ 0 ∧ nSlots ≤ (arg.1 &&& 0x7FFF).toNat)) .badRef

/-- Check every slot reference of an op. SOURCE: oplist_parse.c:150-167 -/
def checkRefs (nSlots : ℕ) (op : WtOp) : Checked WtErr Unit :=
  forM op.args.zipIdx (checkRef nSlots op.opcode)

/-- The first 16 bytes: magic, version, endianness, slot and op counts. -/
structure WtHeader where
  ver : UInt16
  nSlots : UInt32
  nOps : UInt32
  deriving DecidableEq, Repr

/-- Read and check the header. SOURCE: oplist_parse.c:87-96 -/
def parseHeader (buf : Buf) : Checked WtErr WtHeader := do
  ensure (16 ≤ buf.size) .short
  let m0 ← byteAt buf 0
  let m1 ← byteAt buf 1
  let m2 ← byteAt buf 2
  let m3 ← byteAt buf 3
  ensure (m0 = 87 ∧ m1 = 84 ∧ m2 = 79 ∧ m3 = 80) .magic
  let ver ← rdU16 buf 4
  ensure (ver = wtBlobVer ∨ ver = wtBlobVer2) .ver
  let eck ← rdU16 buf 6
  ensure (eck = wtEndianChk) .endian
  let nSlots ← rdU32 buf 8
  let nOps ← rdU32 buf 12
  ensure (nSlots ≠ 0 ∧ nSlots ≤ wtMaxSlots) .nslots
  ensure (nOps ≠ 0 ∧ nOps ≤ wtMaxOps) .nops
  pure ⟨ver, nSlots, nOps⟩

/-- The parser. SOURCE: oplist_parse.c:86-169 -/
def wtParse (buf : Buf) : Checked WtErr WtBlob := do
  let hdr ← parseHeader buf
  let need := 16 + hdr.nSlots.toNat * slotRec hdr.ver
  ensure (need ≤ buf.size) .slotsOverrun
  let slots ← (List.range hdr.nSlots.toNat).mapM (parseSlot buf hdr.ver)
  let opsEnd ← parseOps buf hdr.nOps.toNat need
  let weightOff := alignUp opsEnd.2.toUInt32 wtWeightAlign
  ensure (weightOff.toNat ≤ buf.size) .weightOverrun
  forM slots (checkSlotEnd (buf.size - weightOff.toNat))
  forM opsEnd.1 (checkRefs hdr.nSlots.toNat)
  pure ⟨hdr.ver, slots, opsEnd.1, weightOff, buf.bytes.drop weightOff.toNat⟩

end Gehtp.Model.OplistParse
