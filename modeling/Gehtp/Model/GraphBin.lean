import Gehtp.Lib.Wire
import Gehtp.Model.OpExtra

/-!
# The binary of a prepared graph

`GraphPrepare::deserialize` (`compiler/src/ir/graph_prepare.cpp`) walks over a stream of tagged
records and rebuilds the object from them. The walk checks that a record ends inside the
buffer; the readers of the records move cursors of their own, and a read outside of the buffer
is a fault.

The state is the part of the object that the records carry, with what the serializer reads
besides it. The execution objects that the op factory makes from the operators are not part of
it.
-/

set_option autoImplicit false

namespace Gehtp.Model.GraphBin

open Lib Model.OpExtra

/-! ### The object -/

/-- SOURCE: types.hpp:125-137, OutputDef -/
structure OutputDef where
  rank : UInt32
  dtype : UInt32
  flags : UInt32
  quantParams : UInt32
  dims : Vector UInt64 5
  elementSize : UInt64
  quantScale : UInt64
  quantOffset : UInt64
  extra : Vector UInt64 3
  deriving DecidableEq

/-- SOURCE: types.hpp:155-159, InputConn -/
structure InputConn where
  srcId : UInt64
  outIdx : UInt32
  deriving DecidableEq

/-- SOURCE: types.hpp:161-227, OpDef -/
structure OpDef where
  flags : UInt16
  opId : UInt64
  name : List UInt8
  outputDef : OutputDef
  flags2 : UInt32
  inputs : List InputConn
  consumers : List UInt64
  constDataOffset : UInt64
  constDataSize : UInt64
  opData : List UInt8
  serializedExtra : List UInt8
  grouping : List UInt8
  tensorParamIds : List UInt64
  deriving DecidableEq

/-- SOURCE: graph_prepare.hpp, ConstExtent -/
structure ConstExtent where
  opId : UInt64
  offset : UInt64
  size : UInt64
  deriving DecidableEq

/-- SOURCE: graph_prepare.hpp:68-73, SpillFillRec -/
structure SpillFillRec where
  opId : UInt64
  blockId : UInt32
  ddrOffset : UInt64
  size : UInt64
  deriving DecidableEq

/-- SOURCE: graph_prepare.hpp:360-366, MemPlanEntry -/
structure MemPlanEntry where
  opId : UInt64
  outIdx : UInt32
  offset : UInt64
  size : UInt64
  inVtcm : Bool
  deriving DecidableEq

/-- SOURCE: graph_prepare.hpp:367-371, MemPlanSpill -/
structure MemPlanSpill where
  opId : UInt64
  offset : UInt64
  size : UInt64
  deriving DecidableEq

/-- SOURCE: graph_prepare.hpp:372-378, MemPlan -/
structure MemPlan where
  ddrCap : UInt64
  vtcmCap : UInt64
  bumpReserve : UInt64
  entries : List MemPlanEntry
  spills : List MemPlanSpill
  deriving DecidableEq

/-- SOURCE: graph_prepare.hpp:469-474, BlockEntry -/
structure BlockEntry where
  blockId : UInt32
  poolId : UInt32
  offset : UInt64
  size : UInt64
  deriving DecidableEq

/-- SOURCE: graph_prepare.hpp:479-483, SegmentPlan -/
structure SegmentPlan where
  segmentIndex : UInt32
  opCount : UInt32
  byteOffset : UInt64
  deriving DecidableEq

/-- The object. `opdefs` is the map of operators, each under its own id.
SOURCE: graph_prepare.hpp:452-536, GraphPrepare -/
structure GraphPrepare where
  opdefs : List OpDef
  constPool : List UInt8
  constExtents : List ConstExtent
  blockTable : List BlockEntry
  segmentPlans : List SegmentPlan
  inputNodeId : UInt64
  outputNodeId : UInt64
  nextOpId : UInt64
  planOrder : List UInt64
  spillFillRecs : List SpillFillRec
  memPlan : MemPlan
  hasMemPlan : Bool
  deriving DecidableEq

/-- A new object. SOURCE: graph_prepare.hpp:452-536 -/
def GraphPrepare.new : GraphPrepare where
  opdefs := []
  constPool := []
  constExtents := []
  blockTable := []
  segmentPlans := []
  inputNodeId := 0
  outputNodeId := 0
  nextOpId := 1
  planOrder := []
  spillFillRecs := []
  memPlan := ⟨0, 0, 0, [], []⟩
  hasMemPlan := false

/-- `opdef_map_[op_id] = opdef`. -/
def insertOp (l : List OpDef) (od : OpDef) : List OpDef :=
  if l.any fun o => decide (o.opId = od.opId) then
    l.map fun o => if o.opId = od.opId then od else o
  else l ++ [od]

/-! ### Cursors -/

/-- The bytes up to the end of a record as a `size_t`: past the end the difference wraps.
SOURCE: graph_prepare.cpp:2478, BinReader::remaining -/
def remaining (fin p : ℕ) : ℕ := if p ≤ fin then fin - p else 2 ^ 64 - (p - fin)

/-- A length rounded up to whole words, in 32 bits. SOURCE: graph_prepare.cpp:2760, 2767 -/
def padded (n : UInt32) : UInt32 := (n + 3) &&& ~~~3

/-- `memcpy` of an output definition: 104 bytes. SOURCE: types.hpp:125-137 -/
def rdOutputDef (b : Buf) (p : ℕ) : Checked Unit OutputDef := do
  let rank ← rdU32 b p
  let dtype ← rdU32 b (p + 4)
  let flags ← rdU32 b (p + 8)
  let quantParams ← rdU32 b (p + 12)
  let d0 ← rdU64 b (p + 16)
  let d1 ← rdU64 b (p + 24)
  let d2 ← rdU64 b (p + 32)
  let d3 ← rdU64 b (p + 40)
  let d4 ← rdU64 b (p + 48)
  let elementSize ← rdU64 b (p + 56)
  let quantScale ← rdU64 b (p + 64)
  let quantOffset ← rdU64 b (p + 72)
  let x0 ← rdU64 b (p + 80)
  let x1 ← rdU64 b (p + 88)
  let x2 ← rdU64 b (p + 96)
  pure ⟨rank, dtype, flags, quantParams, #v[d0, d1, d2, d3, d4], elementSize, quantScale,
    quantOffset, #v[x0, x1, x2]⟩

/-! ### An op record -/

/-- An input of the list; its last word is not used. SOURCE: graph_prepare.cpp:2788-2793 -/
def rdInput (b : Buf) (p : ℕ) : Checked Unit InputConn := do
  let srcId ← rdU64 b p
  let outIdx ← rdU32 b (p + 8)
  let _ ← rdU32 b (p + 12)
  pure ⟨srcId, outIdx⟩

/-- The node name, if the record has one, and the position after it.
SOURCE: graph_prepare.cpp:2763-2774 -/
def rdGrouping (b : Buf) (fin p : ℕ) : Checked Unit (List UInt8 × ℕ) :=
  if 4 ≤ remaining fin p then do
    let grpLen ← rdU32 b p
    if (padded grpLen).toNat ≤ remaining fin (p + 4) then do
      let grp ← rdBytes b (p + 4) grpLen.toNat
      pure (grp, p + 4 + (padded grpLen).toNat)
    else pure ([], p)
  else pure ([], p)

/-- The trailing bytes of the parameters. SOURCE: graph_prepare.cpp:2799-2805 -/
def rdExtra (b : Buf) (fin p : ℕ) : Checked Unit (List UInt8 × ℕ) :=
  if 4 ≤ remaining fin p then do
    let elen ← rdU32 b p
    if elen ≠ 0 ∧ elen.toNat ≤ remaining fin (p + 4) then do
      let extra ← rdBytes b (p + 4) elen.toNat
      pure (extra, p + 4 + elen.toNat)
    else pure ([], p + 4)
  else pure ([], p)

/-- The ids of the parameter constants, at most 64. SOURCE: graph_prepare.cpp:2808-2815 -/
def rdTensorParams (b : Buf) (fin p : ℕ) : Checked Unit (List UInt64) :=
  if 4 ≤ remaining fin p then do
    let ntp ← rdU32 b p
    if ntp ≠ 0 ∧ ntp ≤ 64 ∧ ntp.toNat * 8 ≤ remaining fin (p + 4) then
      rdTable (rdU64 b) 8 ntp.toNat (p + 4)
    else pure []
  else pure []

/-- A C string ends before its first zero. -/
def cString (l : List UInt8) : List UInt8 := l.takeWhile (· ≠ 0)

/-- Read the op record of the bytes from `rec` to `fin`; the name of the record decides whether
it is an input or an output node. SOURCE: graph_prepare.cpp:2757-2816 -/
def rdOpRecord (b : Buf) (rec fin : ℕ) : Checked Unit (List UInt8 × OpDef) := do
  let nameLen ← rdU32 b rec
  let name ← rdBytes b (rec + 4) nameLen.toNat
  let grp ← rdGrouping b fin (rec + 4 + (padded nameLen).toNat)
  let p := grp.2
  let opId ← rdU64 b p
  let flags ← rdU16 b (p + 8)
  let _ ← rdU16 b (p + 10)
  let numInputs ← rdU32 b (p + 12)
  let inputs ← rdTable (rdInput b) 16 numInputs.toNat (p + 16)
  let q := p + 16 + numInputs.toNat * 16
  let outputDef ← rdOutputDef b q
  let constDataOffset ← rdU64 b (q + 104)
  let constDataSize ← rdU64 b (q + 112)
  let extra ← rdExtra b fin (q + 120)
  let tensorParamIds ← rdTensorParams b fin extra.2
  pure (name, {
    flags, opId, name := cString name, outputDef, flags2 := 0, inputs, consumers := [],
    constDataOffset, constDataSize
    opData := rebuildOpDataFromExtra (cString name) extra.1
    serializedExtra := extra.1, grouping := grp.1, tensorParamIds })

/-! ### The other records -/

/-- SOURCE: graph_prepare.cpp:2621-2632 -/
def rdSpillFill (b : Buf) (p : ℕ) : Checked Unit SpillFillRec := do
  let opId ← rdU64 b p
  let blockId ← rdU32 b (p + 8)
  let ddrOffset ← rdU64 b (p + 12)
  let size ← rdU64 b (p + 20)
  pure ⟨opId, blockId, ddrOffset, size⟩

/-- An id of the plan order. SOURCE: graph_prepare.cpp:2646 -/
def rdPlanId (b : Buf) (p : ℕ) : Checked Unit UInt64 := do
  let v ← rdU32 b p
  pure v.toUInt64

/-- SOURCE: graph_prepare.cpp:2662-2668 -/
def rdPlanEntry (b : Buf) (p : ℕ) : Checked Unit MemPlanEntry := do
  let opId ← rdU32 b p
  let outIdx ← rdU32 b (p + 4)
  let offset ← rdU32 b (p + 8)
  let size ← rdU32 b (p + 12)
  let flags ← rdU32 b (p + 16)
  pure ⟨opId.toUInt64, outIdx, offset.toUInt64, size.toUInt64, flags &&& 1 ≠ 0⟩

/-- SOURCE: graph_prepare.cpp:2677-2682 -/
def rdPlanSpill (b : Buf) (p : ℕ) : Checked Unit MemPlanSpill := do
  let opId ← rdU32 b p
  let offset ← rdU32 b (p + 4)
  let size ← rdU32 b (p + 8)
  let _ ← rdU32 b (p + 12)
  pure ⟨opId.toUInt64, offset.toUInt64, size.toUInt64⟩

/-- A table that ends with the record. SOURCE: graph_prepare.cpp:2645-2646 -/
def rdWhile {α : Type} (f : ℕ → Checked Unit α) (stride fin : ℕ) :
    (n p : ℕ) → Checked Unit (List α)
  | 0, _ => pure []
  | n + 1, p =>
    if remaining fin p < stride then pure []
    else do
      let a ← f p
      let rest ← rdWhile f stride fin n (p + stride)
      pure (a :: rest)

/-- A table whose entries are checked against the end of the record, none if one does not fit.
SOURCE: graph_prepare.cpp:2660-2669, 2675-2683 -/
def rdChecked {α : Type} (f : ℕ → Checked Unit α) (stride fin : ℕ) :
    (n p : ℕ) → Checked Unit (Option (List α))
  | 0, _ => pure (some [])
  | n + 1, p =>
    if remaining fin p < stride then pure none
    else do
      let a ← f p
      let rest ← rdChecked f stride fin n (p + stride)
      pure (rest.map (a :: ·))

/-- The memory plan, if the record holds one. SOURCE: graph_prepare.cpp:2650-2689 -/
def rdMemPlan (b : Buf) (rec size : ℕ) : Checked Unit (Option MemPlan) :=
  if size < 20 then pure none
  else do
    let ver ← rdU32 b rec
    if ver ≠ 1 then pure none
    else do
      let ddrCap ← rdU32 b (rec + 4)
      let vtcmCap ← rdU32 b (rec + 8)
      let bumpReserve ← rdU32 b (rec + 12)
      let ne ← rdU32 b (rec + 16)
      let entries ← rdChecked (rdPlanEntry b) 20 (rec + size) ne.toNat (rec + 20)
      match entries with
      | none => pure none
      | some entries =>
        let p := rec + 20 + ne.toNat * 20
        if remaining (rec + size) p < 4 then pure none
        else do
          let ns ← rdU32 b p
          let spills ← rdChecked (rdPlanSpill b) 16 (rec + size) ns.toNat (p + 4)
          pure (spills.map fun spills => ⟨ddrCap.toUInt64, vtcmCap.toUInt64,
            bumpReserve.toUInt64, entries, spills⟩)

/-- SOURCE: graph_prepare.cpp:2694-2701 -/
def rdConstExtent (b : Buf) (p : ℕ) : Checked Unit ConstExtent := do
  let opId ← rdU64 b p
  let offset ← rdU64 b (p + 8)
  let size ← rdU64 b (p + 16)
  let _ ← rdU64 b (p + 24)
  pure ⟨opId, offset, size⟩

/-- SOURCE: graph_prepare.cpp:2714-2721 -/
def rdBlockEntry (b : Buf) (p : ℕ) : Checked Unit BlockEntry := do
  let blockId ← rdU32 b p
  let poolId ← rdU32 b (p + 4)
  let offset ← rdU64 b (p + 8)
  let size ← rdU64 b (p + 16)
  pure ⟨blockId, poolId, offset, size⟩

/-- SOURCE: graph_prepare.cpp:2729-2736; the last eight bytes are skipped. -/
def rdSegmentPlan (b : Buf) (p : ℕ) : Checked Unit SegmentPlan := do
  let segmentIndex ← rdU32 b p
  let opCount ← rdU32 b (p + 4)
  let byteOffset ← rdU64 b (p + 8)
  pure ⟨segmentIndex, opCount, byteOffset⟩

/-- The operator of an input or output node. SOURCE: graph_prepare.cpp:2746-2751 -/
def ioOpDef (kind : UInt32) (opId : UInt64) (outputDef : OutputDef) : OpDef where
  flags := 1
  opId := opId
  name := ascii (if kind = 0 then "Input" else "Output")
  outputDef := outputDef
  flags2 := 0
  inputs := []
  consumers := []
  constDataOffset := 0
  constDataSize := 0
  opData := []
  serializedExtra := []
  grouping := []
  tensorParamIds := []

/-- SOURCE: graph_prepare.cpp:2739-2752 -/
def rdIoDesc (b : Buf) (p : ℕ) : Checked Unit (UInt32 × OpDef) := do
  let kind ← rdU32 b p
  let _ ← rdU32 b (p + 4)
  let opId ← rdU64 b (p + 8)
  let outputDef ← rdOutputDef b (p + 16)
  pure (kind, ioOpDef kind opId outputDef)

end Gehtp.Model.GraphBin
