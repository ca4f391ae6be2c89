import Gehtp.Model.GraphBin

/-!
# Reading the binary back

The walk over the records and what each of them does to the object. The object is not looked
at while the records are read, so the records are read first, up to the end marker, and then
applied in their order.
-/

set_option autoImplicit false

namespace Gehtp.Model.Deserialize

open Lib Model.OpExtra Model.GraphBin

/-! ### Tags. SOURCE: serializer.hpp:107-137 -/

def tagBinHeader : UInt32 := 0x4845
def tagGraphHeader : UInt32 := 0x4748
def tagSpillFillOp : UInt32 := 0x5346
def tagPlanOrder : UInt32 := 0x504C
def tagMemPlan : UInt32 := 0x4D50
def tagConstExtent : UInt32 := 0x4345
def tagConstData : UInt32 := 0xCF56
def tagBlockTable : UInt32 := 0x4254
def tagSegmentPlan : UInt32 := 0x5347
def tagIoTensorDesc : UInt32 := 0x494F
def tagOpRecord : UInt32 := 0x4F50
def separatorNormal : UInt32 := 0xFA0000FA
def separatorAux : UInt32 := 0xFA0000FE
def separatorEnd : UInt32 := 0xBEEFF00D

/-- What a record says. Records without an effect on the object are `skip`. -/
inductive Record where
  | skip
  | spillFill (r : SpillFillRec)
  | planOrder (ids : List UInt64)
  | memPlan (mp : MemPlan)
  | constExtents (l : List ConstExtent)
  | constPool (l : List UInt8)
  | blockTable (l : List BlockEntry)
  | segmentPlans (l : List SegmentPlan)
  | io (kind : UInt32) (od : OpDef)
  | op (name : List UInt8) (od : OpDef)
  deriving DecidableEq

/-- The tag of a record header. SOURCE: graph_prepare.cpp:2605-2606 -/
def tagOf (word : UInt32) : UInt32 := (word ^^^ 0xFFFF) &&& 0xFFFF

/-- Read the record of `size` bytes at `rec`. SOURCE: graph_prepare.cpp:2608-2825 -/
def rdRecord (b : Buf) (tag : UInt32) (rec size : ℕ) : Checked Unit Record :=
  if tag = tagBinHeader then do
    let numGraphs ← rdU32 b rec
    let _ ← rdBytes b (rec + 4) 36
    if numGraphs = 0 ∨ 100 < numGraphs then .error (.reject ()) else pure .skip
  else if tag = tagGraphHeader then do
    let _ ← rdU32 b rec
    pure .skip
  else if tag = tagSpillFillOp then
    if size < 28 then pure .skip
    else do
      let r ← rdSpillFill b rec
      pure (.spillFill r)
  else if tag = tagPlanOrder then
    if size < 4 then pure .skip
    else do
      let cnt ← rdU32 b rec
      let ids ← rdWhile (rdPlanId b) 4 (rec + size) cnt.toNat (rec + 4)
      pure (.planOrder ids)
  else if tag = tagMemPlan then do
    let mp ← rdMemPlan b rec size
    match mp with
    | none => pure .skip
    | some mp => pure (.memPlan mp)
  else if tag = tagConstExtent then do
    let l ← rdTable (rdConstExtent b) 32 (size / 32) rec
    pure (.constExtents l)
  else if tag = tagConstData then do
    let l ← rdBytes b rec size
    pure (.constPool l)
  else if tag = tagBlockTable then do
    let l ← rdTable (rdBlockEntry b) 24 (size / 24) rec
    pure (.blockTable l)
  else if tag = tagSegmentPlan then do
    let l ← rdTable (rdSegmentPlan b) 24 (size / 24) rec
    pure (.segmentPlans l)
  else if tag = tagIoTensorDesc then do
    let d ← rdIoDesc b rec
    pure (.io d.1 d.2)
  else if tag = tagOpRecord then do
    let d ← rdOpRecord b rec (rec + size)
    pure (.op d.1 d.2)
  else pure .skip

/-- The bytes of a record by its header. SOURCE: graph_prepare.cpp:2594 -/
def dataSize (wordCount : UInt32) : ℕ := wordCount.toNat * 4

/-- The walk over the records from `p` on; the number of rounds is bounded by the bytes.
SOURCE: graph_prepare.cpp:2581-2825 -/
def rdRecords (b : Buf) : (fuel p : ℕ) → Checked Unit (List Record)
  | 0, _ => .error .hang
  | fuel + 1, p =>
    if b.size ≤ p then pure []
    else do
      let word0 ← rdU32 b p
      if word0 = separatorNormal ∨ word0 = separatorAux then rdRecords b fuel (p + 4)
      else if word0 = separatorEnd then pure []
      else do
        let wordCount ← rdU32 b (p + 4)
        let _ ← rdU32 b (p + 8)
        if b.size - (p + 12) < dataSize wordCount then .error (.reject ())
        else do
          let r ← rdRecord b (tagOf word0) (p + 12) (dataSize wordCount)
          let rest ← rdRecords b fuel (p + 12 + dataSize wordCount)
          pure (r :: rest)

/-! ### The object -/

def Record.apply (gp : GraphPrepare) : Record → GraphPrepare
  | .skip => gp
  | .spillFill r => { gp with spillFillRecs := gp.spillFillRecs ++ [r] }
  | .planOrder ids => { gp with planOrder := ids }
  | .memPlan mp => { gp with memPlan := mp, hasMemPlan := true }
  | .constExtents l => { gp with constExtents := l }
  | .constPool l => { gp with constPool := l }
  | .blockTable l => { gp with blockTable := l }
  | .segmentPlans l => { gp with segmentPlans := l }
  | .io kind od =>
    if kind = 0 then { gp with inputNodeId := od.opId, opdefs := insertOp gp.opdefs od }
    else { gp with outputNodeId := od.opId, opdefs := insertOp gp.opdefs od }
  | .op name od => { gp with
      inputNodeId := if name = ascii "Input" then od.opId else gp.inputNodeId
      outputNodeId := if name = ascii "Output" then od.opId else gp.outputNodeId
      opdefs := insertOp gp.opdefs od
      nextOpId := if gp.nextOpId ≤ od.opId then od.opId + 1 else gp.nextOpId }

/-- The start of the rebuild. SOURCE: graph_prepare.cpp:2564-2576 -/
def reset (gp : GraphPrepare) : GraphPrepare := { gp with
  opdefs := []
  constPool := []
  constExtents := []
  blockTable := []
  segmentPlans := []
  inputNodeId := 0
  outputNodeId := 0
  nextOpId := 1 }

def consumersOf (l : List OpDef) (id : UInt64) : List UInt64 :=
  l.flatMap fun od => (od.inputs.filter fun c => decide (c.srcId = id)).map fun _ => od.opId

/-- SOURCE: graph_prepare.cpp:2828-2837 -/
def rebuildConsumers (l : List OpDef) : List OpDef :=
  l.map fun od => { od with consumers := od.consumers ++ consumersOf l od.opId }

def rebuild (gp : GraphPrepare) (records : List Record) : GraphPrepare :=
  let gp' := records.foldl Record.apply (reset gp)
  { gp' with opdefs := rebuildConsumers gp'.opdefs }

/-- SOURCE: graph_prepare.cpp:2561-2877, GraphPrepare::deserialize -/
def deserialize (b : Buf) (gp : GraphPrepare) : Checked Unit GraphPrepare := do
  ensure (4 ≤ b.size) ()
  let records ← rdRecords b (b.size + 1) 0
  pure (rebuild gp records)

end Gehtp.Model.Deserialize
