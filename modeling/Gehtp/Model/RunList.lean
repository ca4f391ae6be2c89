import Gehtp.Lib.Sequences
import Gehtp.Model.OpGraph

/-!
# The run list of the scheduler

`compiler/src/schedule/scheduler.cpp`: the run list has one step for each operator of the graph, and
for each paging plan of the memory planner a step that spills the tensor and one that fills it again.
The places of these two are looked up in the tensors of the plan.

The order that the st-cut scheduler finds is a parameter, so is the sort. An insertion past the end
of the steps is undefined; the model gives no run list then.
-/

set_option autoImplicit false

namespace Gehtp.Model.RunList

open Lib.Sequences Model.OpGraph

/-- SOURCE: context_binary_writer.hpp:42-47 -/
inductive OpRecordType where
  | compute | memory | sync | dma
  deriving DecidableEq

/-- SOURCE: context_binary_writer.hpp:133-142 -/
structure ScheduledOp where
  recordId : UInt32
  tensorId : UInt32
  type : OpRecordType
  f2 : UInt32
  blockRef : UInt32
  extras : List UInt32 := []
  kernelName : String := ""
  stepName : String
  deriving DecidableEq

/-- SOURCE: scheduler.hpp:13-21 -/
structure TensorInfo where
  tensorId : UInt32
  name : String
  isConst : Bool
  deriving DecidableEq

/-- SOURCE: scheduler.hpp:117-125 -/
structure Plan where
  ops : List ScheduledOp := []
  opNames : List String := []
  tensorNames : List String := []
  tensors : List TensorInfo := []
  opOrder : List UInt32 := []

def Plan.setOps (plan : Plan) (ops : List ScheduledOp) : Plan := { plan with ops := ops }

/-- SOURCE: cp_solver.hpp:192-201 -/
structure CPSpillFillPlan where
  spillPosition : ℕ
  fillPosition : ℕ
  vtcmOffset : UInt64
  vtcmOffsetSpill : UInt64
  ddrOffset : UInt64
  size : UInt64
  opId : ℕ
  deriving DecidableEq

/-- SOURCE: graph_prepare.hpp:208-212 -/
structure VtcmAllocEntry where
  offset : UInt64
  blockId : UInt32
  spilled : Bool

/-- The prepared graph. The positions of a paging plan count in `cpTopo`, the order in which the
planner was given its operators. -/
structure GraphPrepare where
  ops : OpMap
  ordering : List ℕ
  cpActive : Bool
  cpPlans : List CPSpillFillPlan
  cpTopo : List ℕ
  vtcmAllocations : ℕ → Option VtcmAllocEntry

/-- SOURCE: scheduler.hpp:154-162 -/
structure Scheduler where
  nextDmaTag : UInt32
  nextVtcmBlock : UInt32
  tensorBlockMap : UInt32 → Option UInt32

/-- SOURCE: scheduler.hpp:154-162 -/
def Scheduler.init : Scheduler := ⟨0x11, 0x19, fun _ => none⟩

/-- SOURCE: context_binary_writer.hpp:151-159 -/
def computeRecordId (stepIndex : UInt32) : UInt32 :=
  let pair := stepIndex / 2
  let base := (0x11 + 2 * pair) &&& 0x1F
  if stepIndex % 2 = 0 then base ||| 0x60 else ((base - 1) &&& 0x1F) ||| 0x60

/-- SOURCE: scheduler.cpp:100-106 -/
def allocVtcmBlock (st : Scheduler) (tensorId : UInt32) : Scheduler × UInt32 :=
  match st.tensorBlockMap tensorId with
  | some block => (st, block)
  | none =>
    ({ st with
        nextVtcmBlock := st.nextVtcmBlock + 1
        tensorBlockMap := fun t =>
          if t = tensorId then some st.nextVtcmBlock else st.tensorBlockMap t },
      st.nextVtcmBlock)

/-- SOURCE: scheduler.cpp:897-901 -/
structure Insertion where
  pos : ℕ
  isFill : Bool
  op : ScheduledOp

/-- SOURCE: scheduler.cpp:968-971 -/
def Insertion.less (a b : Insertion) : Bool :=
  if a.pos ≠ b.pos then decide (a.pos > b.pos) else a.isFill && !b.isFill

/-- `static_cast<int>` of a size. -/
def asInt (n : ℕ) : ℤ := Int.bmod n (2 ^ 32)

/-- The index of the first step of a tensor, or -1. SOURCE: scheduler.cpp:886-890 -/
def firstStepOf (ops : List ScheduledOp) (tid : UInt32) : ℤ :=
  match ops.findIdx? fun op => op.tensorId = tid with
  | some j => asInt j
  | none => -1

/-- The index of the last step of a tensor, or -1; the search starts at the last index as an `int`.
SOURCE: scheduler.cpp:891-895 -/
def lastStepOf (ops : List ScheduledOp) (tid : UInt32) : ℤ :=
  let n := (asInt ops.length).toNat
  match (ops.take n).reverse.findIdx? fun op => op.tensorId = tid with
  | some j => n - 1 - j
  | none => -1

section PagingPlan

variable (plan : Plan) (gp : GraphPrepare)

/-- The block of the paged tensor. SOURCE: scheduler.cpp:909-914 -/
def pagedBlock (st : Scheduler) (pl : CPSpillFillPlan) : Scheduler × UInt32 :=
  match gp.vtcmAllocations pl.opId with
  | none => allocVtcmBlock st (.ofNat pl.opId)
  | some e => if !e.spilled then (st, e.blockId) else allocVtcmBlock st (.ofNat pl.opId)

/-- Take a tag. SOURCE: scheduler.cpp:920-923 -/
def nextTag (st : Scheduler) : Scheduler × UInt32 :=
  let tag := max st.nextDmaTag 0x20
  ({ st with nextDmaTag := tag + 1 }, tag)

/-- SOURCE: scheduler.cpp:928-938 -/
def spillOp (pl : CPSpillFillPlan) (tag blockRef : UInt32) : ScheduledOp where
  recordId := 0
  tensorId := .ofNat pl.opId
  type := .dma
  f2 := tag
  blockRef := blockRef
  extras := [pl.ddrOffset.toUInt32, pl.vtcmOffsetSpill.toUInt32, pl.size.toUInt32]
  kernelName := "@DmaCheckpointSet"
  stepName := "CpSpill"

/-- SOURCE: scheduler.cpp:940-945 -/
def fillOp (pl : CPSpillFillPlan) (tag blockRef : UInt32) : ScheduledOp where
  recordId := 0
  tensorId := .ofNat pl.opId
  type := .dma
  f2 := tag
  blockRef := blockRef
  extras := [pl.ddrOffset.toUInt32, pl.vtcmOffset.toUInt32, pl.size.toUInt32]
  kernelName := "@DmaCheckpointSet"
  stepName := "CpFill"

/-- The step after which to spill; the head if there is no such step. SOURCE: scheduler.cpp:950-956 -/
def spillAt (pl : CPSpillFillPlan) : ℤ :=
  let anchor := match plan.tensors[pl.spillPosition]? with
    | some t => lastStepOf plan.ops t.tensorId
    | none => -1
  if anchor < 0 then 0 else anchor

/-- The step before which to fill; the tail if there is no such step. SOURCE: scheduler.cpp:953-958 -/
def fillAt (pl : CPSpillFillPlan) : ℤ :=
  let anchor := match plan.tensors[pl.fillPosition]? with
    | some t => firstStepOf plan.ops t.tensorId
    | none => -1
  let anchor := if anchor < 0 then asInt plan.ops.length else anchor
  if anchor ≤ spillAt plan pl then spillAt plan pl + 1 else anchor

/-- The two insertions of one paging plan. SOURCE: scheduler.cpp:906-961 -/
def planInsertions (st : Scheduler) (pl : CPSpillFillPlan) : Scheduler × List Insertion :=
  if pl.size = 0 then (st, [])
  else
    let (st, block) := pagedBlock gp st pl
    let blockRef := 0x1000 ||| (block &&& 0xFFF)
    let (st, tag) := nextTag st
    let (st, tag2) := nextTag st
    (st, [⟨(spillAt plan pl).toNat + 1, false, spillOp pl tag blockRef⟩,
      ⟨(fillAt plan pl).toNat, true, fillOp pl tag2 blockRef⟩])

/-- The loop over the paging plans. SOURCE: scheduler.cpp:905-962 -/
def collectInsertions : Scheduler → List CPSpillFillPlan → Scheduler × List Insertion
  | st, [] => (st, [])
  | st, pl :: pls =>
    let (st, ins) := planInsertions plan gp st pl
    let (st, rest) := collectInsertions st pls
    (st, ins ++ rest)

end PagingPlan

/-- SOURCE: scheduler.cpp:972-973 -/
def insertAll : List ScheduledOp → List Insertion → Option (List ScheduledOp)
  | ops, [] => some ops
  | ops, e :: ins =>
    if e.pos ≤ ops.length then insertAll (ops.take e.pos ++ e.op :: ops.drop e.pos) ins else none

/-- SOURCE: scheduler.cpp:975-977 -/
def renumber (ops : List ScheduledOp) : List ScheduledOp :=
  ops.mapIdx fun i op => { op with recordId := computeRecordId (.ofNat i) }

/-- SOURCE: scheduler.cpp:874-978 -/
def applyCpSpillFill (sort : StdSort Insertion.less) (st : Scheduler) (plan : Plan)
    (gp : GraphPrepare) : Option (Scheduler × Plan) :=
  if !gp.cpActive then some (st, plan)
  else if gp.cpPlans.isEmpty then some (st, plan)
  else
    let (st, ins) := collectInsertions plan gp st gp.cpPlans
    (insertAll plan.ops (sort.sort ins)).map fun ops => (st, plan.setOps (renumber ops))

/-- The operators that the walk over the ordering meets, with their ids.
SOURCE: scheduler.cpp:748-751, 771-776 -/
def GraphPrepare.live (gp : GraphPrepare) : List (ℕ × OpDef) :=
  gp.ordering.filterMap fun id =>
    (gp.ops.getOpAt id).bind fun od =>
      if !od.isEnabled || od.isDead then none else some (id, od)

/-- SOURCE: scheduler.cpp:753-766 -/
def tensorInfo (od : OpDef) : TensorInfo where
  tensorId := .ofNat od.opId
  name := od.nameTag.getD ""
  isConst := od.isConst

/-- The order of the st-cut scheduler, if it covers the operators. SOURCE: scheduler.cpp:789-801 -/
def orderIds (denseToId : List ℕ) (bestDense : Option (List ℕ)) : List UInt32 :=
  let orderIds := (bestDense.getD []).filterMap fun d => (denseToId[d]?).map UInt32.ofNat
  if bestDense.getD [] = [] ∨ orderIds.length ≠ denseToId.length ∨
      orderIds.dedup.length ≠ denseToId.length
  then denseToId.map UInt32.ofNat
  else orderIds

/-- SOURCE: scheduler.cpp:806-813 -/
def graphStep (i : ℕ) (t : TensorInfo) : ScheduledOp where
  recordId := computeRecordId (.ofNat i)
  tensorId := t.tensorId
  type := if t.isConst then .memory else .compute
  f2 := 0
  blockRef := 0
  stepName := t.name

/-- The plan before the paging steps. SOURCE: scheduler.cpp:741-816 -/
def basePlan (gp : GraphPrepare) (bestDense : Option (List ℕ)) : Plan :=
  let tensors := gp.live.map fun x => tensorInfo x.2
  { opOrder := orderIds (gp.live.map Prod.fst) bestDense
    ops := tensors.mapIdx graphStep
    opNames := (tensors.map TensorInfo.name).filter fun name => !name.isEmpty
    tensorNames := tensors.map TensorInfo.name }

/-- SOURCE: scheduler.cpp:741-821 -/
def schedule (sort : StdSort Insertion.less) (st : Scheduler) (gp : GraphPrepare)
    (bestDense : Option (List ℕ)) : Option (Scheduler × Plan) :=
  applyCpSpillFill sort st (basePlan gp bestDense) gp

end Gehtp.Model.RunList
