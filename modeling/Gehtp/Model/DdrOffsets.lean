import Gehtp.Model.OpGraph
import Gehtp.Model.FancyAllocator

/-!
# The memory plan

`GraphPrepare::compute_ddr_offsets` (`compiler/src/vtcm/ddr_offsets.cpp`) turns an
execution order into a memory plan. Every eligible operator asks for the bytes of
its output from its own position to the position after its last consumer; the
allocator fills the VTCM pool first, then the DDR pool, and what fits in neither
goes to a spill area in the order of the op ids.
-/

set_option autoImplicit false

namespace Gehtp.Model.DdrOffsets

open Lib Model.OpGraph Model.FancyAllocator

/-- An output with a place in a pool. SOURCE: graph_prepare.hpp, DdrTempEntry -/
structure DdrTempEntry where
  opId : ℕ
  offset : ℕ
  size : ℕ
  inVtcm : Bool
  deriving DecidableEq, Repr

/-- An output with a place in the spill area. SOURCE: graph_prepare.hpp, DdrSpillEntry -/
structure DdrSpillEntry where
  opId : ℕ
  offset : ℕ
  size : ℕ
  deriving DecidableEq, Repr

/-- What the planning pass writes out. -/
structure DdrPlan where
  entries : List DdrTempEntry
  cap : ℕ
  vtcmCap : ℕ
  spilled : List DdrSpillEntry
  spillTotal : ℕ
  deriving DecidableEq, Repr

/-- The outcome of the planning pass: a return of -1, the abort of the allocator,
or a plan. -/
inductive PlanOutcome where
  | noOrder
  | aborted
  | planned (plan : DdrPlan)
  deriving DecidableEq, Repr

/-- The operators whose outputs need memory. SOURCE: ddr_offsets.cpp:48-51 -/
def eligible (od : OpDef) : Bool :=
  od.isEnabled && !od.isDead && !od.isConst &&
    match od.nameTag with
    | none => false
    | some nm => nm != "Input" && nm != "Output"

/-- The bytes of an output, rounded up to 128. SOURCE: ddr_offsets.cpp:53-59 -/
def outputBytes (od : OutputDef) : ℕ :=
  let prod := od.shape.foldl (fun e d => (e * d) % 2 ^ 64) 1
  let elems := if prod = 0 then 1 else prod
  let es := if od.elementSize = 0 ∨ 4 < od.elementSize then 4 else od.elementSize
  (elems * es + 127) % 2 ^ 64 / 128 * 128

/-- The index of an id in the order, as a 32-bit number. An id that stands twice
has the last index. SOURCE: ddr_offsets.cpp:41-42 -/
def posOf (order : List ℕ) : ℕ → Option ℕ :=
  store (fun _ => none) (order.zipIdx.map fun e => (e.1, e.2 % 2 ^ 32))

/-- The number of ids as a 32-bit number. SOURCE: ddr_offsets.cpp:43 -/
def orderLen (order : List ℕ) : ℕ := order.length % 2 ^ 32

/-- The consumers that exist and are not dead. SOURCE: ddr_offsets.cpp:63-65 -/
def liveConsumers (g : OpMap) (od : OpDef) : List ℕ :=
  od.consumers.filter fun c =>
    match g.getOpAt c with
    | none => false
    | some c => !c.isDead

/-- The position after the last consumer, or the end of the order if there is none
or one is not in the order. SOURCE: ddr_offsets.cpp:61-72 -/
def lifeEndOf (g : OpMap) (order : List ℕ) (p : ℕ) (od : OpDef) : ℕ :=
  let live := liveConsumers g od
  if live = [] then orderLen order
  else live.foldl (fun le c =>
    match posOf order c with
    | some q => max le ((q + 1) % 2 ^ 32)
    | none => orderLen order) ((p + 1) % 2 ^ 32)

theorem outputBytes_lt (od : OutputDef) : outputBytes od < 2 ^ 64 := by
  exact (Nat.div_mul_le_self _ 128).trans_lt (Nat.mod_lt _ (by decide))

/-- The request of the operator at position `p`, if its output needs memory.
SOURCE: ddr_offsets.cpp:46-75 -/
def requestAt (g : OpMap) (order : List ℕ) (p id : ℕ) : Option AllocRequest :=
  match g.getOpAt id with
  | none => none
  | some od =>
    if eligible od then
      some ⟨od.opId, outputBytes od.outputDef, p % 2 ^ 32, lifeEndOf g order p od, outputBytes_lt _⟩
    else none

/-- The requests of all operators of the order. SOURCE: ddr_offsets.cpp:45-76 -/
def requests (g : OpMap) (order : List ℕ) : List AllocRequest :=
  order.zipIdx.filterMap fun e => requestAt g order e.2 e.1

/-- The entries of the requests that a pass of the allocator placed.
SOURCE: ddr_offsets.cpp:88-92, 98-101, 115-118 -/
def placedEntries (allocs : ℕ → Option AllocResult) (inVtcm : Bool) (reqs : List AllocRequest) :
    List DdrTempEntry :=
  reqs.filterMap fun r =>
    match allocs r.opId with
    | some res => if res.spilled then none else some ⟨r.opId, res.offset, r.size, inVtcm⟩
    | none => none

/-- The requests that a pass of the allocator did not place.
SOURCE: ddr_offsets.cpp:93, 102, 119 -/
def unplaced (allocs : ℕ → Option AllocResult) (reqs : List AllocRequest) : List AllocRequest :=
  reqs.filter fun r =>
    match allocs r.opId with
    | some res => res.spilled
    | none => true

/-- Spills one after the other. SOURCE: ddr_offsets.cpp:133-139 -/
def bumpSpills : ℕ → List AllocRequest → List DdrSpillEntry × ℕ
  | total, [] => ([], total)
  | total, r :: rest =>
    let p := bumpSpills ((total + r.size) % 2 ^ 64) rest
    (⟨r.opId, total, r.size⟩ :: p.1, p.2)

/-- The spill area. SOURCE: ddr_offsets.cpp:125-146 -/
def finalizeSpills (spillReqs : List AllocRequest) : List DdrSpillEntry × ℕ :=
  bumpSpills 0 (spillReqs.insertionSort fun a b => a.opId ≤ b.opId)

/-- The last pass: the DDR pool, then the spill area. -/
def planDdr (reqs : List AllocRequest) (cap vtcmCap : ℕ) (resident : List DdrTempEntry) :
    PlanOutcome :=
  match allocateWithLifetime reqs cap 128 with
  | none => .aborted
  | some allocs =>
    let spills := finalizeSpills (unplaced allocs reqs)
    .planned ⟨resident ++ placedEntries allocs false reqs, cap, vtcmCap, spills.1, spills.2⟩

/-- The sum of the sizes in 64 bits. SOURCE: ddr_offsets.cpp:78-79 -/
def totalSize (reqs : List AllocRequest) : ℕ :=
  reqs.foldl (fun t r => (t + r.size) % 2 ^ 64) 0

/-- The planning pass over the requests: the VTCM pool if it has bytes, then the
DDR pool. SOURCE: ddr_offsets.cpp:78-123 -/
def planRequests (reqs : List AllocRequest) (budget vtcmBudget : ℕ) : PlanOutcome :=
  let cap := if budget = 0 then totalSize reqs else budget
  if 0 < vtcmBudget then
    match allocateWithLifetime reqs vtcmBudget 128 with
    | none => .aborted
    | some vac => planDdr (unplaced vac reqs) cap vtcmBudget (placedEntries vac true reqs)
  else planDdr reqs cap vtcmBudget []

/-- The plan order, or the topological one when nothing was scheduled.
SOURCE: ddr_offsets.cpp:37-38 -/
def execOrder (planOrder ordering : List ℕ) : List ℕ :=
  if planOrder = [] then ordering else planOrder

/-- The planning pass. SOURCE: ddr_offsets.cpp:23-123 -/
def computeDdrOffsets (g : OpMap) (planOrder ordering : List ℕ) (budget vtcmBudget : ℕ) :
    PlanOutcome :=
  let order := execOrder planOrder ordering
  if order = [] then .noOrder else planRequests (requests g order) budget vtcmBudget

end Gehtp.Model.DdrOffsets
