import Gehtp.Lib.SplitPoints
import Gehtp.Model.OpGraph

/-!
# Supertiles

`compiler/src/vtcm/supertile.cpp`: the operators of a group are cut into segments that keep their
intermediate results in the fast memory, and a supertile is made of each segment. The segments come
from a dynamic program over `double` costs; the `double` arithmetic is a parameter.

The vector of supertiles is the accumulator of `applyFrom`, and a call of `apply` starts with an
empty one. That holds of the recursive call as well.
-/

set_option autoImplicit false

/-!
## The group graph of the memory planner

`compiler/src/vtcm/dp_group_graph.cpp`: the operators are put into groups that get memory together.
A group names its predecessors by their index in the vector of groups.
-/

namespace Gehtp.Model.DpGroupGraph

open Model.OpGraph

/-- SOURCE: dp_group_graph.hpp:19-39 -/
structure DPGroupNode where
  opIds : List ℕ := []
  vtcmRequirement : UInt64 := 0
  ddrRequirement : UInt64 := 0
  outputSize : UInt64 := 0
  predecessors : List ℕ := []
  successors : List ℕ := []
  isMerged : Bool := false
  isBroken : Bool := false
  layerId : ℤ := -1
  layerName : String := ""
  isInputGroup : Bool := false
  isPopular : Bool := false
  parentMaxSpill : UInt64 := 0
  deriving DecidableEq

/-- The bytes of a tensor; a dimension of zero counts as one, an element size of zero as four.
SOURCE: dp_group_graph.cpp:321-326 -/
def tensorBytes (od : OutputDef) : UInt64 :=
  let sz := od.shape.foldl (fun sz d => if d > 0 then sz * UInt64.ofNat d else sz) 1
  let esize := if od.elementSize ≠ 0 then UInt64.ofNat od.elementSize else 4
  sz * esize

end Gehtp.Model.DpGroupGraph

namespace Gehtp.Model.Supertile

open Lib Model.OpGraph Model.DpGroupGraph

/-- The `double` operations that the costs are made of. -/
structure DoubleOps (D : Type) where
  ofU64 : UInt64 → D
  zero : D
  inf : D
  isInf : D → Bool
  add : D → D → D
  sub : D → D → D
  div : D → D → D
  lt : D → D → Bool

/-- SOURCE: supertile.hpp:22-29 -/
structure SuperTile where
  opIds : List ℕ
  vtcmBase : UInt64 := 0
  ddrBase : UInt64 := 0
  numDmaRoundtrips : UInt32 := 1
  vtcmRequirement : UInt64 := 0
  ddrSaved : UInt64 := 0
  deriving DecidableEq

/-- SOURCE: supertile.hpp:32-37 -/
structure SuperTileGroup where
  opIds : List ℕ
  vtcmRequirement : UInt64 := 0
  ddrSaved : UInt64 := 0
  splitPoint : ℤ := -1
  deriving DecidableEq

/-- The bytes of the output of an operator; nothing if there is no such operator. -/
def opBytes (gp : OpMap) (oid : ℕ) : Option UInt64 :=
  (gp.getOpAt oid).map fun od => tensorBytes od.outputDef

/-- Add up the bytes of the outputs. SOURCE: supertile.cpp:236-249 -/
def computeVtcmNeed (gp : OpMap) (opIds : List ℕ) : UInt64 :=
  opIds.foldl (fun total oid => total + (opBytes gp oid).getD 0) 0

structure CostCalculatorAdapter where
  ddrBw : UInt64
  vtcmSize : UInt64

/-- SOURCE: supertile.cpp:14-55 -/
def CostCalculatorAdapter.mergeCost {D : Type} (F : DoubleOps D) (c : CostCalculatorAdapter)
    (gp : OpMap) (opIds : List ℕ) : D :=
  if opIds.length < 2 then F.zero
  else
    let intermediateSize := computeVtcmNeed gp opIds.dropLast
    let ddrSaved :=
      if c.ddrBw > 0 then F.div (F.ofU64 intermediateSize) (F.ofU64 c.ddrBw)
      else F.ofU64 intermediateSize
    let mergedVtcm := computeVtcmNeed gp opIds
    let maxIndividual := opIds.foldl (fun m oid =>
      let t := (opBytes gp oid).getD 0
      if t > m then t else m) 0
    let vtcmPenalty := F.ofU64 (mergedVtcm - maxIndividual)
    F.sub vtcmPenalty ddrSaved

structure TCMCalculatorAdapter where
  vtcmSize : UInt64

/-- SOURCE: supertile.cpp:61-75 -/
def TCMCalculatorAdapter.canMerge (c : TCMCalculatorAdapter) (gp : OpMap) (opIds : List ℕ) : Bool :=
  computeVtcmNeed gp opIds ≤ c.vtcmSize

structure SuperTileSolver where
  gp : OpMap
  vtcmSize : UInt64
  groups : List DPGroupNode
  costCalc : CostCalculatorAdapter
  tcmCalc : TCMCalculatorAdapter

/-- SOURCE: supertile.cpp:78-81 -/
def SuperTileSolver.init (gp : OpMap) (vtcmSize : UInt64) (groups : List DPGroupNode) :
    SuperTileSolver where
  gp := gp
  vtcmSize := vtcmSize
  groups := groups
  costCalc := ⟨48000000000, vtcmSize⟩
  tcmCalc := ⟨vtcmSize⟩

/-- The operators whose consumers are all among them, or outputs of the graph.
SOURCE: supertile.cpp:215-233 -/
def canSafelyMerge (gp : OpMap) (opIds : List ℕ) : Bool :=
  opIds.all fun oid =>
    match gp.getOpAt oid with
    | none => true
    | some od => od.consumers.all fun cid =>
      opIds.contains cid || ((gp.getOpAt cid).bind OpDef.nameTag == some "Output")

section Solve

variable {D : Type} (F : DoubleOps D) (s : SuperTileSolver)

/-- The costs of the dynamic program. -/
def DoubleOps.costs : SplitPoints.Costs D := ⟨F.inf, F.isInf, F.add, F.lt⟩

/-- The cost of the segment from `a` to `b`. SOURCE: supertile.cpp:119-123 -/
def costSeg (ops : List ℕ) (a b : ℕ) : D :=
  let seg := SplitPoints.slice ops (a, b)
  if s.tcmCalc.canMerge s.gp seg then s.costCalc.mergeCost F s.gp seg else F.inf

def MAX_K : ℕ := 16

/-- SOURCE: supertile.cpp:107-183 -/
def solveGroup (group : DPGroupNode) : List SuperTileGroup :=
  let ops := group.opIds
  let n := ops.length
  if n = 0 then []
  else
    let segs := SplitPoints.segments F.costs (costSeg F s ops) n (min n MAX_K)
    (segs.map (SplitPoints.slice ops)).map fun seg =>
      { opIds := seg, vtcmRequirement := computeVtcmNeed s.gp seg }

/-- SOURCE: supertile.cpp:88-104 -/
def solve : List SuperTileGroup :=
  s.groups.flatMap fun group =>
    if group.opIds.isEmpty then []
    else if group.opIds.length < 2 then
      [{ opIds := group.opIds, vtcmRequirement := group.vtcmRequirement }]
    else solveGroup F s group

end Solve

/-- The segment is made into a supertile as it is. SOURCE: supertile.cpp:193 -/
def Accepted (s : SuperTileSolver) (stg : SuperTileGroup) : Prop :=
  stg.vtcmRequirement ≤ s.vtcmSize ∧ canSafelyMerge s.gp stg.opIds = true

instance (s : SuperTileSolver) (stg : SuperTileGroup) : Decidable (Accepted s stg) :=
  inferInstanceAs (Decidable (_ ∧ _))

/-- SOURCE: supertile.cpp:194-199 -/
def SuperTileGroup.tile (stg : SuperTileGroup) : SuperTile where
  opIds := stg.opIds
  vtcmRequirement := stg.vtcmRequirement
  ddrSaved := stg.ddrSaved
  numDmaRoundtrips := 1

/-- SOURCE: supertile.cpp:202-207 -/
def SuperTileGroup.firstHalf (s : SuperTileSolver) (stg : SuperTileGroup) : SuperTileGroup :=
  let ops := stg.opIds.take (stg.opIds.length / 2)
  { opIds := ops, vtcmRequirement := computeVtcmNeed s.gp ops }

def SuperTileGroup.secondHalf (s : SuperTileSolver) (stg : SuperTileGroup) : SuperTileGroup :=
  let ops := stg.opIds.drop (stg.opIds.length / 2)
  { opIds := ops, vtcmRequirement := computeVtcmNeed s.gp ops }

/-- What a cut in two makes smaller. -/
def cutsLeft : List SuperTileGroup → ℕ
  | [] => 0
  | stg :: rest => (3 * stg.opIds.length - 2) + cutsLeft rest

theorem cutsLeft_rest (stg : SuperTileGroup) (rest : List SuperTileGroup) :
    Prod.Lex (· < ·) (· < ·) (cutsLeft rest, rest.length)
      (cutsLeft (stg :: rest), (stg :: rest).length) := by
  have hlen : rest.length < (stg :: rest).length := Nat.lt_succ_self _
  rcases Nat.lt_or_eq_of_le (Nat.le_add_left (cutsLeft rest) (3 * stg.opIds.length - 2)) with h | h
  · exact Prod.Lex.left _ _ h
  · rw [cutsLeft, ← h]
    exact Prod.Lex.right _ hlen

theorem cutsLeft_halves (s : SuperTileSolver) {stg : SuperTileGroup} (h : stg.opIds.length ≥ 2)
    (rest : List SuperTileGroup) :
    cutsLeft [stg.firstHalf s, stg.secondHalf s] < cutsLeft (stg :: rest) := by
  have hfirst : (stg.firstHalf s).opIds.length = stg.opIds.length / 2 := by
    show (stg.opIds.take _).length = _
    rw [List.length_take]
    omega
  have hsecond : (stg.secondHalf s).opIds.length = stg.opIds.length - stg.opIds.length / 2 :=
    List.length_drop
  simp only [cutsLeft, hfirst, hsecond]
  omega

/-- The loop of `apply` over the rest of the solution. SOURCE: supertile.cpp:189-210 -/
def applyFrom (s : SuperTileSolver) (supertiles : List SuperTile) :
    List SuperTileGroup → List SuperTile
  | [] => supertiles
  | stg :: rest =>
    if Accepted s stg then applyFrom s (supertiles ++ [stg.tile]) rest
    else if stg.opIds.length ≥ 2 then
      -- the call clears what was collected so far
      applyFrom s (applyFrom s [] [stg.firstHalf s, stg.secondHalf s]) rest
    else applyFrom s supertiles rest
  termination_by solution => (cutsLeft solution, solution.length)
  decreasing_by
    · exact cutsLeft_rest stg rest
    · rename_i hlen
      exact Prod.Lex.left _ _ (cutsLeft_halves s hlen rest)
    · exact cutsLeft_rest stg rest
    · exact cutsLeft_rest stg rest

/-- SOURCE: supertile.cpp:187-211 -/
def apply (s : SuperTileSolver) (solution : List SuperTileGroup) : List SuperTile :=
  applyFrom s [] solution

end Gehtp.Model.Supertile
