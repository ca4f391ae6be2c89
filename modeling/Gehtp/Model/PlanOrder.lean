import Mathlib.Data.List.Sort
import Gehtp.Lib.Kahn
import Gehtp.Lib.Store
import Gehtp.Model.OpGraph

/-!
# The final execution order

The end of `do_prepare2_late` (`compiler/src/ir/graph_prepare.cpp`) sorts the plan
order topologically: one sweep over the plan order counts the inputs of each operator
and lists the successors of each, Kahn's algorithm takes ready operators from a stack,
and ids without an operator go to the end. `wtop_emit` does the same with an order in
which it finds a consumer before its producer.
-/

set_option autoImplicit false

namespace Gehtp.Model.PlanOrder

open Lib Model.OpGraph

/-- What the sweep has found: the keys of the in-degree map, the in-degrees, the
successors, and the ids without an operator.
SOURCE: graph_prepare.cpp:620-622, wtop_emit.cpp:456-458 -/
structure Sweep where
  seen : List ℕ
  indeg : ℕ → ℕ
  succ : ℕ → List ℕ
  orphans : List ℕ

/-- One input of the operator `id`: it counts if its source has been swept.
SOURCE: graph_prepare.cpp:627-628, wtop_emit.cpp:463-464 -/
def countInput (id : ℕ) (sw : Sweep) (c : InputConn) : Sweep :=
  if c.srcId ∈ sw.seen then
    { sw with
      indeg := Function.update sw.indeg id (sw.indeg id + 1)
      succ := Function.update sw.succ c.srcId (sw.succ c.srcId ++ [id]) }
  else sw

/-- One id of the plan order. SOURCE: graph_prepare.cpp:623-629, wtop_emit.cpp:459-465 -/
def sweepOp (g : OpMap) (sw : Sweep) (id : ℕ) : Sweep :=
  match g.getOpAt id with
  | none => { sw with orphans := sw.orphans ++ [id] }
  | some od =>
    od.inputs.foldl (countInput id)
      { sw with
        seen := if id ∈ sw.seen then sw.seen else sw.seen ++ [id]
        indeg := Function.update sw.indeg id 0 }

def sweep (g : OpMap) (order : List ℕ) : Sweep :=
  order.foldl (sweepOp g) ⟨[], fun _ => 0, fun _ => [], []⟩

/-- The ready operators in increasing order; the last one is on top of the stack.
SOURCE: graph_prepare.cpp:630-632, wtop_emit.cpp:466-468 -/
def readyOps (sw : Sweep) : List ℕ :=
  (sw.seen.filter fun id => decide (sw.indeg id = 0)).insertionSort (· ≤ ·)

/-- The work of the loop when it ends; no more rounds than ids are needed.
SOURCE: graph_prepare.cpp:633-640, wtop_emit.cpp:469-476 -/
def kahn (sw : Sweep) (rounds : ℕ) : Kahn.Work ℕ :=
  Kahn.drain sw.succ rounds ⟨(readyOps sw).reverse, sw.indeg, []⟩

/-- The sorted order, or the given one if the loop did not finish every operator.
SOURCE: graph_prepare.cpp:619-643, wtop_emit.cpp:455-480 -/
def kahnOrder (g : OpMap) (order : List ℕ) : List ℕ :=
  let sw := sweep g order
  let topo := (kahn sw order.length).done ++ sw.orphans
  if topo.length = order.length then topo else order

/-- The order that the preparation leaves. SOURCE: graph_prepare.cpp:614-643 -/
def finalizeOrder (g : OpMap) (planOrder : List ℕ) : List ℕ :=
  if planOrder = [] then planOrder else kahnOrder g planOrder

/-- The place of each id. SOURCE: wtop_emit.cpp:438-439 -/
def placeOf (order : List ℕ) : ℕ → Option ℕ := store (fun _ => none) order.zipIdx

/-- An input comes from an operator that stands later.
SOURCE: wtop_emit.cpp:444-447 -/
def inputLater (g : OpMap) (order : List ℕ) (id : ℕ) (c : InputConn) : Bool :=
  match placeOf order c.srcId, placeOf order id with
  | some p, some q => decide (q < p) && (g.getOpAt c.srcId).isSome
  | _, _ => false

/-- Some operator stands before one of its producers.
SOURCE: wtop_emit.cpp:440-453 -/
def violated (g : OpMap) (order : List ℕ) : Bool :=
  order.any fun id =>
    match g.getOpAt id with
    | none => false
    | some od => od.inputs.any (inputLater g order id)

/-- The order that the emitter uses. SOURCE: wtop_emit.cpp:431-481 -/
def emitOrder (g : OpMap) (planOrder : List ℕ) : List ℕ :=
  if violated g planOrder then kahnOrder g planOrder else planOrder

end Gehtp.Model.PlanOrder
