import Gehtp.Lib.RowLoops
import Gehtp.Model.DeviceTensor

/-!
# CumulativeSum and Softmax on the device

`op_cumsum` and `op_softmax` (`compiler/tools/wtop_ops/`) reduce a shape and an axis to a number of
rows and the width of a row. `exec_cumsum` and `exec_softmax` (`kernels/src/runtime/oplist_exec.c`) go
through rows that lie one behind the other. The operations on 32-bit floats are parameters, and so is
the vectorised softmax of a row.
-/

set_option autoImplicit false

namespace Gehtp.Model.AxisRows

open Lib Model.OpGraph Model.DeviceTensor

/-- What the two operators read of the extra record. SOURCE: op_extra.hpp, ExtraAxis -/
structure ExtraAxis where
  axis : ℤ
  exclusive : ℕ
  reverse : ℕ
  deriving DecidableEq, Repr

/-- The operations on floats, with the vectorised softmax of a row, one element at a time. -/
structure FloatOps (F : Type) where
  widen : UInt16 → F
  narrow : F → UInt16
  zero : F
  add : F → F → F
  sub : F → F → F
  div : F → F → F
  max : F → F → F
  exp : F → F
  hvxSoftmax : List F → ℕ → F

/-! ### Emission -/

/-- A record that is too short counts as one of zeros. SOURCE: op_cumsum.cpp:10-12 -/
def readExtra (extra : Option ExtraAxis) : ExtraAxis := extra.getD ⟨0, 0, 0⟩

/-- Every negative axis stands for the last one. SOURCE: op_cumsum.cpp:16, op_softmax.cpp:16 -/
def axisOf (axis : ℤ) (rank : ℕ) : ℕ := if axis < 0 then u32 (rank + (2 ^ 32 - 1)) else axis.toNat

/-- The arguments after the two references. SOURCE: op_cumsum.cpp:22 -/
structure CumsumArgs where
  rows : ℕ
  n : ℕ
  ax : ℕ
  exclusive : ℕ
  reverse : ℕ
  deriving DecidableEq, Repr

/-- The arguments after the two references. SOURCE: op_softmax.cpp:19 -/
structure SoftmaxArgs where
  rows : ℕ
  n : ℕ
  deriving DecidableEq, Repr

/-- Divide the elements into rows of this width; a width of 0 is a division by zero. -/
def rowsOf (elems w : ℕ) : Checked String ℕ := if w = 0 then .error .fault else .ok (u32 (elems / w))

/-- SOURCE: op_cumsum.cpp, op_cumsum -/
def opCumsum (extra : Option ExtraAxis) (out : OutputDef) : Checked String CumsumArgs :=
  let e := readExtra extra
  let ax := axisOf e.axis out.rank
  if ax < out.rank then do
    let w ← entryAt out.dims.toList ax
    let rows ← rowsOf (elemsOf out) w
    .ok ⟨rows, u32 w, ax, e.exclusive, e.reverse⟩
  else .ok ⟨1, 1, ax, e.exclusive, e.reverse⟩

/-- SOURCE: op_softmax.cpp, op_softmax -/
def opSoftmax (extra : Option ExtraAxis) (out : OutputDef) : Checked String SoftmaxArgs := do
  let ax := axisOf (readExtra extra).axis out.rank
  let w ← if ax < out.rank then entryAt out.dims.toList ax else .ok 1
  let rows ← rowsOf (elemsOf out) w
  .ok ⟨rows, u32 w⟩

/-! ### Execution -/

section Execution

variable {F : Type} (ops : FloatOps F)

/-- The order in which a row is gone through. The counter of the way back is a signed 32-bit number.
SOURCE: oplist_exec.c:1331, 1338 -/
def order (reverse n : ℕ) : List ℕ :=
  if reverse ≠ 0 then (List.range (if n < 2 ^ 31 then n else 0)).reverse else List.range n

/-- One element of a cumulative sum. SOURCE: oplist_exec.c:1332-1335, 1339-1342 -/
def cumsumCell (exclusive n : ℕ) (x : Tensor) (r : ℕ) (acc : F) (i : ℕ) :
    Checked String (F × ℕ × UInt16) := do
  let idx := u32 (r * n + i)
  let h ← x.load idx
  let v := ops.widen h
  .ok (ops.add acc v, idx, ops.narrow (if exclusive ≠ 0 then acc else ops.add acc v))

/-- SOURCE: oplist_exec.c, exec_cumsum -/
def execCumsum (args : CumsumArgs) (x : Tensor) (old : ℕ → UInt16) : Checked String (List UInt16) :=
  (List.range args.rows).foldlM (fun y r =>
    (carryLoop (cumsumCell ops args.exclusive args.n x r) (order args.reverse args.n) ops.zero
      y).map Prod.snd) (tempGet old (args.rows * args.n * 2))

/-- The largest element of a row. SOURCE: oplist_exec.c:1188-1189 -/
def rowMax (x : Tensor) (r n : ℕ) : Checked String F := do
  let h ← x.load (r * n)
  (List.range' 1 (n - 1)).foldlM (fun mx i => (x.load (r * n + i)).map fun h =>
    ops.max mx (ops.widen h)) (ops.widen h)

/-- The exponential of one element, and the sum so far. SOURCE: oplist_exec.c:1191 -/
def expCell (x : Tensor) (r n : ℕ) (mx sum : F) (i : ℕ) : Checked String (F × ℕ × UInt16) := do
  let h ← x.load (r * n + i)
  let e := ops.exp (ops.sub (ops.widen h) mx)
  .ok (ops.add sum e, r * n + i, ops.narrow e)

/-- One row of a softmax without the vector unit. SOURCE: oplist_exec.c:1185-1193 -/
def softmaxRow (x : Tensor) (n : ℕ) (y : List UInt16) (r : ℕ) : Checked String (List UInt16) := do
  let mx ← rowMax ops x r n
  let s ← carryLoop (expCell ops x r n mx) (List.range n) ops.zero y
  updateLoop (fun h => ops.narrow (ops.div (ops.widen h) s.1))
    ((List.range n).map fun i => r * n + i) s.2

/-- The element for place `k` with the vector unit. SOURCE: oplist_exec.c:1177-1180 -/
def hvxCell (x : Tensor) (n k : ℕ) : Checked String (ℕ × UInt16) := do
  let row ← (List.range n).mapM fun i => x.load (k / n * n + i)
  .ok (k, ops.narrow (ops.hvxSoftmax (row.map ops.widen) (k % n)))

/-- Whether the vector unit takes the rows; it needs scratch memory, which may not be there.
SOURCE: oplist_exec.c:1172-1175 -/
def takesHvx (scratch : Bool) (rows n : ℕ) : Bool :=
  1 ≤ rows && n % 32 = 0 && 32 ≤ rows * n && scratch

/-- SOURCE: oplist_exec.c, exec_softmax -/
def execSoftmax (scratch : Bool) (args : SoftmaxArgs) (x : Tensor) (old : ℕ → UInt16) :
    Checked String (List UInt16) :=
  let y := tempGet old (args.rows * args.n * 2)
  if takesHvx scratch args.rows args.n then
    fillLoop (hvxCell ops x args.n) (List.range (args.rows * args.n)) y
  else (List.range args.rows).foldlM (softmaxRow ops x args.n) y

def cumsum (extra : Option ExtraAxis) (out : OutputDef) (x : Tensor) (old : ℕ → UInt16) :
    Checked String (List UInt16) := do
  let args ← opCumsum extra out
  execCumsum ops args x old

def softmax (scratch : Bool) (extra : Option ExtraAxis) (out : OutputDef) (x : Tensor)
    (old : ℕ → UInt16) : Checked String (List UInt16) := do
  let args ← opSoftmax extra out
  execSoftmax ops scratch args x old

end Execution

end Gehtp.Model.AxisRows
