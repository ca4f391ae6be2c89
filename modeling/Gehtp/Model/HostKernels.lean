import Gehtp.Lib.Axes
import Gehtp.Model.DeviceTensor

/-!
# Kernels of the host executor

`TypicalOp::execute` (`compiler/src/ops/ops.cpp`) computes an operator on the host, on buffers of
32-bit floats. Here are the kernels that combine or copy whole rows: Reduce, Split and Softmax. What
they compute from the elements that they read is a parameter. The sizes of an axis are 64-bit numbers
that some kernels copy into 32-bit ones; the number of elements of a buffer in memory does not wrap.
-/

set_option autoImplicit false

namespace Gehtp.Model.HostKernels

open Lib Lib.RowMajor Lib.Axes Model.DeviceTensor

/-- Five sizes of 32 bits, filled up with 1 behind the last axis. -/
def pad5 (dims : List ℕ) : List ℕ := dims.map u32 ++ List.replicate (5 - dims.length) 1

/-- How often a kernel goes through its outermost loop; a tensor without elements counts as one of one
element. SOURCE: ops.cpp:90-93 -/
def rounds (dims : List ℕ) : ℕ := if dims.prod = 0 then 1 else dims.prod

/-- The buffer of a tensor: an operator's output has at least one element, other tensors without
elements have an empty buffer. SOURCE: graph_prepare.cpp:1015-1016, 1057-1063 -/
def BufferOf {F : Type} (x : List F) (dims : List ℕ) : Prop :=
  x.length = dims.prod ∨ x.length = rounds dims

/-! ### Reduce -/

/-- A reduction: its type, the axes if there are any, and the sizes of its input and its output. -/
structure ReduceOp where
  reduceType : String
  axes : Option (List ℤ)
  inDims : List ℕ
  outDims : List ℕ
  deriving DecidableEq, Repr

namespace ReduceOp

variable (op : ReduceOp)

/-- The axes that are reduced, all of them by default. SOURCE: ops.cpp:872-889 -/
def red : List Bool :=
  let rank := op.inDims.length
  match op.axes with
  | none => List.replicate rank true
  | some [] => List.replicate rank true
  | some axes =>
    (List.range rank).map fun (d : ℕ) =>
      axes.any fun ax => (if ax < 0 then ax + (rank : ℤ) else ax) = (d : ℤ)

/-- SOURCE: ops.cpp:895-898 -/
def isKnown : Bool :=
  op.reduceType = "ReduceSum" || op.reduceType = "ReduceMean" || op.reduceType = "ReduceMax" ||
    op.reduceType = "ReduceMin"

/-- The strides of the input. SOURCE: ops.cpp:866-870 -/
def inStrides : List ℕ := (strides (pad5 op.inDims)).take op.inDims.length

/-- Where the elements for a place of the output begin: the axes that are kept take the coordinates of
the output's axes in order. SOURCE: ops.cpp:906-917 -/
def base (i : ℕ) : Checked String ℕ :=
  let kept := select false op.red op.inStrides
  let n := min kept.length op.outDims.length
  (walk ((strides (pad5 op.outDims)).take n) i).map (dot kept)

/-- The place of the `r`-th element behind the first. SOURCE: ops.cpp:923-931 -/
def offset : List ℕ → List ℕ → ℕ → ℕ
  | d :: ds, s :: ss, r => r % d * s + offset ds ss (r / d)
  | _, _, _ => 0

/-- The elements of the input, if it has a buffer, that are combined for a place of the output.
SOURCE: ops.cpp:862, 899-932 -/
def elementsRead (hasBuffer : Bool) (i : ℕ) : Checked String (List ℕ) :=
  if hasBuffer = false then .ok []
  else if op.isKnown then
    let ds := select true op.red (op.inDims.map u32)
    let ss := select true op.red op.inStrides
    (op.base i).map fun b => (List.range ds.prod).map fun r => b + offset ds ss r
  else .ok [i]

/-- The kernel. An empty buffer is none. SOURCE: ops.cpp, Reduce -/
def execute {F : Type} (combine : List F → F) (zero : F) (x : List F) : Checked String (List F) :=
  if x = [] then .ok (List.replicate (rounds op.outDims) zero)
  else
    (List.range (rounds op.outDims)).mapM fun i =>
      (op.elementsRead true i).bind fun ps => (ps.mapM (entryAt x)).map combine

end ReduceOp

/-! ### Split -/

/-- A segment of a split: its number and the sizes of the input and of the segment. -/
structure SplitOp where
  splitIndex : ℕ
  inDims : List ℕ
  outDims : List ℕ
  deriving DecidableEq, Repr

namespace SplitOp

variable (op : SplitOp)

/-- The sizes without those of size 1 at the end. -/
def stripped : List ℕ := op.inDims.take (strippedRank op.inDims)

/-- The size of the last axis that is not of size 1. SOURCE: ops.cpp:1001-1002 -/
def inAxisLen : ℕ :=
  let len := op.stripped.getLastD 1
  if len = 0 then 1 else len

/-- SOURCE: ops.cpp:1003-1006 -/
def outer : ℕ := op.stripped.prod / op.inAxisLen

/-- SOURCE: ops.cpp:1007 -/
def segLen : ℕ := rounds op.outDims / if op.outer = 0 then 1 else op.outer

/-- The places of the output that are written, each with the place of the input that is copied.
SOURCE: ops.cpp:1008-1012 -/
def copies : List (ℕ × ℕ) :=
  (List.range op.outer).flatMap fun o => (List.range op.segLen).map fun j =>
    (o * op.segLen + j, o * op.inAxisLen + op.splitIndex * op.segLen + j)

/-- The kernel, on the output's buffer. SOURCE: ops.cpp, Split -/
def execute {F : Type} (x out : List F) : Checked String (List F) :=
  fillLoop (fun c => (entryAt x c.2).map fun v => (c.1, v)) op.copies out

end SplitOp

/-! ### Softmax -/

/-- The operations on floats that a row goes through. -/
structure RowOps (F : Type) where
  gt : F → F → Bool
  sub : F → F → F
  exp : F → F
  zero : F
  add : F → F → F
  div : F → F → F

/-- One row of a softmax. SOURCE: ops.cpp:1038-1047 -/
def RowOps.softmaxRow {F : Type} (ops : RowOps F) : List F → List F
  | [] => []
  | v :: row =>
    let mx := row.foldl (fun mx w => if ops.gt w mx then w else mx) v
    let es := (v :: row).map fun w => ops.exp (ops.sub w mx)
    let sum := es.foldl ops.add ops.zero
    if ops.gt sum ops.zero then es.map fun e => ops.div e sum else es

/-- A softmax: its axis, if it is given, and the sizes. -/
structure SoftmaxOp where
  axis : Option ℤ
  dims : List ℕ
  deriving DecidableEq, Repr

namespace SoftmaxOp

variable (op : SoftmaxOp)

/-- The axis whose size is the width of a row. SOURCE: ops.cpp:1020-1031 -/
def ax : ℤ :=
  let rk : ℤ := op.dims.length
  let axis := op.axis.getD (-1)
  let ax := if axis < 0 then axis + rk else axis
  let ax := if ax < 0 ∨ rk ≤ ax then rk - 1 else ax
  if op.axis = none ∧ (strippedRank op.dims : ℤ) ≤ ax then (strippedRank op.dims : ℤ) - 1 else ax

/-- The width of a row; with no axis but those of size 1 the size in front of the first is read.
SOURCE: ops.cpp:1032-1033 -/
def rowW : Checked String ℕ :=
  if op.dims = [] then .ok 1
  else if op.ax < 0 then .error .fault
  else
    let w := op.dims.getD op.ax.toNat 0
    .ok (if w = 0 then 1 else w)

/-- SOURCE: ops.cpp, Softmax -/
def execute {F : Type} (ops : RowOps F) (x : List F) : Checked String (List F) :=
  if x = [] then .ok (List.replicate (rounds op.dims) ops.zero)
  else
    op.rowW.bind fun w =>
      ((List.range (rounds op.dims / w)).mapM fun r =>
        ((List.range w).mapM fun i => entryAt x (r * w + i)).map ops.softmaxRow).map List.flatten

end SoftmaxOp

end Gehtp.Model.HostKernels
