import Gehtp.Model.DeviceTensor

/-!
# Strided slices

`op_strided_slice` (`compiler/tools/wtop_ops/op_strided_slice.cpp`) reads a triple of begin, end and
stride for each axis from the constant pool and turns it into the arguments of one device operator
of at most three axes. An input of up to three axes keeps its triples as they are; one of four or
five loses axes of size 1. `exec_slice` (`kernels/src/runtime/oplist_exec.c:1950-1988`) goes through
the output in order and reads each element from its place in the input.
-/

set_option autoImplicit false

namespace Gehtp.Model.StridedSliceOp

open Lib Model.OpGraph Model.DeviceTensor

/-- Begin, end and stride of one axis, 32-bit numbers with a sign. -/
structure Triple where
  b : ℤ
  e : ℤ
  s : ℤ
  deriving DecidableEq, Repr

/-- What the operator carries about its ranges; no offset means no ranges.
SOURCE: op_extra.hpp, ExtraStridedSlice -/
structure ExtraStridedSlice where
  rank : ℕ
  rangesOffset : ℕ
  deriving DecidableEq, Repr

/-- Begin, end, stride and size of one axis, as the operator's arguments have them. -/
structure Axis where
  b : ℕ
  e : ℕ
  s : ℕ
  d : ℕ
  deriving DecidableEq, Repr

/-- The arguments after the two references; there are always three axes. -/
structure SliceArgs where
  nOut : ℕ
  rk : ℕ
  axes : List Axis
  deriving DecidableEq, Repr

/-! ### Emission -/

section Emission

-- the constant pool, one entry for each 32-bit number, and what lies in memory behind it
variable (pool : List ℤ) (past : ℕ → ℤ)

/-- Read a number of the pool. The first path below may read behind the pool's end; it then passes
what it found there on to the device. -/
def poolWord (i : ℕ) : ℤ := pool.getD i (past i)

/-- The triple of an axis: three numbers in a row. SOURCE: op_strided_slice.cpp:37-40 -/
def tripleAt (offset ax : ℕ) : Triple :=
  ⟨poolWord pool past (offset / 4 + ax * 3), poolWord pool past (offset / 4 + ax * 3 + 1),
    poolWord pool past (offset / 4 + ax * 3 + 2)⟩

/-- SOURCE: op_strided_slice.cpp:34, 87 -/
def haveRanges (e : ExtraStridedSlice) : Bool :=
  decide (e.rangesOffset ≠ 0 ∧ e.rangesOffset + e.rank * 12 ≤ 4 * pool.length)

/-- A signed number, read as an unsigned one. -/
def asU32 (z : ℤ) : ℕ := (z % 2 ^ 32).toNat

/-- A triple and the size of its axis. -/
def Triple.axis (t : Triple) (d : ℕ) : Axis := ⟨asU32 t.b, asU32 t.e, asU32 t.s, d⟩

/-- The sizes for up to three axes. Below three axes `ar - 3` wraps, and the last size is taken
twice. SOURCE: op_strided_slice.cpp:46-55 -/
def sliceDims (shape : List ℕ) : List ℕ :=
  let ar := strippedRank shape
  let dim := fun i => u32 (shape.getD i 1)
  let d0 := if 1 ≤ ar then dim (if u32 (2 ^ 32 + ar - 3) < ar then ar - 3 else ar - 1) else 1
  let d1 := if 2 ≤ ar then dim (ar - 2) else 1
  let d2 := if 1 ≤ ar then dim (ar - 1) else 1
  if ar = 1 then [1, 1, dim 0] else if ar = 2 then [d0, dim 0, dim 1] else [d0, d1, d2]

/-- Up to three axes. SOURCE: op_strided_slice.cpp:26-59 -/
def shortSlice (shape : List ℕ) (e : ExtraStridedSlice) (nOut : ℕ) : SliceArgs :=
  let ax0 := if e.rank = 4 then 1 else 0
  let triples := (List.range 3).map fun i =>
    if haveRanges pool e then tripleAt pool past e.rangesOffset (ax0 + i) else ⟨0, 0, 1⟩
  ⟨nOut, if 4 ≤ e.rank then 3 else e.rank, List.zipWith Triple.axis triples (sliceDims shape)⟩

/-- An unsigned number, read as a signed one. -/
def asI32 (n : ℕ) : ℤ := if n < 2 ^ 31 then n else n - 2 ^ 32

/-- The triple of an axis, or the whole axis if there are no ranges. The axes are those before any
is dropped. SOURCE: op_strided_slice.cpp:88-98 -/
def longTriple (e : ExtraStridedSlice) (dims : List ℕ) (ax : ℕ) : Triple :=
  if haveRanges pool e ∧ ax < e.rank then tripleAt pool past e.rangesOffset ax
  else ⟨0, asI32 (dims.getD ax 1), 1⟩

/-- A whole axis of size 1. SOURCE: op_strided_slice.cpp:118 -/
def foldable (t : Triple) (d : ℕ) : Bool := decide (d = 1 ∧ t.b = 0 ∧ t.e ≤ 1 ∧ t.s = 1)

/-- Leave whole axes of size 1 out, but at most as many as there are above three.
SOURCE: op_strided_slice.cpp:116-132 -/
def foldAxes : ℕ → List Triple → List ℕ → List Axis
  | extra, t :: ts, d :: ds =>
    if foldable t d ∧ 0 < extra then foldAxes (extra - 1) ts ds
    else t.axis d :: foldAxes extra ts ds
  | _, _, _ => []

/-- How many cells of the axis are taken. SOURCE: oplist_exec.c:1966-1969 -/
def Axis.taken (a : Axis) : ℕ := u32 ((if a.b < a.e then a.e - a.b else 0) + a.s - 1) / a.s

/-- Fold the axes and check the number of cells. SOURCE: op_strided_slice.cpp:109-149 -/
def foldSlice (triples : List Triple) (dims : List ℕ) (nOut : ℕ) : Checked String SliceArgs :=
  if ∃ t ∈ triples, t.s ≤ 0 then .error (.reject "slice stride %d 非正(ax %u, 特性门)")
  else
    let axes := foldAxes (dims.length - 3) triples dims
    if 3 < axes.length then .error (.reject "slice srk=%u 折后秩>3(ax %u, 特性门)")
    else if (axes.map Axis.taken).prod % 2 ^ 64 ≠ nOut then
      .error (.reject "slice 几何 %llu != n_out %u (srk=%u, 特性门)")
    else .ok ⟨nOut, axes.length, axes ++ List.replicate (3 - axes.length) ⟨0, 0, 1, 1⟩⟩

/-- Four or five axes. SOURCE: op_strided_slice.cpp:74-149 -/
def longSlice (src : OutputDef) (e : ExtraStridedSlice) (nOut : ℕ) : Checked String SliceArgs :=
  if 5 < src.rank ∨ 5 < e.rank then .error (.reject "slice rank srk=%u e.rank=%u > 5")
  else if e.rank = 0 ∨ src.rank < e.rank then
    .error (.reject "slice ranges 秩 %u 与输入秩 %u 不配(特性门)")
  else
    let padded := src.shape.map u32
    let dims := dropOnes e.rank padded
    if dims.length ≠ e.rank then
      .error (.reject "slice ranges 秩 %u 与输入秩 %u 不可对齐(特性门)")
    else foldSlice ((List.range dims.length).map (longTriple pool past e padded)) dims nOut

/-- SOURCE: op_strided_slice.cpp, op_strided_slice -/
def opStridedSlice (src : Option OutputDef) (e : ExtraStridedSlice) (out : OutputDef) :
    Checked String SliceArgs :=
  match src with
  | none => .error (.reject "slice src missing")
  | some src =>
    if src.rank ≤ 3 then .ok (shortSlice pool past src.shape e (u32 (elemsOf out)))
    else longSlice pool past src e (u32 (elemsOf out))

end Emission

/-! ### Execution -/

/-- A stride of 0 counts as 1. SOURCE: oplist_exec.c:1967 -/
def Axis.fixed (a : Axis) : Axis := if a.s = 0 then { a with s := 1 } else a

/-- The coordinates in the input. SOURCE: oplist_exec.c:1983 -/
def selected (axes : List Axis) (cs : List ℕ) : List ℕ :=
  List.zipWith (fun a c => a.b + c * a.s) axes cs

/-- Where the element for a place of the output is read. SOURCE: oplist_exec.c:1978-1985 -/
def sliceAddress (axes : List Axis) (i : ℕ) : Checked String ℕ := do
  let cs ← walk (strides32 (axes.map Axis.taken)) i
  .ok (address32 (strides32 (axes.map Axis.d)) (selected axes cs))

/-- SOURCE: oplist_exec.c, exec_slice -/
def execSlice (args : SliceArgs) (x : Tensor) (old : ℕ → UInt16) : Checked String (List UInt16) :=
  if args.rk < 1 ∨ 3 < args.rk then .error (.reject "slice rank %u")
  else
    let axes := (args.axes.take args.rk).map Axis.fixed
    fillLoop (copyCell (sliceAddress axes) x) (List.range args.nOut) (tempGet old (args.nOut * 2))

def stridedSlice (pool : List ℤ) (past : ℕ → ℤ) (src : Option OutputDef) (e : ExtraStridedSlice)
    (out : OutputDef) (x : Tensor) (old : ℕ → UInt16) : Checked String (List UInt16) := do
  let args ← opStridedSlice pool past src e out
  execSlice args x old

end Gehtp.Model.StridedSliceOp
