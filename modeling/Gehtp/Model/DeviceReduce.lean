import Gehtp.Lib.Wire
import Gehtp.Model.DeviceTensor

/-!
# Reduce on the device

The compiler packs the first of a reduction's axes and its type into the extra record
(`compiler/src/ir/graph_prepare.cpp`, `extract_axis_extra`). The operator list is emitted from the
binary, where `op_reduce` (`compiler/tools/wtop_ops/op_reduce.cpp`) finds the record and the type that
the deserializer restores from it. `exec_reduce` (`kernels/src/runtime/oplist_exec.c`) combines the
elements along one axis of a window of four sizes. The operations on 32-bit floats are parameters.
-/

set_option autoImplicit false

namespace Gehtp.Model.DeviceReduce

open Lib Model.OpGraph Model.DeviceTensor

/-! ### The extra record -/

/-- Where the data of a constant lie in the constant pool. -/
structure ParamConst where
  offset : ℕ
  size : ℕ
  deriving DecidableEq, Repr

/-- The words of a constant; one at the very start of the pool counts as none.
SOURCE: graph_prepare.cpp, read_param_u32 -/
def readParamU32 (pool : List UInt8) (p : ParamConst) (maxN : ℕ) : List UInt32 :=
  if p.size < 4 then []
  else if p.offset = 0 ∨ pool.length < p.offset + p.size then []
  else (List.range (min maxN (p.size / 4))).map fun i => le32 pool (p.offset + 4 * i)

/-- A reduction of the graph: the constant with its axes, its scalar parameters, and its input. A
type that is not given is the empty string, a number that is not given is 0. -/
structure ReduceNode where
  pool : List UInt8
  axes : ParamConst
  axis : Option ℤ
  reduceType : String
  keepDims : ℕ
  exclusive : ℕ
  reverse : ℕ
  input : OutputDef

/-- SOURCE: op_extra.hpp, ExtraAxis -/
structure AxisExtra where
  axis : ℤ
  reduceType : ℕ
  keepDims : ℕ
  exclusive : ℕ
  reverse : ℕ
  deriving DecidableEq, Repr

/-- The number of a type. SOURCE: graph_prepare.cpp:2089-2092, op_reduce.cpp:53-56 -/
def subtypeOf (rt : String) : Option ℕ :=
  if rt = "ReduceSum" ∨ rt = "SUM" ∨ rt = "" then some 0
  else if rt = "ReduceMean" ∨ rt = "AVG" then some 1
  else if rt = "ReduceMax" then some 2
  else if rt = "ReduceMin" then some 3
  else none

/-- SOURCE: graph_prepare.cpp, extract_axis_extra -/
def extractAxisExtra (node : ReduceNode) : AxisExtra where
  axis :=
    match readParamU32 node.pool node.axes 4 with
    | [] => node.axis.getD (-1)
    | ax :: _ => ax.toInt32.toInt
  reduceType := (subtypeOf node.reduceType).getD 0xFFFFFFFF
  keepDims := node.keepDims
  exclusive := node.exclusive
  reverse := node.reverse

/-- The type that is restored from the record; a sum and an unknown type are not.
SOURCE: graph_prepare.cpp:2522-2527 -/
def restoredType (e : AxisExtra) : Option String :=
  if e.reduceType = 1 then some "ReduceMean"
  else if e.reduceType = 2 then some "ReduceMax"
  else if e.reduceType = 3 then some "ReduceMin"
  else none

/-! ### Emission -/

/-- The arguments after the two references. SOURCE: op_reduce.cpp:87-88 -/
structure ReduceArgs where
  n : ℕ
  axis : ℕ
  subtype : ℕ
  dims : List ℕ
  deriving DecidableEq, Repr

/-- Whether the record is used. SOURCE: op_reduce.cpp:30 -/
def extraOk (e : AxisExtra) : Bool := decide (0 ≤ e.axis ∧ e.axis < 8 ∧ e.reduceType ≤ 3)

/-- The axis without a record. SOURCE: op_reduce.cpp:36 -/
def fallbackAxis (irank : ℕ) : ℕ := if 4 ≤ irank then 3 else if irank ≠ 0 then irank - 1 else 0

/-- The axis that is reduced. SOURCE: op_reduce.cpp:24-37 -/
def axisOf (extra : Option AxisExtra) (irank : ℕ) : ℕ :=
  match extra with
  | some e => if extraOk e then e.axis.toNat else fallbackAxis irank
  | none => fallbackAxis irank

/-- Four sizes, filled up with 1. SOURCE: op_reduce.cpp:71-72, 79-80 -/
def window (sizes : List ℕ) : List ℕ := (List.range 4).map fun i => u32 (sizes.getD i 1)

/-- SOURCE: op_reduce.cpp, op_reduce -/
def opReduce (extra : Option AxisExtra) (reduceType : Option String) (src : Option OutputDef)
    (out : OutputDef) : Checked String ReduceArgs := do
  let irank := (src.map OutputDef.rank).getD 0
  let shape := (src.map OutputDef.shape).getD []
  let axis := axisOf extra irank
  let n := u32 (elemsOf (src.getD out))
  match subtypeOf (reduceType.getD "ReduceSum") with
  | none => .error (.reject "error: Reduce op %llu reduce_type=%s 无映射")
  | some subtype =>
    if irank ≠ 0 ∧ irank ≤ axis then
      .error (.reject "error: Reduce op %llu axis=%d 越界 (irank=%u, 拒发)")
    else if irank ≤ 4 then .ok ⟨n, axis, subtype, window shape⟩
    else if 4 < irank - axis then
      .error (.reject "error: Reduce op %llu axis=%d 后随维超窗 (irank=%u)")
    else .ok ⟨n, 0, subtype, window (shape.drop axis)⟩

/-- What is emitted for a reduction of the graph. -/
def emit (node : ReduceNode) (out : OutputDef) : Checked String ReduceArgs :=
  let e := extractAxisExtra node
  opReduce (some e) (restoredType e) (some node.input) out

/-! ### Execution -/

/-- The operations on floats. -/
structure FloatOps (F : Type) where
  widen : UInt16 → F
  narrow : F → UInt16
  ofNat : ℕ → F
  zero : F
  lowest : F
  highest : F
  add : F → F → F
  div : F → F → F
  lt : F → F → Bool

section Execution

variable {F : Type} (ops : FloatOps F)

/-- SOURCE: oplist_exec.c:1287 -/
def accStart (subtype : ℕ) : F :=
  if subtype = 2 then ops.lowest else if subtype = 3 then ops.highest else ops.zero

/-- SOURCE: oplist_exec.c:1290-1292 -/
def accStep (subtype : ℕ) (acc v : F) : F :=
  if subtype = 2 then if ops.lt acc v then v else acc
  else if subtype = 3 then if ops.lt v acc then v else acc
  else ops.add acc v

/-- SOURCE: oplist_exec.c:1294 -/
def accFinish (subtype L : ℕ) (acc : F) : F :=
  if subtype = 1 then ops.div acc (ops.ofNat L) else acc

/-- One element of the output. SOURCE: oplist_exec.c:1286-1295 -/
def reduceCell (subtype L inner : ℕ) (x : Tensor) (c : ℕ × ℕ) : Checked String (ℕ × UInt16) := do
  let base := c.1 * L * inner + c.2
  let acc ← (List.range L).foldlM (fun acc l =>
    (x.load (base + l * inner)).map fun h => accStep ops subtype acc (ops.widen h))
    (accStart ops subtype)
  .ok (c.1 * inner + c.2, ops.narrow (accFinish ops subtype L acc))

/-- The size of the axis; none counts as 1. SOURCE: oplist_exec.c:1274-1275 -/
def ReduceArgs.length (args : ReduceArgs) : ℕ :=
  if args.dims.getD args.axis 1 = 0 then 1 else args.dims.getD args.axis 1

/-- The elements behind the axis. SOURCE: oplist_exec.c:1276-1277 -/
def ReduceArgs.inner (args : ReduceArgs) : ℕ := u32 (args.dims.drop (args.axis + 1)).prod

/-- A product of the two sizes that wraps to 0 is divided by. SOURCE: oplist_exec.c, exec_reduce -/
def execReduce (args : ReduceArgs) (x : Tensor) (old : ℕ → UInt16) : Checked String (List UInt16) :=
  let step := u32 (args.length * args.inner)
  if 4 ≤ args.axis ∨ 3 < args.subtype then
    .error (.reject "reduce axis/subtype bad (axis=%u sub=%u)")
  else if args.length * args.inner = 0 then
    .error (.reject "reduce geom (n=%u L=%u inner=%u)")
  else if step = 0 then .error .fault
  else if args.n % step ≠ 0 then .error (.reject "reduce geom (n=%u L=%u inner=%u)")
  else
    let outer := args.n / step
    fillLoop (reduceCell ops args.subtype args.length args.inner x)
      ((List.range outer).flatMap fun o => (List.range args.inner).map fun i => (o, i))
      (tempGet old (outer * args.inner * 2))

end Execution

end Gehtp.Model.DeviceReduce
