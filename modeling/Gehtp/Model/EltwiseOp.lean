import Gehtp.Model.DeviceTensor

/-!
# Element-wise operators and broadcasting

`op_eltwise_binary` and `op_eltwise_ternary` (`compiler/tools/wtop_ops/`) put a broadcast in front of
every operand that has fewer elements than the output; it copies the operand into a temp of the
output's size. The shapes are passed as four sizes each. The element-wise operator then goes through
its operands side by side. The broadcast is `exec_broadcast`, the operators are `exec_binary` and
`exec_add` (`kernels/src/runtime/oplist_exec.c`). What an operator computes from two elements is a
parameter.
-/

set_option autoImplicit false

namespace Gehtp.Model.EltwiseOp

open Lib Model.OpGraph Model.DeviceTensor

/-- The arguments of a broadcast after the two references. SOURCE: op_eltwise_binary.cpp:54-56 -/
structure BroadcastArgs where
  n : ℕ
  bElems : ℕ
  inD : List ℕ
  outD : List ℕ
  deriving DecidableEq, Repr

/-! ### Emission -/

/-- The last four axes without those of size 1 in front, filled up with axes of size 1.
SOURCE: op_eltwise_binary.cpp:33-45 -/
def fold4 (od : OutputDef) : List ℕ :=
  let ds := dropOnes 1 od.shape
  let t := ds.drop (ds.length - 4)
  (List.replicate (4 - t.length) 1 ++ t).map u32

/-- The broadcast of an operand, if there is one. SOURCE: op_eltwise_binary.cpp:46-58 -/
def materialize (src : Option OutputDef) (out : OutputDef) : Option BroadcastArgs :=
  match src with
  | none => none
  | some src =>
    if elemsOf src = 0 ∨ elemsOf out ≤ elemsOf src then none
    else some ⟨u32 (elemsOf out), u32 (elemsOf src), fold4 src, fold4 out⟩

/-- The device's number of an operation. SOURCE: wtop_ops.hpp, qnn_binary_to_sub -/
def qnnBinaryToSub : ℕ → Option ℕ
  | 0 => some 0
  | 18 => some 1
  | 13 => some 2
  | 2 => some 3
  | 3 => some 4
  | 1 => some 5
  | _ => none

/-! ### Execution -/

/-- The coordinate in an axis of the operand. SOURCE: oplist_exec.c:1899-1900 -/
def wrap (idim c : ℕ) : ℕ := if 1 < idim then c % idim else 0

/-- Where the element for a place of the output is read. SOURCE: oplist_exec.c:1883-1903 -/
def broadcastAddress (args : BroadcastArgs) (i : ℕ) : Checked String ℕ := do
  let stripped := strippedRank args.outD
  let r := if stripped = 0 then 1 else stripped
  let ir := if r < 4 then r else 4
  let cs ← walk (strides32 (args.outD.take r)) i
  .ok (address32 (strides32 (args.inD.take ir))
    (List.zipWith wrap (args.inD.take ir) (cs.drop (r - ir))))

/-- SOURCE: oplist_exec.c, exec_broadcast -/
def execBroadcast (args : BroadcastArgs) (x : Tensor) (old : ℕ → UInt16) :
    Checked String (List UInt16) :=
  if args.bElems = 0 then .error (.reject "broadcast ref fail")
  else
    fillLoop (copyCell (broadcastAddress args) x) (List.range args.n) (tempGet old (args.n * 2))

/-- What the element-wise operator finds as its operand: the tensor itself, or its broadcast. -/
def operand (src : Option OutputDef) (out : OutputDef) (x : Tensor) (old : ℕ → UInt16) :
    Checked String (List UInt16) :=
  match materialize src out with
  | none => .ok x.data
  | some args => execBroadcast args x old

/-- SOURCE: oplist_exec.c, exec_add and the loop of exec_binary -/
def execBinary (kernel : UInt16 → UInt16 → UInt16) (a b : List UInt16) (n : ℕ)
    (old : ℕ → UInt16) : Checked String (List UInt16) :=
  fillLoop (fun i => do
    let x0 ← entryAt a i
    let x1 ← entryAt b i
    .ok (i, kernel x0 x1)) (List.range n) (tempGet old (n * 2))

/-- Where SELECT reads an operand of `cn` elements. SOURCE: oplist_exec.c:1104-1107 -/
def selectIndex (cn n i : ℕ) : ℕ := if cn ≤ 1 then 0 else if cn < n then i % cn else i

/-- The most elements of the three operands. SOURCE: oplist_exec.c:1099-1100 -/
def selectCount (cn an fn : ℕ) : ℕ :=
  let n := if an < cn then cn else an
  if n < fn then fn else n

/-- One of two elements, by the element of a third operand. It passes through a 32-bit float.
SOURCE: oplist_exec.c:1103-1109 -/
def selectCell (truth : UInt16 → Bool) (pass : UInt16 → UInt16) (c tv fv : List UInt16)
    (n i : ℕ) : Checked String (ℕ × UInt16) :=
  (entryAt c (selectIndex c.length n i)).bind fun cv =>
    (if truth cv then entryAt tv (selectIndex tv.length n i)
      else entryAt fv (selectIndex fv.length n i)).map fun v => (i, pass v)

/-- SOURCE: oplist_exec.c:1085-1111 -/
def execSelect (truth : UInt16 → Bool) (pass : UInt16 → UInt16) (c tv fv : List UInt16)
    (old : ℕ → UInt16) : Checked String (List UInt16) :=
  let n := selectCount c.length tv.length fv.length
  if n = 0 then .error (.reject "select ref fail")
  else fillLoop (selectCell truth pass c tv fv n) (List.range n) (tempGet old (n * 2))

/-- What was in memory before: for each operand's temp and for the output. -/
structure OldTemps where
  c : ℕ → UInt16
  a : ℕ → UInt16
  b : ℕ → UInt16
  out : ℕ → UInt16

/-- SOURCE: op_eltwise_binary.cpp, op_eltwise_binary -/
def eltwiseBinary (kernel : ℕ → UInt16 → UInt16 → UInt16) (operation : ℕ)
    (srcA srcB : Option OutputDef) (out : OutputDef) (a b : Tensor) (old : OldTemps) :
    Checked String (List UInt16) :=
  match qnnBinaryToSub operation with
  | none => .error (.reject "Eltwise_Binary op %llu (%s) operation=%u 无设备映射")
  | some sub => do
    let a' ← operand srcA out a old.a
    let b' ← operand srcB out b old.b
    execBinary (kernel sub) a' b' (u32 (elemsOf out)) old.out

/-- SOURCE: op_eltwise_ternary.cpp, op_eltwise_ternary -/
def eltwiseTernary (truth : UInt16 → Bool) (pass : UInt16 → UInt16)
    (srcC srcA srcB : Option OutputDef) (out : OutputDef) (c a b : Tensor) (old : OldTemps) :
    Checked String (List UInt16) := do
  let c' ← operand srcC out c old.c
  let a' ← operand srcA out a old.a
  let b' ← operand srcB out b old.b
  execSelect truth pass c' a' b' old.out

end Gehtp.Model.EltwiseOp
