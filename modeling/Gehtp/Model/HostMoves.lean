import Gehtp.Model.HostKernels

/-!
# Kernels of the host executor that move data

The kernels of `TypicalOp::execute` (`compiler/src/ops/ops.cpp`) that move elements without computing
on them: Transpose, StridedSlice and Concat, and `in_bc`, by which the element-wise kernels read a
broadcast operand. Shapes have up to five axes. Without a buffer of the input the output is filled
with zeros.
-/

set_option autoImplicit false

namespace Gehtp.Model.HostMoves

open Lib Lib.RowMajor Model.DeviceTensor Model.HostKernels

/-- Sizes of 32 bits, aligned at the last of `rank` axes and filled up with 1 in front.
SOURCE: ops.cpp:447-451, 511-516 -/
def alignRight (rank : ℕ) (dims : List ℕ) : List ℕ :=
  (List.replicate (rank - dims.length) 1 ++ dims.map u32).take rank

/-! ### Transpose -/

/-- A transpose: the permutation, if there is one, and the sizes. -/
structure HostTranspose where
  perm : Option (List ℤ)
  inDims : List ℕ
  outDims : List ℕ
  deriving DecidableEq, Repr

namespace HostTranspose

variable (op : HostTranspose)

/-- The input's axis for every axis of the output: those of the permutation at the end, by default the
axes in reverse order. SOURCE: ops.cpp:426-444 -/
def axes : Checked String (List ℕ) :=
  let rank := op.outDims.length
  match op.perm with
  | none => .ok (List.range rank).reverse
  | some p =>
    let pElems := if p.length = 0 ∨ rank < p.length then rank else p.length
    let off := rank - pElems
    ((List.range pElems).mapM fun d =>
      (entryAt p d).map fun (a : ℤ) => u32 ((a % 2 ^ 32).toNat + off)).map (List.range off ++ ·)

/-- Where the element for a place of the output is read. SOURCE: ops.cpp:455-466 -/
def address (i : ℕ) : Checked String ℕ :=
  (walk (strides (op.outDims.map u32)) i).bind fun cs =>
    op.axes.bind fun perm =>
      (perm.mapM (entryAt (strides (alignRight op.outDims.length op.inDims)))).map fun ss =>
        dot ss cs

/-- SOURCE: ops.cpp, Transpose -/
def execute {F : Type} (zero : F) (x : List F) : Checked String (List F) :=
  if x = [] then .ok (List.replicate (rounds op.outDims) zero)
  else
    (List.range (rounds op.outDims)).mapM fun i =>
      (op.address i).bind fun src => if src < rounds op.outDims then entryAt x src else .ok zero

end HostTranspose

/-! ### StridedSlice -/

/-- A slice: begin, end and stride of every axis, one behind the other, and the sizes. -/
structure HostSlice where
  ranges : List ℤ
  inDims : List ℕ
  outDims : List ℕ
  deriving DecidableEq, Repr

/-- The numbers an `int` can hold. -/
def InInt (z : ℤ) : Prop := -2 ^ 31 ≤ z ∧ z < 2 ^ 31

instance (z : ℤ) : Decidable (InInt z) := inferInstanceAs (Decidable (_ ∧ _))

/-- The coordinate that is read in an axis; a signed number that is too large for its type is a fault.
SOURCE: ops.cpp:535 -/
def sliceCoord (b s : ℤ) (c : ℕ) : Checked String ℤ :=
  let c' := (c : ℤ).bmod (2 ^ 32)
  if InInt (c' * s) ∧ InInt (b + c' * s) then .ok (b + c' * s) else .error .fault

/-- The sum of the coordinates times the strides. SOURCE: ops.cpp:532-536 -/
def sliceOffset : List (ℤ × ℤ) → List ℕ → List ℕ → Checked String ℤ
  | r :: rs, c :: cs, t :: ts =>
    (sliceCoord r.1 r.2 c).bind fun z => (sliceOffset rs cs ts).map fun rest => z * t + rest
  | _, _, _ => .ok 0

namespace HostSlice

variable (op : HostSlice)

/-- For how many axes there is a range. SOURCE: ops.cpp:496-502 -/
def nAxes : ℕ :=
  let en := op.ranges.length
  if en % 3 = 0 ∧ en / 3 ≤ op.outDims.length then en / 3 else op.outDims.length

/-- Begin and stride of every axis; those in front are taken as they are.
SOURCE: ops.cpp:503-510 -/
def steps : Checked String (List (ℤ × ℤ)) :=
  ((List.range op.nAxes).mapM fun ax => do
    let b ← entryAt op.ranges (ax * 3)
    let _ ← entryAt op.ranges (ax * 3 + 1)
    let s ← entryAt op.ranges (ax * 3 + 2)
    .ok (b, if s = 0 then 1 else s)).map
      (List.replicate (op.outDims.length - op.nAxes) (0, 1) ++ ·)

/-- Where the element for a place of the output is read. SOURCE: ops.cpp:511-537 -/
def address (i : ℕ) : Checked String ℤ :=
  op.steps.bind fun steps =>
    (walk (strides (op.outDims.map u32)) i).bind fun cs =>
      sliceOffset steps cs (strides (alignRight op.outDims.length op.inDims))

/-- SOURCE: ops.cpp, StridedSlice -/
def execute {F : Type} (zero : F) (x : List F) : Checked String (List F) :=
  if x = [] then .ok (List.replicate (rounds op.outDims) zero)
  else
    (List.range (rounds op.outDims)).mapM fun i =>
      (op.address i).bind fun src => if 0 ≤ src then entryAt x src.toNat else .error .fault

end HostSlice

/-! ### Concat -/

/-- A concatenation: its axis, if it is given, and the sizes of the inputs and the output. -/
structure HostConcat where
  axis : Option ℤ
  inDims : List (List ℕ)
  outDims : List ℕ
  deriving DecidableEq, Repr

namespace HostConcat

variable (op : HostConcat)

/-- The inputs' sizes add up in this axis and are those of the output in all others.
SOURCE: ops.cpp:641-652 -/
def fitsAt (axis : ℕ) : Bool :=
  op.inDims.all (fun dims => (List.range op.outDims.length).all fun d =>
    d = axis || u32 (dims.getD d 1) = op.outDims.getD d 1) &&
  (op.inDims.map fun dims => dims.getD axis 1).sum = op.outDims.getD axis 1

/-- Move on to the first axis that fits; the last one is not looked at.
SOURCE: ops.cpp:640, 653 -/
def scanAxis : ℕ → ℕ → ℕ
  | 0, axis => axis
  | fuel + 1, axis =>
    if axis + 1 < op.outDims.length then
      if op.fitsAt axis then axis else scanAxis fuel (axis + 1)
    else axis

/-- SOURCE: ops.cpp:626-634 -/
def firstAxis : ℤ :=
  let rank : ℤ := op.outDims.length
  let axis := op.axis.getD (-1)
  let axis := if axis < 0 then axis + rank else axis
  if axis < 0 then rank - 1 else axis

/-- SOURCE: ops.cpp:640-653 -/
def ax : ℕ := op.scanAxis op.outDims.length op.firstAxis.toNat

/-- The size of the axis in an input. SOURCE: ops.cpp:661-664 -/
def inAxisLen (dims : List ℕ) : ℕ :=
  if op.ax < dims.length then dims.getD op.ax 1
  else op.outDims.getD op.ax 1 / max 1 op.inDims.length

/-- The places that an input is copied to, each with the place it is copied from.
SOURCE: ops.cpp:655-657, 666-673 -/
def copies (off len : ℕ) : List (ℕ × ℕ) :=
  let outer := (op.outDims.take op.ax).prod
  let inner := (op.outDims.drop (op.ax + 1)).prod
  let outAxis := op.outDims.getD op.ax 1
  (List.range outer).flatMap fun o => (List.range len).flatMap fun a => (List.range inner).map fun j =>
    (o * outAxis * inner + (off + a) * inner + j, o * len * inner + a * inner + j)

/-- Copy one input behind the other; one without a buffer is skipped. SOURCE: ops.cpp:658-676 -/
def joinInputs {F : Type} : ℕ → List (List ℕ × List F) → List F → Checked String (List F)
  | _, [], out => .ok out
  | off, (dims, src) :: inputs, out =>
    if src = [] then joinInputs off inputs out
    else
      (fillLoop (fun c => (entryAt src c.2).map fun v => (c.1, v))
        (op.copies off (op.inAxisLen dims)) out).bind
        (joinInputs (off + op.inAxisLen dims) inputs)

/-- The kernel, on the output's buffer. SOURCE: ops.cpp, Concat -/
def execute {F : Type} (xs : List (List F)) (out : List F) : Checked String (List F) :=
  op.joinInputs 0 (op.inDims.zip xs) out

end HostConcat

/-! ### Broadcasting -/

/-- The operand's coordinate in an axis; one of size 1 is read at 0. SOURCE: ops.cpp:125-126 -/
def bcCoord (idim c : ℕ) : ℕ := if 1 < idim then c else 0

/-- Where an operand is read for a place of the output. Without a shape it is read as it lies.
SOURCE: ops.cpp, in_bc -/
def inBc (inDims outDims : List ℕ) (i : ℕ) : Checked String ℕ :=
  if inDims = [] then .ok i
  else
    let lead := outDims.length - inDims.length
    let off := inDims.length - outDims.length
    let ins := (List.range inDims.length).map fun d => inDims.getD (off + d) 1
    (walk (strides32 outDims) (u32 i)).map fun cs =>
      address32 (strides32 ins) (List.zipWith bcCoord (ins.map u32) (cs.drop lead))

end Gehtp.Model.HostMoves
