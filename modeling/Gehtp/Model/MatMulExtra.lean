import Gehtp.Model.OpExtra
import Gehtp.Model.OpGraph
import Mathlib.Algebra.BigOperators.Group.List.Basic
import Mathlib.Algebra.Order.Ring.Nat

/-!
# The sizes of a matrix product

The extractor of the `MatMul` operators (`compiler/src/ir/graph_prepare.cpp:1994-2006, 2131-2171`)
reads the shapes of the two operands and the two transpose flags, and writes the sizes that the
kernel multiplies with. A read outside of the five entries of `dims` gives no result.
-/

set_option autoImplicit false

namespace Gehtp.Model.MatMulExtra

open Model.OpGraph Model.OpExtra

/-! ### Scalars -/

/-- `static_cast<uint32_t>` of the double of these bits: the part before the point. -/
def u32OfF64 (bits : UInt64) : UInt32 :=
  let exponent := bits.toNat / 2 ^ 52 % 2 ^ 11
  if exponent < 1023 then 0
  else UInt32.ofNat ((2 ^ 52 + bits.toNat % 2 ^ 52) * 2 ^ (exponent - 1023) / 2 ^ 52)

/-- SOURCE: graph_prepare.cpp:2001-2005, scalar_num; doubles are given by their bits. -/
def scalarNum (opdef : OpDef) (key : String) (dflt : UInt64) : UInt64 :=
  match scalarGet (unpackScalarParams opdef.opData) key with
  | some p => if p.isNumeric then p.valueNum else dflt
  | none => dflt

/-- SOURCE: op_extra.hpp:43-50, ExtraMatMul -/
structure ExtraMatMul where
  m : UInt32
  k : UInt32
  n : UInt32
  transposeIn0 : UInt32
  transposeIn1 : UInt32
  batched : UInt32
  deriving DecidableEq

/-! ### Reads of the dimensions -/

/-- `dims[r - k]`; below zero the index wraps to one far behind the array. -/
def dimBack (od : OutputDef) (r k : ℕ) : Option ℕ :=
  if k ≤ r then od.dims.toList[r - k]? else none

/-- The entries `dims[0], .., dims[n - 1]` that a loop reads. -/
def leading (od : OutputDef) (n : ℕ) : Option (List ℕ) :=
  if n ≤ 5 then some (od.dims.toList.take n) else none

/-- The rank without the ones at the end. SOURCE: graph_prepare.cpp:2141-2142 -/
def stripOnes (od : OutputDef) : ℕ → Option ℕ
  | 0 => some 0
  | r + 1 => do
    let d ← dimBack od (r + 1) 1
    if d = 1 then stripOnes od r else some (r + 1)

/-- The ranks that count. When two of the axes that meet differ, the ones at the end are real.
SOURCE: graph_prepare.cpp:2139-2148 -/
def effectiveRanks (a b : OutputDef) : Option (ℕ × ℕ) := do
  let ar ← stripOnes a a.rank
  let br ← stripOnes b b.rank
  if 2 ≤ ar ∧ 2 ≤ br then
    let alast ← dimBack a ar 1
    let brow ← dimBack b br 2
    if alast ≠ brow then some (a.rank, b.rank) else some (ar, br)
  else some (ar, br)

/-- Both operands have a batch, and the one of `a` agrees with the first axes of `b`.
SOURCE: graph_prepare.cpp:2158-2161 -/
def sameBatch (a b : OutputDef) (ar br : ℕ) : Option Bool :=
  if 3 ≤ ar ∧ 3 ≤ br then do
    let la ← leading a (ar - 2)
    let lb ← leading b (ar - 2)
    some (decide (la = lb))
  else some false

/-- SOURCE: graph_prepare.cpp:2139-2170 -/
def pickSizes (a b : OutputDef) (t0 t1 : UInt32) : Option ExtraMatMul := do
  let (ar, br) ← effectiveRanks a b
  let brow ← dimBack b br 2
  let blast ← dimBack b br 1
  let n := if t1 ≠ 0 then brow else blast
  let alast ← dimBack a ar 1
  let same ← sameBatch a b ar br
  if same then
    let m ← dimBack a ar 2
    some ⟨UInt32.ofNat m, UInt32.ofNat alast, UInt32.ofNat n, t0, t1, 1⟩
  else
    let rows ← leading a (ar - 1)
    let mprod := rows.foldl (fun x d => x * d % 2 ^ 64) 1
    if t0 ≠ 0 then
      some ⟨UInt32.ofNat alast, UInt32.ofNat mprod, UInt32.ofNat n, t0, t1, 0⟩
    else some ⟨UInt32.ofNat mprod, UInt32.ofNat alast, UInt32.ofNat n, t0, t1, 0⟩

/-- The producer of an input. SOURCE: graph_prepare.cpp:2136-2137 -/
def operand (gp : OpMap) (opdef : OpDef) (idx : ℕ) : Option OpDef :=
  opdef.inputs[idx]?.bind fun c => gp.getOpAt c.srcId

/-- SOURCE: graph_prepare.cpp:2131-2173, extract_matmul_extra -/
def extractMatmulExtra (gp : OpMap) (opdef : OpDef) : Option ExtraMatMul :=
  let t0 := u32OfF64 (scalarNum opdef "transpose_in0" 0)
  let t1 := u32OfF64 (scalarNum opdef "transpose_in1" 0)
  match operand gp opdef 0, operand gp opdef 1 with
  | some a, some b =>
    if 2 ≤ a.outputDef.rank ∧ 2 ≤ b.outputDef.rank then
      pickSizes a.outputDef b.outputDef t0 t1
    else some ⟨0, 0, 0, t0, t1, 0⟩
  | _, _ => some ⟨0, 0, 0, t0, t1, 0⟩

end Gehtp.Model.MatMulExtra
