import Gehtp.Model.DeviceTensor

/-!
# Gather

`op_gather` (`compiler/tools/wtop_ops/op_gather.cpp`) drops the axes of size 1 in front of the table
and of the indices and moves the axis accordingly. The device operator has room for five sizes of
each. `exec_gather` (`kernels/src/runtime/oplist_exec.c:1378-1432`) takes each place of the output
apart into five coordinates, finds the index they belong to, and with it the element of the table.
-/

set_option autoImplicit false

namespace Gehtp.Model.GatherOp

open Lib Lib.RowMajor Model.OpGraph Model.DeviceTensor

/-- The arguments after the three references. SOURCE: op_gather.cpp:70-76 -/
structure GatherArgs where
  n : ℕ
  packed : ℕ
  td : List ℕ
  xd : List ℕ
  deriving DecidableEq, Repr

/-! ### Emission -/

/-- The sizes without those of size 1 in front; one axis stays. SOURCE: op_gather.cpp, g_compact -/
def gCompact (od : OutputDef) : List ℕ := dropOnes 1 od.shape

/-- There is at least one axis. SOURCE: op_gather.cpp, g_compact -/
def compactRank (ds : List ℕ) : ℕ := if ds.length = 0 then 1 else ds.length

/-- Fill up to five sizes. SOURCE: op_gather.cpp, g_compact -/
def fiveDims (ds : List ℕ) : List ℕ := (ds ++ List.replicate 5 1).take 5

/-- The axis comes from the extra record, and without one from the scalar parameter.
SOURCE: op_gather.cpp:46-58 -/
def readAxis (extra param : Option ℤ) : ℤ :=
  match extra, param with
  | some axis, _ => axis
  | none, some axis => axis
  | none, none => 0

/-- A negative axis counts from the end. SOURCE: op_gather.cpp:62 -/
def wrapAxis (axis : ℤ) (rank : ℕ) : ℤ := if axis < 0 then axis + rank else axis

/-- The number of the axis after the ones in front are gone; an axis that is gone becomes 0.
SOURCE: op_gather.cpp:63-65 -/
def shiftAxis (axis : ℤ) (traw irank : ℕ) : ℕ :=
  let shifted := axis - (traw - irank : ℕ)
  if shifted < 0 ∨ (irank : ℤ) ≤ shifted then 0 else shifted.toNat

/-- SOURCE: op_gather.cpp, op_gather -/
def opGather (tbl idx : Option OutputDef) (extra param : Option ℤ) (out : OutputDef) :
    Checked String GatherArgs :=
  match tbl, idx with
  | some tbl, some idx =>
    let irank := compactRank (gCompact tbl)
    let xrank := compactRank (gCompact idx)
    let axis := shiftAxis (wrapAxis (readAxis extra param) tbl.rank) tbl.rank irank
    .ok ⟨u32 (elemsOf out), axis + 2 ^ 8 * xrank + 2 ^ 16 * irank,
      (fiveDims (gCompact tbl)).map u32, (fiveDims (gCompact idx)).map u32⟩
  | _, _ => .error (.reject "[op_gather] %s: 缺输入, 拒发")

/-! ### Execution -/

section Execution

-- the number of bits of `size_t`: 32 on the device, 64 where the kernels run on the host
variable (w : ℕ)

/-- The strides as `size_t` has them. SOURCE: oplist_exec.c:1407-1411 -/
def sizeStrides (ds : List ℕ) : List ℕ := (strides ds).map (· % 2 ^ w)

/-- The first five sizes of the table with the axis replaced by the sizes of the indices.
SOURCE: oplist_exec.c:1400-1406 -/
def frame (axis xrank irank : ℕ) (td xd : List ℕ) : List ℕ :=
  fiveDims (td.take axis ++ xd.take xrank ++ (td.take irank).drop (axis + 1))

/-- The coordinates of the index. There are five coordinates of the output.
SOURCE: oplist_exec.c:1417-1418 -/
def indexCoords (axis xrank : ℕ) (xd oc : List ℕ) : Checked String (List ℕ) :=
  (List.range xrank).mapM fun k => (entryAt oc (axis + k)).bind fun c =>
    if xd.getD k 1 = 0 then .error .fault else .ok (c % xd.getD k 1)

/-- The row of the table; a negative index counts from the end, and one outside has none.
SOURCE: oplist_exec.c:1419-1421 -/
def tableRow (size : ℕ) (r : ℤ) : Option ℕ :=
  let rows := (size : ℤ).bmod (2 ^ 32)
  let r' := if r < 0 then r + rows else r
  if r' < 0 ∨ rows ≤ r' then none else some r'.toNat

/-- The coordinates in the table. SOURCE: oplist_exec.c:1423-1428 -/
def tableCoords (axis xrank irank row : ℕ) (oc : List ℕ) : List ℕ :=
  oc.take axis ++ row :: (List.range' (axis + 1) (irank - (axis + 1))).map fun d =>
    oc.getD (d + xrank - 1) 0

/-- One round: the element for place `i` of the output. SOURCE: oplist_exec.c:1412-1430 -/
def gatherCell (axis xrank irank : ℕ) (td xd : List ℕ) (tbl : Tensor) (idx : List ℤ) (i : ℕ) :
    Checked String (ℕ × UInt16) := do
  let oc ← walk (sizeStrides w (frame axis xrank irank td xd)) i
  let xc ← indexCoords axis xrank xd oc
  let r ← entryAt idx (dot (sizeStrides w xd) xc % 2 ^ w)
  match tableRow (td.getD axis 1) r with
  | none => .ok (i, 0)
  | some row =>
    (tbl.load (dot (sizeStrides w td) (tableCoords axis xrank irank row oc) % 2 ^ w)).map
      fun v => (i, v)

/-- SOURCE: oplist_exec.c, exec_gather -/
def execGather (args : GatherArgs) (tbl : Tensor) (idx : List ℤ) (old : ℕ → UInt16) :
    Checked String (List UInt16) :=
  let axis := args.packed % 2 ^ 8
  let xrank := args.packed / 2 ^ 8 % 2 ^ 8
  let irank := args.packed / 2 ^ 16 % 2 ^ 8
  if irank ≤ axis ∨ 5 < irank ∨ 5 < xrank ∨ xrank = 0 then
    .error (.reject "gather axis/rank bad (a=%u x=%u i=%u)")
  else
    fillLoop (gatherCell w axis xrank irank args.td args.xd tbl idx) (List.range args.n)
      (tempGet old (args.n * 2))

def gather (tbl idx : Option OutputDef) (extra param : Option ℤ) (out : OutputDef) (t : Tensor)
    (is : List ℤ) (old : ℕ → UInt16) : Checked String (List UInt16) := do
  let args ← opGather tbl idx extra param out
  execGather w args t is old

end Execution

end Gehtp.Model.GatherOp
