import Gehtp.Model.DeviceTensor

/-!
# Transpose

`op_transpose` (`compiler/tools/wtop_ops/op_transpose.cpp`) turns a shape and a permutation into the
arguments of one device operator: axes of size 1 in front are dropped until the ranks agree, a
tensor of more than four axes loses all axes of size 1, and the permutation is renumbered and packed
into bytes. `exec_transpose_gen` (`kernels/src/runtime/oplist_exec.c:1909-1948`) goes through the
input in order and writes each element to its place in the output.
-/

set_option autoImplicit false

namespace Gehtp.Model.TransposeOp

open Lib Model.OpGraph Model.DeviceTensor

/-- The arguments after the two references. SOURCE: op_transpose.cpp:98-99 -/
structure TransposeArgs where
  rk : ℕ
  dims : List ℕ
  perm : ℕ
  deriving DecidableEq, Repr

/-! ### Emission -/

/-- The first axis of this size that is not used yet. SOURCE: op_transpose.cpp:49-50 -/
def freeAxis (dims : List ℕ) (used : List ℕ) (size : ℕ) : Option ℕ :=
  (List.range dims.length).find? fun j => decide (j ∉ used ∧ dims[j]? = some size)

/-- Guess the permutation from the two shapes. SOURCE: op_transpose.cpp:45-56 -/
def guessPerm (dims : List ℕ) : List ℕ → List ℕ → Option (List ℕ)
  | used, [] => some used
  | used, size :: out =>
    match freeAxis dims used size with
    | none => none
    | some j => guessPerm dims (used ++ [j]) out

/-- The permutation and the shape it refers to: the constant, or a guess.
SOURCE: op_transpose.cpp:15-58 -/
def readPerm (dims : List ℕ) (permc : Option (List ℤ)) (out : OutputDef) :
    Checked String (List ℕ × List ℤ) :=
  match permc with
  | some (p :: ps) =>
    if 5 < (p :: ps).length then .error (.reject "transpose perm 轴数 %u > 5")
    else .ok (dims, p :: ps)
  | _ =>
    let outDims := out.shape.map u32
    let dims := dropOnes outDims.length dims
    let outDims := dropOnes dims.length outDims
    if outDims.length ≠ dims.length then
      .error (.reject "transpose 无 perm 且秩不可对齐 %u/%u")
    else
      match guessPerm dims [] outDims with
      | none => .error (.reject "transpose 形状轴 %u 无法对齐")
      | some p => .ok (dims, p.map Int.ofNat)

/-- The new number of each axis; with folding, axes of size 1 have none.
SOURCE: op_transpose.cpp:73-80 -/
def keepFrom (fold : Bool) : ℕ → List ℕ → List (Option ℕ)
  | _, [] => []
  | k, d :: ds =>
    if fold ∧ d = 1 then none :: keepFrom fold k ds else some k :: keepFrom fold (k + 1) ds

/-- The axes that stay. SOURCE: op_transpose.cpp:73-80 -/
def keptDims (fold : Bool) (dims : List ℕ) : List ℕ :=
  dims.filter fun d => !(fold && decide (d = 1))

/-- The new number of an axis of the permutation, if it is an axis at all. -/
def keptAxis (keep : List (Option ℕ)) (ax : ℤ) : Option (Option ℕ) :=
  if ax < 0 then none else keep[ax.toNat]?

/-- Renumber the permutation, up to four axes. SOURCE: op_transpose.cpp:85-91 -/
def renumber (keep : List (Option ℕ)) : List ℕ → List ℤ → Option (List ℕ)
  | np, [] => some np
  | np, ax :: pv =>
    if np.length = 4 then some np
    else
      match keptAxis keep ax with
      | none => none
      | some none => renumber keep np pv
      | some (some k) => renumber keep (np ++ [k]) pv

/-- Pack the permutation, one byte for each axis. SOURCE: op_transpose.cpp:96-97 -/
def packPerm : List ℕ → ℕ
  | [] => 0
  | k :: np => k + 2 ^ 8 * packPerm np

/-- Fold, renumber and pack. SOURCE: op_transpose.cpp:62-99 -/
def encode (dims : List ℕ) (pv : List ℤ) : Checked String TransposeArgs :=
  let dims := dropOnes pv.length dims
  if dims.length ≠ pv.length then
    .error (.reject "transpose perm 轴数 %u 与输入秩 %u 不可对齐")
  else
    let fold := decide (4 < dims.length)
    let nd := keptDims fold dims
    if 4 < nd.length then .error (.reject "transpose rank %u 无 size-1 轴可折")
    else
      match renumber (keepFrom fold 0 dims) [] pv with
      | none => .error (.reject "transpose perm 与折叠不一致(npi=%u nrk=%u)")
      | some np =>
        if np.length ≠ nd.length then
          .error (.reject "transpose perm 与折叠不一致(npi=%u nrk=%u)")
        else .ok ⟨nd.length, nd ++ List.replicate (4 - nd.length) 1, packPerm np⟩

/-- The emission. The permutation constant is given by its entries, none if it is missing or is not
a row of 32-bit numbers. SOURCE: op_transpose.cpp, op_transpose -/
def opTranspose (src : Option OutputDef) (permc : Option (List ℤ)) (out : OutputDef) :
    Checked String TransposeArgs :=
  match src with
  | none => .error (.reject "transpose src missing")
  | some src =>
    if 5 < src.rank then .error (.reject "transpose rank %u > 5")
    else (readPerm (src.shape.map u32) permc out).bind fun p => encode p.1 p.2

/-! ### Execution -/

/-- The axes that the bytes of the permutation name. SOURCE: oplist_exec.c:1920-1921 -/
def unpackPerm (perm : ℕ) (rk : ℕ) : List ℕ :=
  (List.range rk).map fun i => perm / 2 ^ (8 * i) % 2 ^ 8

/-- The size of the axis that the permutation names. SOURCE: oplist_exec.c:1927 -/
def permDim (dims : List ℕ) (p : ℕ) : ℕ := if dims.length ≤ p then 1 else dims.getD p 1

/-- The coordinates in the order of the permutation. The four coordinates of the source are 0 from
the rank on. SOURCE: oplist_exec.c:1939-1940 -/
def permCoords (ic : List ℕ) (p : List ℕ) : Checked String (List ℕ) :=
  p.mapM fun a => entryAt (ic ++ List.replicate (4 - ic.length) 0) a

/-- One round: the element at place `t` of the input and its place in the output.
SOURCE: oplist_exec.c:1933-1944 -/
def transposeCell (dims p : List ℕ) (x : Tensor) (t : ℕ) : Checked String (ℕ × UInt16) := do
  let ic ← walk (strides32 dims) (u32 t)
  let oc ← permCoords ic p
  let v ← x.load t
  .ok (address32 (strides32 (p.map (permDim dims))) oc, v)

/-- SOURCE: oplist_exec.c, exec_transpose_gen -/
def execTransposeGen (args : TransposeArgs) (x : Tensor) (old : ℕ → UInt16) :
    Checked String (List UInt16) :=
  if args.rk < 2 ∨ 4 < args.rk then .error (.reject "transpose_gen rank %u")
  else
    let dims := args.dims.take args.rk
    fillLoop (transposeCell dims (unpackPerm args.perm args.rk) x) (List.range dims.prod)
      (tempGet old (dims.prod * 2))

def transpose (src : Option OutputDef) (permc : Option (List ℤ)) (out : OutputDef) (x : Tensor)
    (old : ℕ → UInt16) : Checked String (List UInt16) := do
  let args ← opTranspose src permc out
  execTransposeGen args x old

end Gehtp.Model.TransposeOp
