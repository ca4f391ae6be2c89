import Gehtp.Lib.Wire

/-!
# Scalar parameters and the trailing bytes of an op record

The loader packs the scalar parameters of an operator into its `op_data`
(`compiler/include/hnnx/ir/scalar_params.hpp`). The binary has no `op_data`: an op record ends
with the bytes of a struct of `op_extra.hpp`, and the deserializer packs new scalar parameters
from them. A `double` is its 64 bits; the ones that the deserializer makes come from 32-bit
integers.
-/

set_option autoImplicit false

namespace Gehtp.Model.OpExtra

open Lib

/-- The bytes of a string of the source. -/
def ascii (s : String) : List UInt8 := s.toList.map fun c => UInt8.ofNat c.toNat

/-! ### Doubles -/

/-- The bits of the double of a natural number below `2 ^ 53`. -/
def f64OfNat (v : ℕ) : UInt64 :=
  if v = 0 then 0
  else UInt64.ofNat ((1023 + v.log2) * 2 ^ 52 + (v * 2 ^ (52 - v.log2) - 2 ^ 52))

/-- `(double)` of an unsigned number. -/
def f64OfU32 (v : UInt32) : UInt64 := f64OfNat v.toNat

/-- `(double)` of a signed number, given by its bits. -/
def f64OfI32 (v : UInt32) : UInt64 :=
  if v.toNat < 2 ^ 31 then f64OfNat v.toNat
  else UInt64.ofNat (2 ^ 63) ||| f64OfNat (2 ^ 32 - v.toNat)

/-! ### Scalar parameters -/

/-- SOURCE: scalar_params.hpp:17-23, ScalarParam; the number is given by its bits. -/
structure ScalarParam where
  name : List UInt8
  isNumeric : Bool
  valueNum : UInt64
  valueStr : List UInt8
  deriving DecidableEq

/-- A number. SOURCE: graph_prepare.cpp:2497-2500 -/
def ScalarParam.num (k : String) (v : UInt64) : ScalarParam := ⟨ascii k, true, v, []⟩

/-- A string. SOURCE: graph_prepare.cpp:2501-2504 -/
def ScalarParam.str (k v : String) : ScalarParam := ⟨ascii k, false, 0, ascii v⟩

/-- The bytes of one parameter. SOURCE: scalar_params.hpp:49-60 -/
def packScalarParam (p : ScalarParam) : List UInt8 :=
  u32le (UInt32.ofNat p.name.length) ++ p.name ++
    if p.isNumeric then 0 :: u64le p.valueNum
    else 1 :: u32le (UInt32.ofNat p.valueStr.length) ++ p.valueStr

/-- SOURCE: scalar_params.hpp:46-62, pack_scalar_params -/
def packScalarParams (sp : List ScalarParam) : List UInt8 :=
  u32le (UInt32.ofNat sp.length) ++ sp.flatMap packScalarParam

/-- The value of a parameter, after its kind, and the position after it.
SOURCE: scalar_params.hpp:77-88 -/
def unpackValue (blob : List UInt8) (name : List UInt8) (off : ℕ) : Option (ScalarParam × ℕ) :=
  if le8 blob off = 0 then
    if blob.length < off + 1 + 8 then none
    else some (⟨name, true, le64 blob (off + 1), []⟩, off + 1 + 8)
  else if blob.length < off + 1 + 4 then none
  else
    let slen := (le32 blob (off + 1)).toNat
    if blob.length < off + 1 + 4 + slen then none
    else some (⟨name, false, 0, (blob.drop (off + 1 + 4)).take slen⟩, off + 1 + 4 + slen)

/-- The parameters from `off` on; the first one that does not fit ends the loop.
SOURCE: scalar_params.hpp:69-90 -/
def unpackFrom (blob : List UInt8) : (n off : ℕ) → List ScalarParam
  | 0, _ => []
  | n + 1, off =>
    if blob.length < off + 4 then []
    else
      let nlen := (le32 blob off).toNat
      if blob.length < off + 4 + nlen + 1 then []
      else
        match unpackValue blob ((blob.drop (off + 4)).take nlen) (off + 4 + nlen) with
        | none => []
        | some (p, off') => p :: unpackFrom blob n off'

/-- SOURCE: scalar_params.hpp:64-92, unpack_scalar_params -/
def unpackScalarParams (blob : List UInt8) : List ScalarParam :=
  if blob.length < 4 then [] else unpackFrom blob (le32 blob 0).toNat 4

/-- The value of a parameter, each read checked. SOURCE: scalar_params.hpp:75-88 -/
def readValue (b : Buf) (name : List UInt8) (off : ℕ) : Checked Empty (Option (ScalarParam × ℕ)) := do
  let kind ← byteAt b off
  if kind = 0 then
    if b.size < off + 1 + 8 then pure none
    else do
      let v ← rdU64 b (off + 1)
      pure (some (⟨name, true, v, []⟩, off + 1 + 8))
  else if b.size < off + 1 + 4 then pure none
  else do
    let slen ← rdU32 b (off + 1)
    if b.size < off + 1 + 4 + slen.toNat then pure none
    else do
      let str ← rdBytes b (off + 1 + 4) slen.toNat
      pure (some (⟨name, false, 0, str⟩, off + 1 + 4 + slen.toNat))

/-- The loop over the parameters, each read checked. SOURCE: scalar_params.hpp:69-90 -/
def readFrom (b : Buf) : (n off : ℕ) → Checked Empty (List ScalarParam)
  | 0, _ => pure []
  | n + 1, off =>
    if b.size < off + 4 then pure []
    else do
      let nlen ← rdU32 b off
      if b.size < off + 4 + nlen.toNat + 1 then pure []
      else do
        let name ← rdBytes b (off + 4) nlen.toNat
        let value ← readValue b name (off + 4 + nlen.toNat)
        match value with
        | none => pure []
        | some (p, off') => do
          let rest ← readFrom b n off'
          pure (p :: rest)

/-- `unpack_scalar_params` on a blob that ends where its vector ends: a read behind it faults.
SOURCE: scalar_params.hpp:64-92 -/
def readScalarParams (b : Buf) : Checked Empty (List ScalarParam) :=
  if b.size < 4 then pure []
  else do
    let n ← rdU32 b 0
    readFrom b n.toNat 4

/-- SOURCE: scalar_params.hpp:95-99, scalar_get -/
def scalarGet (sp : List ScalarParam) (name : String) : Option ScalarParam :=
  sp.find? fun p => decide (p.name = ascii name)

/-! ### Back from the trailing bytes -/

/-- The keys of the operators with a state; an empty one has no parameter.
SOURCE: graph_prepare.cpp:2298-2314, decode_state_keys -/
def decodeStateKeys (nm : List UInt8) : Option (List String) :=
  if nm = ascii "DecodeFaceF16" then some ["u16_begin", "u16_len", "", "", ""]
  else if nm = ascii "KvAppendF16" then some ["state_idx", "kv_heads", "head_dim", "", ""]
  else if nm = ascii "KvGatherKT" then some ["state_idx", "n_heads", "kv_heads", "head_dim", ""]
  else if nm = ascii "KvGatherV" then some ["state_idx", "n_heads", "kv_heads", "head_dim", ""]
  else if nm = ascii "Conv1dSsmStepF16" then some ["state_idx", "C", "d_conv", "", ""]
  else if nm = ascii "DeltaChunkF16" then some ["state_idx", "H", "D", "q_raw", ""]
  else none

/-- The names that carry an `ExtraEltwise`. SOURCE: graph_prepare.cpp:2505-2508 -/
def isEltwise (nm : List UInt8) : Bool :=
  nm = ascii "Eltwise_Binary" ∨ nm = ascii "Eltwise_Unary" ∨ nm = ascii "ElementWiseNeuron" ∨
    nm = ascii "Eltwise_Ternary"

/-- The names whose axis is restored. SOURCE: graph_prepare.cpp:2514-2515 -/
def isAxis (nm : List UInt8) : Bool :=
  nm = ascii "Softmax" ∨ nm = ascii "Gather" ∨ nm = ascii "Concat" ∨ nm = ascii "CumulativeSum"

/-- The kind of a reduction; a sum has no parameter. SOURCE: graph_prepare.cpp:2522-2527 -/
def reduceParam (reduceType : UInt32) : List ScalarParam :=
  if reduceType = 1 then [.str "reduce_type" "ReduceMean"]
  else if reduceType = 2 then [.str "reduce_type" "ReduceMax"]
  else if reduceType = 3 then [.str "reduce_type" "ReduceMin"]
  else []

/-- The parameters that the trailing bytes give; too few bytes give none.
SOURCE: graph_prepare.cpp:2505-2555 -/
def paramsOfExtra (nm ex : List UInt8) : List ScalarParam :=
  if isEltwise nm then
    if ex.length < 8 then []
    else .num "operation" (f64OfU32 (le32 ex 0)) ::
      if le32 ex 4 = 0 then [.str "eltwise_type" "SELECT"] else []
  else if isAxis nm then
    if ex.length < 20 then [] else [.num "axis" (f64OfI32 (le32 ex 0))]
  else if nm = ascii "Reduce" then
    if ex.length < 20 then [] else reduceParam (le32 ex 4)
  else if nm = ascii "Split" then
    if ex.length < 44 then [] else [.num "split_index" (f64OfU32 (le32 ex 40))]
  else if nm = ascii "Pad" then
    if ex.length < 16 then []
    else [.num "scheme" (f64OfU32 (le32 ex 0)), .num "pad_constant_value" (le64 ex 8)]
  else if nm = ascii "MatMul" then
    if ex.length < 24 then [] else [.num "transpose_in1" (f64OfU32 (le32 ex 16))]
  else
    match decodeStateKeys nm with
    | none => []
    | some keys =>
      if ex.length < 20 then []
      else keys.zipIdx.filterMap fun k =>
        if k.1 = "" then none else some (.num k.1 (f64OfU32 (le32 ex (4 * k.2))))

/-- The new `op_data`; without parameters it stays empty.
SOURCE: graph_prepare.cpp:2491-2557, rebuild_op_data_from_extra -/
def rebuildOpDataFromExtra (nm ex : List UInt8) : List UInt8 :=
  if ex = [] ∨ paramsOfExtra nm ex = [] then [] else packScalarParams (paramsOfExtra nm ex)

end Gehtp.Model.OpExtra
