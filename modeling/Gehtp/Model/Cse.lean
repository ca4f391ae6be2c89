import Mathlib.Data.List.Sort
import Gehtp.Model.OpGraph

/-!
# Common-subexpression elimination

`common_subexpr_eliminate` (`compiler/src/ir/graph_prepare.cpp`) walks over the operators
in the order of the map. A 64-bit signature stands for an operator; the first operator
of a signature is kept, and a later one of the same signature and inputs is replaced by
it in its consumers and removed at the end.
-/

set_option autoImplicit false

namespace Gehtp.Model.Cse

open Model.OpGraph

/-! ### The signature -/

/-- The multiplier 2^64 / φ of the signature. -/
def golden : UInt64 := 0x9E3779B97F4A7C15

/-- The rotation `(sig << k) | (sig >> (64 - k))`. -/
def rotl (sig k : UInt64) : UInt64 := (sig <<< k) ||| (sig >>> (64 - k))

def nameBytes (nm : String) : List UInt8 := nm.toList.flatMap String.utf8EncodeChar

/-- The hash key of a name. SOURCE: opdef.cpp, string_tag_t::map_str -/
def mapStrHash (nm : String) : UInt64 :=
  let h := (nameBytes nm).foldl (fun h b => h * 31 + b.toUInt64) (0 : UInt64)
  let lo := h.toUInt32
  let hi := (h >>> 32).toUInt32
  ((lo ^^^ hi * 0x192E2101) * 0x740F1DE9).toUInt64

/-- SOURCE: opdef.cpp, OpDef::hash_key -/
def hashKey (od : OpDef) : UInt64 :=
  match od.nameTag with
  | none => 0
  | some nm => mapStrHash nm

/-- Inputs are sorted by source, then by output index. -/
def inputLe (a b : InputConn) : Prop :=
  a.srcId < b.srcId ∨ (a.srcId = b.srcId ∧ a.outIdx ≤ b.outIdx)

instance : DecidableRel inputLe := fun _ _ => inferInstanceAs (Decidable (_ ∨ _))

/-- SOURCE: graph_prepare.cpp:3785-3789 -/
def mixInput (sig : UInt64) (c : InputConn) : UInt64 :=
  rotl (sig ^^^ UInt64.ofNat c.srcId * golden ^^^ (UInt64.ofNat c.outIdx <<< 32)) 1

/-- SOURCE: graph_prepare.cpp:3794-3797 -/
def mixTensorParam (sig : UInt64) (tpid : ℕ) : UInt64 :=
  rotl (sig ^^^ UInt64.ofNat tpid * golden) 1

/-- SOURCE: graph_prepare.cpp:3801-3804 -/
def mixByte (sig : UInt64) (b : UInt8) : UInt64 :=
  rotl (sig ^^^ (b.toUInt64 + golden)) 8

/-- SOURCE: graph_prepare.cpp:3810-3813 -/
def mixDim (sig : UInt64) (d : ℕ) : UInt64 :=
  rotl (sig ^^^ (UInt64.ofNat d + golden)) 5

/-- The signature of an operator. SOURCE: graph_prepare.cpp:3776-3815 -/
def computeSignature (od : OpDef) : UInt64 :=
  let sig := (od.inputs.insertionSort inputLe).foldl mixInput (hashKey od)
  let sig := (od.tensorParamIds.insertionSort (· ≤ ·)).foldl mixTensorParam sig
  let sig := od.opData.foldl mixByte sig
  let sig := sig ^^^ UInt64.ofNat od.outputDef.rank * golden
  let sig := sig ^^^ (UInt64.ofNat od.outputDef.dtype <<< 48)
  od.outputDef.shape.foldl mixDim sig

/-! ### The pass -/

/-- What the pass reads besides the operators: the order in which the map is walked, and
the two special nodes. -/
structure CseConfig where
  keys : List ℕ
  inputNodeId : ℕ
  outputNodeId : ℕ

/-- The state of the walk. `cseMap` holds the operator kept for a signature. -/
structure CseState where
  ops : OpMap
  cseMap : UInt64 → Option ℕ
  toRemove : List ℕ

/-- An operator that may be merged. SOURCE: graph_prepare.cpp:3820-3826 -/
def candidate (cfg : CseConfig) (id : ℕ) (od : OpDef) : Bool :=
  od.isEnabled && !od.isConst && !od.isDead && decide (id ≠ cfg.inputNodeId) &&
    decide (id ≠ cfg.outputNodeId) && decide (od.nameTag ≠ some "Input")

/-- An input of `b` becomes one of `a`. SOURCE: graph_prepare.cpp:3851-3855 -/
def redirectInput (b a : ℕ) (c : InputConn) : InputConn :=
  if c.srcId = b then { c with srcId := a } else c

/-- All inputs of `b` become inputs of `a`. -/
def rewire (b a : ℕ) (od : OpDef) : OpDef :=
  { od with inputs := od.inputs.map (redirectInput b a) }

/-- Append to the consumer list. SOURCE: graph_prepare.cpp:3857 -/
def addConsumer (id : ℕ) (od : OpDef) : OpDef :=
  { od with consumers := od.consumers ++ [id] }

/-- One consumer of the superseded operator. SOURCE: graph_prepare.cpp:3848-3859 -/
def redirectConsumer (b a : ℕ) (ops : OpMap) (consumerId : ℕ) : OpMap :=
  if (ops.getOpAt consumerId).isSome then
    (ops.modify consumerId (rewire b a) fun _ => rfl).modify a (addConsumer consumerId) fun _ => rfl
  else ops

/-- The operator `a` takes the place of `od`. SOURCE: graph_prepare.cpp:3845-3861 -/
def supersede (s : CseState) (od : OpDef) (a : ℕ) : CseState :=
  { s with
    ops := od.consumers.foldl (redirectConsumer od.opId a) s.ops
    toRemove := s.toRemove ++ [od.opId] }

/-- The operator that the visit of `id` merges, with the one that it is merged into:
a candidate whose signature is in the map under an operator with the same inputs.
SOURCE: graph_prepare.cpp:3828-3843 -/
def mergeAt (cfg : CseConfig) (s : CseState) (id : ℕ) : Option (OpDef × OpDef) :=
  match s.ops.getOpAt id with
  | none => none
  | some od =>
    if candidate cfg id od then
      match (s.cseMap (computeSignature od)).bind s.ops.getOpAt with
      | none => none
      | some existing => if existing.inputs = od.inputs then some (od, existing) else none
    else none

/-- Keep the operator for its signature, if it is the first one.
SOURCE: graph_prepare.cpp:3863-3865 -/
def keep (cfg : CseConfig) (s : CseState) (id : ℕ) : CseState :=
  match s.ops.getOpAt id with
  | none => s
  | some od =>
    if candidate cfg id od && (s.cseMap (computeSignature od)).isNone then
      { s with cseMap := Function.update s.cseMap (computeSignature od) (some od.opId) }
    else s

/-- The visit of one entry of the map. SOURCE: graph_prepare.cpp:3819-3866 -/
def visit (cfg : CseConfig) (s : CseState) (id : ℕ) : CseState :=
  match mergeAt cfg s id with
  | some (od, existing) => supersede s od existing.opId
  | none => keep cfg s id

def walk (cfg : CseConfig) (ops : OpMap) (l : List ℕ) : CseState :=
  l.foldl (visit cfg) ⟨ops, fun _ => none, []⟩

/-- The operators that remain, the number of those eliminated, and the flag that the
graph has changed. -/
structure CseResult where
  ops : OpMap
  eliminated : ℕ
  graphDirty : Bool

/-- The pass. SOURCE: graph_prepare.cpp:3760-3875 -/
def commonSubexprEliminate (cfg : CseConfig) (ops : OpMap) (graphDirty : Bool) : CseResult :=
  let s := walk cfg ops cfg.keys
  let eliminated := s.toRemove.length
  ⟨s.ops.eraseAll s.toRemove, eliminated, graphDirty || decide (0 < eliminated)⟩

/-! ### Consumer lists -/

/-- Append to the consumer list unless it is there.
SOURCE: graph_prepare.cpp:4028-4032 -/
def addConsumerOnce (id : ℕ) (src : OpDef) : OpDef :=
  if id ∈ src.consumers then src else addConsumer id src

theorem addConsumerOnce_opId (id : ℕ) (src : OpDef) :
    (addConsumerOnce id src).opId = src.opId := by
  unfold addConsumerOnce
  split <;> rfl

/-- List `id` among the consumers of the source of an input.
SOURCE: graph_prepare.cpp:4026-4033 -/
def linkConsumer (id : ℕ) (ops : OpMap) (c : InputConn) : OpMap :=
  ops.modify c.srcId (addConsumerOnce id) (addConsumerOnce_opId id)

/-- List an enabled operator with the sources of its inputs.
SOURCE: graph_prepare.cpp:4023-4034 -/
def linkInputs (ops : OpMap) (id : ℕ) : OpMap :=
  match ops.getOpAt id with
  | none => ops
  | some od => if od.isEnabled then od.inputs.foldl (linkConsumer id) ops else ops

/-- Clear the consumer list. SOURCE: graph_prepare.cpp:4018-4021 -/
def clearConsumers (ops : OpMap) (id : ℕ) : OpMap :=
  ops.modify id (fun od => { od with consumers := [] }) fun _ => rfl

/-- SOURCE: graph_prepare.cpp:4017-4036, GraphPrepare::rebuild_consumers -/
def rebuildConsumers (keys : List ℕ) (ops : OpMap) : OpMap :=
  keys.foldl linkInputs (keys.foldl clearConsumers ops)

end Gehtp.Model.Cse
