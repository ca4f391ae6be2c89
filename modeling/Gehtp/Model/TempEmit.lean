import Gehtp.Lib.Lease
import Gehtp.Model.DdrOffsets
import Gehtp.Model.PlanOrder

/-!
# Temps in the emitter

`wtop_emit` (`compiler/tools/wtop_emit.cpp`, `compiler/tools/wtop_ops/wtop_ops.hpp`) walks
over the execution order and emits device ops. The output of an operator gets a temp id
from `fresh_temp`; after the last consumer `release_at` takes the id back, and it is handed
out again. With a memory plan, the first operator that gets an id also decides where the
id lives: `fresh_temp` copies its place from the plan to the table of temp offsets.

What a handler does with temps is a list of calls; everything else that it puts into its
ops has no influence on temps and is left out.
-/

set_option autoImplicit false

namespace Gehtp.Model.TempEmit

open Lib Lib.Lease Model.OpGraph Model.DdrOffsets Model.PlanOrder

/-- The key of an output in 64 bits: `(op_id << 32) | out_idx`.
SOURCE: wtop_ops.hpp:118-120, Emitter::tkey -/
def tkey (opId outIdx : ℕ) : ℕ := opId % 2 ^ 32 * 2 ^ 32 + outIdx % 2 ^ 32

/-- The id under which `Conv2d` asks for its columns. SOURCE: op_conv2d.cpp:44 -/
def colsId : ℕ := 0xFFFFFFF0

/-- A place in a pool, in 32 bits. -/
structure TempPlace where
  offset : ℕ
  size : ℕ
  inVtcm : Bool
  deriving DecidableEq

/-- A device op: where in the order its operator stands, the temps that it reads, and the
temp that it writes with the bytes that it asks for. With each temp stands the key of the
output that it is used for. -/
structure DeviceOp where
  pos : ℕ
  reads : List (ℕ × ℕ)
  dst : Option ((ℕ × ℕ) × ℕ)
  deriving DecidableEq

def DeviceOp.uses (op : DeviceOp) : List (ℕ × ℕ) := op.reads ++ (op.dst.map Prod.fst).toList

/-! ### Handlers -/

/-- How a handler names a temp: the source of an input, an output of its own, or the
columns. -/
inductive TempRef where
  | input (i : ℕ)
  | out (outIdx : ℕ)
  | cols

/-- What a handler does with temps: ask for one, or add a device op. -/
inductive HandlerStep where
  | fresh (outIdx : ℕ)
  | freshCols
  | addOp (reads : List TempRef) (dst : Option (TempRef × ℕ))

/-- The outputs that a handler asks temps for. -/
def freshOuts (steps : List HandlerStep) : List ℕ :=
  steps.filterMap fun
    | .fresh outIdx => some (outIdx % 2 ^ 32)
    | _ => none

/-- What a handler does; it asks once for each of its outputs. -/
structure Recipe where
  steps : List HandlerStep
  once : (freshOuts steps).Nodup

/-- The number of elements of an output. SOURCE: wtop_ops.hpp, elems_of -/
def elemsOf (od : OpDef) : ℕ := od.outputDef.shape.foldl (fun e d => (e * d) % 2 ^ 64) 1

/-- The bytes of `n` f16 elements in 32 bits. -/
def f16Bytes (n : ℕ) : ℕ := n % 2 ^ 32 * 2 % 2 ^ 32

/-- One device op that reads some inputs and writes the output. -/
def plainRecipe (reads : List ℕ) (od : OpDef) : Recipe where
  steps := [.fresh 0, .addOp (reads.map .input) (some (.out 0, f16Bytes (elemsOf od)))]
  once := List.nodup_singleton 0

/-- SOURCE: op_copy_sem.cpp:38-45 -/
def opCopySem (od : OpDef) : Recipe := plainRecipe [0] od

/-- SOURCE: op_concat.cpp:8-35 -/
def opConcat (od : OpDef) : Recipe := plainRecipe (List.range (min 8 od.inputs.length)) od

/-- An input that has to be materialised gets a temp of its own.
SOURCE: op_eltwise_binary.cpp:43-55 -/
def materialize (od : OpDef) (i outIdx : ℕ) : List HandlerStep :=
  [.fresh outIdx, .addOp [.input i] (some (.out outIdx, f16Bytes (elemsOf od)))]

/-- The steps of an element-wise operator of two inputs; `a` and `b` say which of them are
materialised, because they have fewer elements than the output.
SOURCE: op_eltwise_binary.cpp:9-75 -/
def binarySteps (od : OpDef) (a b : Bool) : List HandlerStep :=
  .fresh 0 :: (if a then materialize od 0 6 else []) ++ (if b then materialize od 1 7 else []) ++
    [.addOp [if a then .out 6 else .input 0, if b then .out 7 else .input 1]
      (some (.out 0, f16Bytes (elemsOf od)))]

theorem binarySteps_once (od : OpDef) (a b : Bool) : (freshOuts (binarySteps od a b)).Nodup := by
  cases a <;> cases b <;> simp [freshOuts, binarySteps, materialize]

/-- The two device ops of each tile. The tiles give the bytes of the columns and of the
output. SOURCE: op_conv2d.cpp:42-61 -/
def conv2dSteps (tiles : List (ℕ × ℕ)) : List HandlerStep :=
  .fresh 0 :: .freshCols :: tiles.flatMap fun t =>
    [.addOp [.input 0] (some (.cols, t.1)), .addOp [.cols] (some (.out 0, t.2))]

theorem conv2dSteps_once (tiles : List (ℕ × ℕ)) : (freshOuts (conv2dSteps tiles)).Nodup := by
  have htiles : freshOuts (tiles.flatMap fun t =>
      [.addOp [.input 0] (some (.cols, t.1)), .addOp [.cols] (some (.out 0, t.2))]) = [] := by
    induction tiles with
    | nil => rfl
    | cons t tiles ih => simpa [freshOuts] using ih
  have : freshOuts (conv2dSteps tiles) = [0] := by
    simpa [freshOuts, conv2dSteps] using htiles
  rw [this]
  exact List.nodup_singleton 0

/-- SOURCE: op_conv2d.cpp:9-62 -/
def opConv2d (tiles : List (ℕ × ℕ)) : Recipe := ⟨conv2dSteps tiles, conv2dSteps_once tiles⟩

/-! ### What the emitter is given -/

/-- The graph with its plan, the handlers, and what decides that a reference is a slot.
A handler that reports an error, or a name without a handler, is `none`. -/
structure EmitConfig where
  g : OpMap
  planOrder : List ℕ
  plan : DdrPlan
  outputNodeId : ℕ
  opRegistry : String → Option (OpDef → Option Recipe)
  mainInputId : ℕ
  inputSlots : List ℕ
  constDataSize : ℕ → ℕ
  dmaRunlist : Bool

/-- The suffixes of parameter constants. SOURCE: wtop_emit.cpp:507, wtop_ops.hpp -/
def paramSuffixes : List String :=
  ["_shape", "_axes", "_pad_amount", "_ranges", "_perm", "_multiples", "_split_index",
    "_dilation", "_stride"]

/-- SOURCE: wtop_emit.cpp:507-513 -/
def isParamName (nm : String) : Bool :=
  paramSuffixes.any fun sfx => sfx.toList.isSuffixOf nm.toList

namespace EmitConfig

/-- The order of emission; an empty one is replaced by the ids of small graphs.
SOURCE: wtop_emit.cpp:431-484 -/
def order (cfg : EmitConfig) : List ℕ :=
  let order := emitOrder cfg.g cfg.planOrder
  if order = [] then List.range' 1 10 else order

/-- SOURCE: wtop_emit.cpp:132-135 -/
def ddrOpMap (cfg : EmitConfig) : ℕ → Option TempPlace :=
  store (fun _ => none) (cfg.plan.entries.map fun e =>
    (e.opId, ⟨e.offset % 2 ^ 32, e.size % 2 ^ 32, e.inVtcm⟩))

/-- The spilled outputs with their sizes. SOURCE: wtop_emit.cpp:140-141 -/
def ddrSpillMap (cfg : EmitConfig) : ℕ → Option ℕ :=
  store (fun _ => none) (cfg.plan.spilled.map fun e => (e.opId, e.size % 2 ^ 32))

/-- A reference to an input node, a constant, a missing or a nameless operator is a slot.
SOURCE: wtop_ops.hpp, Emitter::src_ref -/
def srcIsSlot (cfg : EmitConfig) (srcId : ℕ) : Bool :=
  decide (srcId = cfg.mainInputId) || decide (srcId ∈ cfg.inputSlots) ||
    match cfg.g.getOpAt srcId with
    | none => true
    | some p =>
      p.isConst || decide (0 < cfg.constDataSize srcId) ||
        match p.nameTag with
        | none => true
        | some nm => decide (nm = "") || isParamName nm

/-- The bytes that `fresh_temp` expects. SOURCE: wtop_ops.hpp:154-160 -/
def need (cfg : EmitConfig) (opId : ℕ) : ℕ :=
  match cfg.g.getOpAt opId with
  | none => 4
  | some od =>
    let elems := if elemsOf od = 0 then 1 else elemsOf od
    let es := if od.outputDef.elementSize = 0 then 4 else od.outputDef.elementSize
    elems * es % 2 ^ 64

/-- The planned place of an output, if `fresh_temp` may use it.
SOURCE: wtop_ops.hpp:153-163 -/
def usablePlace (cfg : EmitConfig) (opId outIdx : ℕ) : Option TempPlace :=
  match cfg.ddrOpMap opId with
  | none => none
  | some p => if outIdx % 2 ^ 32 = 0 ∧ cfg.need opId ≤ p.size then some p else none

/-- The inputs in the order of the walk, each with its position.
SOURCE: wtop_ops.hpp:122-129, compute_last_use -/
def inputUses (cfg : EmitConfig) : List (ℕ × ℕ) :=
  cfg.order.zipIdx.flatMap fun e =>
    match cfg.g.getOpAt e.1 with
    | none => []
    | some od => od.inputs.map fun c => (tkey c.srcId c.outIdx, e.2 % 2 ^ 32)

/-- The output of the graph is used after the last position.
SOURCE: wtop_emit.cpp:487-492 -/
def outputUse (cfg : EmitConfig) : List (ℕ × ℕ) :=
  match (cfg.g.getOpAt cfg.outputNodeId).bind fun out => out.inputs.head? with
  | none => []
  | some c => [(tkey c.srcId c.outIdx, cfg.order.length % 2 ^ 32)]

/-- The last position at which an output is used. -/
def lastUse (cfg : EmitConfig) : ℕ → Option ℕ :=
  store (fun _ => none) (cfg.inputUses ++ cfg.outputUse)

end EmitConfig

/-! ### The emitter -/

/-- The part of `Emitter` that temps touch: `op_temp`, `free_temps` and `next_temp` are the
desk, `ddr_temp_tab` and `ddr_temp_vtcm` the table of places, and `ops` what was emitted.
SOURCE: wtop_ops.hpp:89-116 -/
structure Emitter where
  desk : Desk ℕ
  tempTab : ℕ → Option TempPlace
  ops : List DeviceOp

/-- The emitter before the first operator. -/
def Emitter.new : Emitter := ⟨Desk.new, fun _ => none, []⟩

/-- The temp that an output is in, with its key. -/
def Emitter.lookup (em : Emitter) (key : ℕ) : Option (ℕ × ℕ) :=
  (em.desk.own key).map fun t => (t, key)

/-- Ask for a temp; more than 32768 ids end the emitter.
SOURCE: wtop_ops.hpp:141-185, Emitter::fresh_temp -/
def freshTemp (cfg : EmitConfig) (em : Emitter) (opId outIdx : ℕ) : Option Emitter :=
  let t := em.desk.taken
  let desk := em.desk.acquire (tkey opId outIdx)
  let tempTab :=
    match cfg.usablePlace opId outIdx with
    | none => em.tempTab
    | some p =>
      if em.tempTab t = none then Function.update em.tempTab t (some p) else em.tempTab
  if 32768 < desk.next then none else some { em with desk := desk, tempTab := tempTab }

/-- Give a temp back after the last use. SOURCE: wtop_ops.hpp:131-140, Emitter::release_at -/
def releaseAt (cfg : EmitConfig) (em : Emitter) (key pos : ℕ) : Emitter :=
  match cfg.lastUse key with
  | some lu => if pos < lu then em else { em with desk := em.desk.release key }
  | none => { em with desk := em.desk.release key }

/-- Decode a reference of a handler. A slot is `some none`; a temp that is not there ends
the emitter. SOURCE: wtop_ops.hpp:372-405, Emitter::src_ref -/
def resolve (cfg : EmitConfig) (em : Emitter) (od : OpDef) : TempRef → Option (Option (ℕ × ℕ))
  | .input i =>
    match od.inputs[i]? with
    | none => none
    | some c =>
      if cfg.srcIsSlot c.srcId then some none
      else (em.lookup (tkey c.srcId c.outIdx)).map some
  | .out outIdx => (em.lookup (tkey od.opId outIdx)).map some
  | .cols => (em.lookup (tkey colsId 0)).map some

def resolveDst (cfg : EmitConfig) (em : Emitter) (od : OpDef) :
    Option (TempRef × ℕ) → Option (Option ((ℕ × ℕ) × ℕ))
  | none => some none
  | some (r, bytes) => (resolve cfg em od r).map fun d => d.map fun t => (t, bytes)

/-- Append a device op. SOURCE: wtop_ops.hpp, Emitter::add_op -/
def addOp (cfg : EmitConfig) (em : Emitter) (pos : ℕ) (od : OpDef) (reads : List TempRef)
    (dst : Option (TempRef × ℕ)) : Option Emitter :=
  match reads.mapM (resolve cfg em od), resolveDst cfg em od dst with
  | some rs, some d => some { em with ops := em.ops ++ [⟨pos, rs.reduceOption, d⟩] }
  | _, _ => none

/-- The bytes that a fill asks for. SOURCE: wtop_emit.cpp:521-531 -/
def fillBytes (cfg : EmitConfig) (size : ℕ) : ℕ := if cfg.dmaRunlist then size else size / 2 * 2

/-- Copy a spilled input back into its temp. SOURCE: wtop_emit.cpp:515-533 -/
def fill (cfg : EmitConfig) (em : Emitter) (pos : ℕ) (c : InputConn) : Emitter :=
  match cfg.ddrSpillMap c.srcId, em.lookup (tkey c.srcId c.outIdx) with
  | some size, some t => { em with ops := em.ops ++ [⟨pos, [], some (t, fillBytes cfg size)⟩] }
  | _, _ => em

/-- Copy a spilled output out of its temp. SOURCE: wtop_emit.cpp:543-562 -/
def spill (cfg : EmitConfig) (em : Emitter) (pos id : ℕ) : Emitter :=
  match cfg.ddrSpillMap id, em.lookup (tkey id 0) with
  | some _, some t => { em with ops := em.ops ++ [⟨pos, [t], none⟩] }
  | _, _ => em

/-- A call of the emitter loop. -/
inductive EmitCall where
  | fill (c : InputConn)
  | fresh (opId outIdx : ℕ)
  | addOp (od : OpDef) (reads : List TempRef) (dst : Option (TempRef × ℕ))
  | spill (id : ℕ)
  | release (c : InputConn)
  | abort

/-- What a call does at position `pos`. -/
def emitCall (cfg : EmitConfig) (em : Emitter) (pos : ℕ) : EmitCall → Option Emitter
  | .fill c => some (fill cfg em pos c)
  | .fresh opId outIdx => freshTemp cfg em opId outIdx
  | .addOp od reads dst => addOp cfg em pos od reads dst
  | .spill id => some (spill cfg em pos id)
  | .release c => some (releaseAt cfg em (tkey c.srcId c.outIdx) pos)
  | .abort => none

/-- An operator that the emitter passes over. SOURCE: wtop_emit.cpp:500-513 -/
def passedOver (od : OpDef) : Bool :=
  od.isConst ||
    match od.nameTag with
    | none => true
    | some nm =>
      decide (nm = "Input") || decide (nm = "Output") || decide (nm = "") || isParamName nm

/-- A step of the handler of `od` as a call. -/
def handlerCall (od : OpDef) : HandlerStep → EmitCall
  | .fresh outIdx => .fresh od.opId outIdx
  | .freshCols => .fresh colsId 0
  | .addOp reads dst => .addOp od reads dst

/-- The handler of an operator. SOURCE: wtop_emit.cpp:534-540 -/
def handlerOf (cfg : EmitConfig) (od : OpDef) : Option Recipe :=
  (od.nameTag.bind cfg.opRegistry).bind fun handler => handler od

/-- The calls for one id of the order. SOURCE: wtop_emit.cpp:497-566 -/
def callsOf (cfg : EmitConfig) (id : ℕ) : List EmitCall :=
  match cfg.g.getOpAt id with
  | none => []
  | some od =>
    if passedOver od then []
    else
      match handlerOf cfg od with
      | none => [.abort]
      | some recipe =>
        od.inputs.map .fill ++ recipe.steps.map (handlerCall od) ++ [.spill id] ++
          od.inputs.map .release

/-- The calls of the whole loop, each with its position. SOURCE: wtop_emit.cpp:496-566 -/
def emitCalls (cfg : EmitConfig) : List (ℕ × EmitCall) :=
  cfg.order.zipIdx.flatMap fun e => (callsOf cfg e.1).map fun c => (e.2, c)

def runCalls (cfg : EmitConfig) (em : Emitter) (calls : List (ℕ × EmitCall)) : Option Emitter :=
  calls.foldlM (fun em c => emitCall cfg em c.1 c.2) em

def emit (cfg : EmitConfig) : Option Emitter := runCalls cfg Emitter.new (emitCalls cfg)

/-- The host reads the output of the graph after the run, if it is in a temp.
SOURCE: wtop_emit.cpp:718-723 -/
def outputReads (cfg : EmitConfig) (em : Emitter) : List (ℕ × ℕ) :=
  match (cfg.g.getOpAt cfg.outputNodeId).bind fun out => out.inputs.head? with
  | none => []
  | some c => if cfg.srcIsSlot c.srcId then [] else (em.lookup (tkey c.srcId c.outIdx)).toList

/-- The device ops, and the host as the last one. -/
def deviceOps (cfg : EmitConfig) (em : Emitter) : List DeviceOp :=
  em.ops ++ [⟨cfg.order.length, outputReads cfg em, none⟩]

end Gehtp.Model.TempEmit
