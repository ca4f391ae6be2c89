import Gehtp.Lib.Wire
import Gehtp.Lib.Worklist
import Gehtp.Model.Cse

/-!
# The rewriting passes and their driver

`PassManager::run_phase` (`compiler/src/opt/pass_manager.cpp`) drives the passes of a phase over the
operators with a work list. The built-in passes fold constants (`pass_const_fold.cpp`), drop
identity reshapes and transposes and join chains of reshapes (`pass_shape_fold.cpp`), and fuse
activations into their producers (`pass_fusion.cpp`, `optimization_passes.cpp`).

A pass changes the operators in place; the numeric kernels that evaluate a constant are a
parameter.
-/

set_option autoImplicit false

namespace Gehtp.Model.PassManager

open Lib Model.OpGraph Model.Cse

/-! ### Graphs -/

/-- The operators with the bytes of the constants. SOURCE: graph_prepare.hpp, opdef_map_ and
const_pool_; types.hpp:183-186 -/
structure PassGraph where
  keys : List ℕ
  ops : OpMap
  constDataOffset : ℕ → ℕ
  constDataSize : ℕ → ℕ
  constPool : List UInt8
  keys_nodup : keys.Nodup
  covered : ∀ i, (ops.getOpAt i).isSome = true → i ∈ keys

namespace PassGraph

/-- SOURCE: graph_prepare.cpp:3114-3117, GraphPrepare::get_op_at -/
def getOpAt (g : PassGraph) (i : ℕ) : Option OpDef := g.ops.getOpAt i

theorem modify_covered (g : PassGraph) (i : ℕ) (f : OpDef → OpDef)
    (hf : ∀ od, (f od).opId = od.opId) :
    ∀ j, ((g.ops.modify i f hf).getOpAt j).isSome = true → j ∈ g.keys := by
  intro j hj
  apply g.covered
  unfold OpMap.modify at hj
  simp only at hj
  split at hj
  · rwa [Option.isSome_map] at hj
  · exact hj

/-- Change the operator `i` in place. -/
def modify (g : PassGraph) (i : ℕ) (f : OpDef → OpDef) (hf : ∀ od, (f od).opId = od.opId) :
    PassGraph :=
  ⟨g.keys, g.ops.modify i f hf, g.constDataOffset, g.constDataSize, g.constPool, g.keys_nodup,
    g.modify_covered i f hf⟩

end PassGraph

/-- SOURCE: types.hpp, OP_DEAD -/
def setDead (od : OpDef) : OpDef := { od with flags := od.flags ||| 4 }

/-- Take an operator out of a consumer list. -/
def eraseConsumer (id : ℕ) (od : OpDef) : OpDef :=
  { od with consumers := od.consumers.filter fun c => decide (c ≠ id) }

def setInputs (inputs : List InputConn) (od : OpDef) : OpDef := { od with inputs := inputs }

def setName (name : String) (od : OpDef) : OpDef := { od with nameTag := some name }

theorem setDead_opId (od : OpDef) : (setDead od).opId = od.opId := rfl

theorem eraseConsumer_opId (id : ℕ) (od : OpDef) : (eraseConsumer id od).opId = od.opId := rfl

theorem addConsumer_opId (id : ℕ) (od : OpDef) : (addConsumer id od).opId = od.opId := rfl

theorem rewire_opId (b a : ℕ) (od : OpDef) : (rewire b a od).opId = od.opId := rfl

theorem setInputs_opId (inputs : List InputConn) (od : OpDef) :
    (setInputs inputs od).opId = od.opId := rfl

theorem setName_opId (name : String) (od : OpDef) : (setName name od).opId = od.opId := rfl

/-- The name of an operator, empty when it has none. -/
def nameOf (od : OpDef) : String := od.nameTag.getD ""

/-- Enabled, not dead and no constant. SOURCE: pass_manager.cpp:82-85, 95 -/
def isLive (od : OpDef) : Bool := od.isEnabled && !od.isDead && !od.isConst

/-! ### Passes -/

/-- A pass; its rewriting reports one change with the graph that it leaves, or none.
SOURCE: pass_manager.hpp:29-39 -/
structure GraphPass where
  name : String
  phase : ℕ
  matcher : PassGraph → OpDef → Bool
  rewrite : PassGraph → OpDef → Option PassGraph
  enabled : Bool

/-! ### Folding of shapes -/

/-- The ranks and the dimensions agree. SOURCE: pass_shape_fold.cpp:24-29 -/
def odEqual (a b : OutputDef) : Bool := decide (a.rank = b.rank ∧ a.shape = b.shape)

/-- The values of one parameter are `0, 1, ..`. SOURCE: pass_shape_fold.cpp:33-43 -/
def paramIdentity (gp : PassGraph) (tpid : ℕ) : Bool :=
  match gp.getOpAt tpid with
  | none => false
  | some pc =>
    let size := gp.constDataSize tpid
    let offset := gp.constDataOffset tpid
    let n := size / 4
    pc.isConst && decide (size ≠ 0) && decide (n ≠ 0 ∧ n ≤ 8) &&
      decide (offset + size ≤ gp.constPool.length) &&
      (List.range n).all fun i => decide (le32 gp.constPool (offset + 4 * i) = UInt32.ofNat i)

/-- SOURCE: pass_shape_fold.cpp:33-48 -/
def allParamsIdentity (gp : PassGraph) (op : OpDef) : Bool :=
  decide (op.tensorParamIds ≠ []) && op.tensorParamIds.all (paramIdentity gp)

/-- SOURCE: pass_shape_fold.cpp:50 -/
inductive Pattern
  | none
  | identReshape
  | reshapeChain
  | identTranspose
  deriving DecidableEq

/-- A `Reshape` or `Flatten`. -/
def isReshape (od : OpDef) : Bool :=
  decide (od.nameTag = some "Reshape" ∨ od.nameTag = some "Flatten")

/-- The pattern of an operator that reads `src`. SOURCE: pass_shape_fold.cpp:57-79 -/
def patternFrom (gp : PassGraph) (op src : OpDef) : Pattern :=
  if !src.isEnabled || src.isDead then .none
  else if isReshape op then
    if isReshape src && decide (src.consumers.length = 1) then .reshapeChain
    else if odEqual src.outputDef op.outputDef then .identReshape
    else .none
  else if odEqual src.outputDef op.outputDef && allParamsIdentity gp op then .identTranspose
  else .none

/-- SOURCE: pass_shape_fold.cpp:52-81 -/
def matchPattern (gp : PassGraph) (op : OpDef) : Pattern :=
  if isLive op && (isReshape op || decide (op.nameTag = some "Transpose")) then
    match op.inputs with
    | [conn] =>
      match gp.getOpAt conn.srcId with
      | none => .none
      | some src => patternFrom gp op src
    | _ => .none
  else .none

/-- One consumer of the dropped operator reads its producer instead.
SOURCE: pass_shape_fold.cpp:89-99 -/
def redirect (b a : ℕ) (gp : PassGraph) (cid : ℕ) : PassGraph :=
  if (gp.getOpAt cid).isSome then
    (gp.modify cid (rewire b a) (rewire_opId b a)).modify a (addConsumer cid)
      (addConsumer_opId cid)
  else gp

/-- SOURCE: pass_shape_fold.cpp:84-101 -/
def rewireConsumers (gp : PassGraph) (op prod : OpDef) : PassGraph :=
  let cut := gp.modify prod.opId (eraseConsumer op.opId) (eraseConsumer_opId op.opId)
  (op.consumers.foldl (redirect op.opId prod.opId) cut).modify op.opId setDead setDead_opId

/-- A source of `src` is one of `op`. SOURCE: pass_shape_fold.cpp:106-114 -/
def passOn (src op : ℕ) (gp : PassGraph) (conn : InputConn) : PassGraph :=
  (gp.modify conn.srcId (eraseConsumer src) (eraseConsumer_opId src)).modify conn.srcId
    (addConsumer op) (addConsumer_opId op)

/-- SOURCE: pass_shape_fold.cpp:104-117 -/
def mergeChain (gp : PassGraph) (op src : OpDef) : PassGraph :=
  ((src.inputs.foldl (passOn src.opId op.opId) gp).modify op.opId (setInputs src.inputs)
    (setInputs_opId src.inputs)).modify src.opId setDead setDead_opId

/-- SOURCE: pass_shape_fold.cpp:123-147 -/
def shapeFoldRewrite (gp : PassGraph) (op : OpDef) : Option PassGraph :=
  match op.inputs with
  | [] => none
  | conn :: _ =>
    match gp.getOpAt conn.srcId with
    | none => none
    | some prod =>
      match matchPattern gp op with
      | .none => none
      | .identReshape => some (rewireConsumers gp op prod)
      | .identTranspose => some (rewireConsumers gp op prod)
      | .reshapeChain => some (mergeChain gp op prod)

/-- SOURCE: pass_shape_fold.cpp:151-158 -/
def shapeFold : GraphPass :=
  ⟨"shape_fold", 10190, fun gp op => decide (matchPattern gp op ≠ .none), shapeFoldRewrite, true⟩

/-! ### Folding of constants -/

/-- SOURCE: pass_const_fold.cpp:61-69 -/
def whitelist : List String :=
  ["Add", "Sub", "Mul", "Div", "Eltwise_Binary", "Eltwise_Unary", "ElementWiseNeuron",
    "Eltwise_Ternary", "Transpose", "StridedSlice", "Reshape", "Flatten", "Pad", "Concat",
    "Reduce", "Gather", "CumulativeSum", "ScatterNd"]

/-- The input is a constant with a value. SOURCE: pass_const_fold.cpp:117-120 -/
def constInput (gp : PassGraph) (conn : InputConn) : Bool :=
  match gp.getOpAt conn.srcId with
  | none => false
  | some src => src.isConst && decide (gp.constDataSize conn.srcId ≠ 0)

/-- SOURCE: pass_const_fold.cpp:110-122 -/
def constFoldMatcher (gp : PassGraph) (op : OpDef) : Bool :=
  isLive op && op.nameTag.isSome && decide (nameOf op ∈ whitelist) && decide (op.inputs ≠ []) &&
    op.inputs.all (constInput gp)

/-- The bytes of a constant, none outside of the pool. SOURCE: pass_const_fold.cpp:79-81 -/
def constBytes (gp : PassGraph) (id : ℕ) : List UInt8 :=
  if gp.constDataOffset id + gp.constDataSize id ≤ gp.constPool.length then
    (gp.constPool.drop (gp.constDataOffset id)).take (gp.constDataSize id)
  else []

/-- What the kernel of an operator reads: the shape and the bytes of its inputs and parameters.
SOURCE: pass_const_fold.cpp:130-148 -/
def foldInputs (gp : PassGraph) (op : OpDef) : List (OutputDef × List UInt8) :=
  (op.inputs.map (·.srcId) ++ op.tensorParamIds.filter fun t => decide (gp.constDataSize t ≠ 0))
    |>.filterMap fun id => (gp.getOpAt id).map fun src => (src.outputDef, constBytes gp id)

/-- The number of bytes of a result. SOURCE: pass_const_fold.cpp:151-154, 168-170 -/
def resultSize (od : OutputDef) : ℕ :=
  let n := od.shape.foldl (fun n d => n * d % 2 ^ 64) 1
  let es := if od.elementSize = 0 ∨ 4 < od.elementSize then 4 else od.elementSize
  (if n = 0 then 1 else n) * es

/-- SOURCE: opdef.cpp:54-75, OpDef_Const; graph_prepare.cpp:4250-4258 -/
def constOf (od : OpDef) : OpDef :=
  ⟨od.opId, 3, some "$Const", od.outputDef, [], od.consumers, [], []⟩

theorem constOf_opId (od : OpDef) : (constOf od).opId = od.opId := rfl

/-- The numeric kernels: the bytes that an operator computes. -/
abbrev Kernels := PassGraph → OpDef → List (OutputDef × List UInt8) → ℕ → UInt8

/-- The pool before the first constant is appended. SOURCE: graph_prepare.cpp:4245 -/
def poolBase (gp : PassGraph) : List UInt8 :=
  if gp.constPool = [] then [0, 0, 0, 0] else gp.constPool

/-- SOURCE: graph_prepare.cpp:4238-4264, GraphPrepare::fold_op_to_const -/
def foldOpToConst (gp : PassGraph) (op : OpDef) (data : List UInt8) : Option PassGraph :=
  if isLive op && decide (data ≠ []) then
    let padding := List.replicate ((data.length + 3) / 4 * 4 - data.length) 0
    let changed := gp.modify op.opId constOf constOf_opId
    some ⟨changed.keys, changed.ops,
      Function.update gp.constDataOffset op.opId (poolBase gp).length,
      Function.update gp.constDataSize op.opId data.length,
      poolBase gp ++ data ++ padding, changed.keys_nodup, changed.covered⟩
  else none

/-- SOURCE: pass_const_fold.cpp:125-183 -/
def constFoldRewrite (kernels : Kernels) (gp : PassGraph) (op : OpDef) : Option PassGraph :=
  foldOpToConst gp op
    ((List.range (resultSize op.outputDef)).map (kernels gp op (foldInputs gp op)))

/-- SOURCE: pass_const_fold.cpp:187-194 -/
def constFold (kernels : Kernels) : GraphPass :=
  ⟨"const_fold", 3000, constFoldMatcher, constFoldRewrite kernels, true⟩

/-! ### Fusion -/

/-- SOURCE: optimization_passes.hpp, FusionRule -/
structure FusionRule where
  producer : String
  consumer : String
  fused : String
  deriving DecidableEq

/-- SOURCE: optimization_passes.cpp:194-203 -/
def kLegacyFusionRules : List FusionRule :=
  [⟨"Conv", "Relu", "ConvActivations"⟩, ⟨"Conv", "Clamp", "ConvActivations"⟩,
    ⟨"MatMul", "Add", "MatMul"⟩, ⟨"MatMul", "Gelu", "MatMul"⟩, ⟨"MatMul", "Relu", "MatMul"⟩,
    ⟨"Add", "Relu", "Add"⟩, ⟨"Add", "Sigmoid", "Add"⟩, ⟨"Dense", "Add", "Dense"⟩]

/-- The producer of a fusion. SOURCE: optimization_passes.cpp:121-125 -/
def fusionProducer (rule : FusionRule) (prod : OpDef) : Bool :=
  prod.isEnabled && !prod.isConst && decide (nameOf prod = rule.producer) &&
    decide (prod.consumers.length = 1)

/-- SOURCE: optimization_passes.cpp:115-127 -/
def fusionMatch (rule : FusionRule) (gp : PassGraph) (consumerOd : OpDef) : Bool :=
  consumerOd.isEnabled && !consumerOd.isConst && decide (nameOf consumerOd = rule.consumer) &&
    match consumerOd.inputs with
    | [conn] =>
      match gp.getOpAt conn.srcId with
      | none => false
      | some prod => fusionProducer rule prod
    | _ => false

/-- The consumer gets the name of the fused operator. SOURCE: optimization_passes.cpp:134 -/
def renamed (rule : FusionRule) (gp : PassGraph) (consumerOd : OpDef) : PassGraph :=
  gp.modify consumerOd.opId (setName rule.fused) (setName_opId rule.fused)

/-- SOURCE: optimization_passes.cpp:129-148 -/
def fusePair (rule : FusionRule) (gp : PassGraph) (consumerOd : OpDef) : Option PassGraph :=
  match consumerOd.inputs with
  | [conn] =>
    match gp.getOpAt conn.srcId with
    | none => none
    | some prod =>
      some (mergeChain (renamed rule gp consumerOd) consumerOd prod)
  | _ => none

/-- SOURCE: pass_fusion.cpp:21-30 -/
def fusionPassName (rule : FusionRule) : String :=
  ("fusion_" ++ rule.producer ++ "_" ++ rule.consumer).map Char.toLower

/-- SOURCE: pass_fusion.cpp:32-46 -/
def fusionPass (rule : FusionRule) : GraphPass :=
  ⟨fusionPassName rule, 12492, fusionMatch rule, fusePair rule, false⟩

/-! ### The driver -/

/-- The built-in passes, each with the switch that the command line gives it.
SOURCE: pass_manager.cpp:23-56, 147-151 -/
def builtinPasses (kernels : Kernels) (switch : GraphPass → Bool) : List GraphPass :=
  (constFold kernels :: shapeFold :: kLegacyFusionRules.map fusionPass).map fun p =>
    { p with enabled := switch p }

/-- SOURCE: pass_manager.cpp:66-69 -/
def activePasses (passes : List GraphPass) (phase : ℕ) : List GraphPass :=
  passes.filter fun p => decide (p.phase = phase) && p.enabled

/-- The first pass that matches and changes the graph. SOURCE: pass_manager.cpp:97-116 -/
def tryPasses (gp : PassGraph) (op : OpDef) : List GraphPass → Option PassGraph
  | [] => none
  | pass :: rest =>
    if pass.matcher gp op then
      match pass.rewrite gp op with
      | some gp' => some gp'
      | none => tryPasses gp op rest
    else tryPasses gp op rest

/-- The operators put back after a change. SOURCE: pass_manager.cpp:102-105, 111-112 -/
def neighbours (op : OpDef) : List ℕ := op.inputs.map (·.srcId) ++ op.consumers

/-- What the loop changes. -/
structure PhaseState where
  graph : PassGraph
  total : ℕ

/-- One entry of the work list. SOURCE: pass_manager.cpp:93-117 -/
def visitOp (active : List GraphPass) (s : PhaseState) (id : ℕ) :
    Option (PhaseState × List ℕ) :=
  match s.graph.getOpAt id with
  | none => none
  | some op =>
    if isLive op then
      (tryPasses s.graph op active).map fun gp => (⟨gp, s.total + 1⟩, neighbours op)
    else none

/-- The live operators, in the order in which the map is walked; the last one is taken first.
SOURCE: pass_manager.cpp:77-85 -/
def seeds (gp : PassGraph) (order : List ℕ) : List ℕ :=
  (order.filter fun id => (gp.getOpAt id).any isLive).foldl Worklist.push []

/-- The loop, for at most `n` tests of its condition. SOURCE: pass_manager.cpp:62-119, run_phase -/
def runPhase (passes : List GraphPass) (phase : ℕ) (order : List ℕ) (gp : PassGraph) (n : ℕ) :
    Option PhaseState :=
  let active := activePasses passes phase
  if active = [] then some ⟨gp, 0⟩
  else Worklist.run (visitOp active) n ⟨gp, 0⟩ (seeds gp order)

end Gehtp.Model.PassManager
