import Gehtp.Model.OpGraph

/-!
# The injection of synthetic inputs

`GraphPrepare::inject_htp_prepare_inputs` (`compiler/src/ir/graph_prepare.cpp`) appends inputs to
the operators of a loaded graph: constants that it creates itself, one for each key, existing
constants of one dimension as scales, and the parameter tensors of the operator. The ids of the
constants that it creates are counted from 0x10000 on.

The order in which `opdef_map_` is walked is a list of the keys, as the map has no order of its
own. The constants are told apart by strings in the source; the strings are a type here.
-/

set_option autoImplicit false

namespace Gehtp.Model.HtpInject

open Model.OpGraph

/-! ### The graph under construction -/

/-- The part of `GraphPrepare` that the pass works on. The data of a constant are the bytes of the
pool at its offset. -/
structure Prep where
  ops : OpMap
  constructionState : ℕ
  nextOpId : ℕ
  constPool : List UInt8
  constExtent : ℕ → Option (ℕ × ℕ)

/-- Put an operator into the map under its id. -/
def insertOp (g : OpMap) (od : OpDef) : OpMap where
  getOpAt j := if j = od.opId then some od else g.getOpAt j
  keyed := by
    intro j od' h
    split at h
    · rename_i hj
      rw [← Option.some.inj h, hj]
    · exact g.keyed j od' h

/-- A constant operator. SOURCE: opdef.cpp:54-82, OpDef_Const -/
def constNode (id : ℕ) (od : OutputDef) : OpDef := ⟨id, 3, some "$Const", od, [], [], [], []⟩

/-- The pool with its sentinel. SOURCE: graph_prepare.cpp:3088 -/
def startedPool (pool : List UInt8) : List UInt8 := if pool = [] then [0, 0, 0, 0] else pool

/-- Up to the next multiple of four. SOURCE: graph_prepare.cpp:3089 -/
def alignFour (n : ℕ) : ℕ := (n + 3) / 4 * 4

/-- The pool with the data at its end. SOURCE: graph_prepare.cpp:3088-3094 -/
def appendData (pool data : List UInt8) : List UInt8 :=
  startedPool pool ++ data ++ List.replicate (alignFour data.length - data.length) 0

/-- SOURCE: graph_prepare.cpp:3074-3103 -/
def appendConstNode (gp : Prep) (nodeType : ℕ) (od : OutputDef) (data : List UInt8) : ℕ × Prep :=
  if gp.constructionState ≠ 1 then (0, gp)
  else
    let newId := if nodeType ≠ 0 then nodeType else gp.nextOpId
    let gp := if nodeType ≠ 0 then gp else { gp with nextOpId := gp.nextOpId + 1 }
    if (gp.ops.getOpAt newId).isSome then (0, gp)
    else (newId, { gp with
      nextOpId := max gp.nextOpId (newId + 1)
      constPool := if data = [] then startedPool gp.constPool else appendData gp.constPool data
      constExtent := Function.update gp.constExtent newId
        (some (if data = [] then 0 else (startedPool gp.constPool).length, data.length))
      ops := insertOp gp.ops (constNode newId od) })

/-! ### The shared constants -/

/-- The keys of the constants: wscale_N, or_NAME, quant_marker, sc_NAME, sc_ewn_a, sc_ewn_b. -/
inductive ConstKey where
  | wscale (n : ℕ)
  | outRank (nm : String)
  | quantMarker
  | scale (nm : String)
  | ewnA
  | ewnB
  deriving DecidableEq, Repr

def fourDims (dtype d3 : ℕ) : OutputDef :=
  ⟨4, dtype, 0, 0, #v[1, 1, 1, d3, 0], 4, 0, 0, Vector.replicate 3 0⟩

namespace ConstKey

/-- The shape and type that a key is asked for with. SOURCE: graph_prepare.cpp:137-232 -/
def outputDef : ConstKey → OutputDef
  | .wscale n => fourDims 562 n
  | .outRank _ => fourDims 50 1
  | .quantMarker => fourDims 1032 1
  | .scale _ => fourDims 562 1
  | .ewnA => fourDims 562 1
  | .ewnB => fourDims 562 1

def total : ConstKey → ℕ
  | .wscale n => n
  | _ => 1

/-- The zeros of a constant; their number is a product in 32 bits.
SOURCE: graph_prepare.cpp:100-101 -/
def zdata (key : ConstKey) : List UInt8 := List.replicate (key.total * 4 % 2 ^ 32) 0

end ConstKey

/-- The graph and the locals of the pass. -/
structure Injection where
  gp : Prep
  nextInjectedId : ℕ
  dedup : List (ConstKey × ℕ)

/-- The id of a key that was asked for before. -/
def Injection.find (s : Injection) (key : ConstKey) : Option ℕ :=
  (s.dedup.find? fun e => e.1 = key).map Prod.snd

/-- The answer of `append_const_node` is not looked at. SOURCE: graph_prepare.cpp:89-105 -/
def getOrCreate (s : Injection) (key : ConstKey) : ℕ × Injection :=
  match s.find key with
  | some id => (id, s)
  | none => (s.nextInjectedId,
    ⟨(appendConstNode s.gp (s.nextInjectedId % 2 ^ 32) key.outputDef key.zdata).2,
      s.nextInjectedId + 1, (key, s.nextInjectedId) :: s.dedup⟩)

def withInput (cid : ℕ) (od : OpDef) : OpDef := { od with inputs := od.inputs ++ [⟨cid, 0⟩] }

theorem withInput_opId (cid : ℕ) (od : OpDef) : (withInput cid od).opId = od.opId := rfl

/-- SOURCE: graph_prepare.cpp:107-111 -/
def addInput (s : Injection) (id cid : ℕ) : Injection :=
  { s with gp := { s.gp with ops := s.gp.ops.modify id (withInput cid) (withInput_opId cid) } }

/-! ### What is injected into an operator -/

/-- An input to append: a shared constant or a node that the graph has. -/
inductive InjectStep where
  | shared (key : ConstKey)
  | node (id : ℕ)
  deriving DecidableEq, Repr

/-- Whether a constant can stand in for a scale of `n` elements.
SOURCE: graph_prepare.cpp:80-84 -/
def isScaleOf (od : OpDef) (n : ℕ) : Bool :=
  od.isConst && decide (od.outputDef.dtype = 562) && decide (od.outputDef.rank = 1) &&
    decide (1 < od.outputDef.dims[0]) && decide (od.outputDef.dims[0] % 2 ^ 32 = n)

/-- The first constant of each number of elements. SOURCE: graph_prepare.cpp:79-87 -/
def constByN (g : OpMap) (keys : List ℕ) (n : ℕ) : Option ℕ :=
  keys.find? fun id => (g.getOpAt id).any fun od => isScaleOf od n

/-- The scale of an operator. SOURCE: graph_prepare.cpp:135-137 -/
def scaleStep (byN : ℕ → Option ℕ) (n : ℕ) : InjectStep :=
  match byN n with
  | some id => .node id
  | none => .shared (.wscale n)

def weightDef (g : OpMap) (od : OpDef) : Option OutputDef :=
  (od.inputs[1]?).bind fun c => (g.getOpAt c.srcId).map OpDef.outputDef

def dim32 (od : OutputDef) (i : ℕ) : ℕ := od.dims.toList.getD i 0 % 2 ^ 32

/-- SOURCE: graph_prepare.cpp:129-133, 163-167 -/
def convN (g : OpMap) (od : OpDef) : ℕ :=
  match weightDef g od with
  | some w => if 4 ≤ w.rank then dim32 w 3 else 0
  | none => 0

/-- SOURCE: graph_prepare.cpp:189-194 -/
def fullyConnectedN (g : OpMap) (od : OpDef) : ℕ :=
  match weightDef g od with
  | some w => if 4 ≤ w.rank then dim32 w 2 else if 1 ≤ w.rank then dim32 w 0 else 0
  | none => 0

/-- SOURCE: graph_prepare.cpp:205-209 -/
def matMulN (g : OpMap) (od : OpDef) : ℕ :=
  match weightDef g od with
  | some w => if 1 ≤ w.rank then dim32 w (w.rank - 1) else 0
  | none => 0

def hasText (text nm : String) : Bool := nm.toList.tails.any fun t => text.toList.isPrefixOf t

/-- The parameters that a convolution takes. -/
inductive ParamKind where
  | stride
  | padAmount
  | dilation
  deriving DecidableEq, Repr

/-- SOURCE: graph_prepare.cpp:141-147 -/
def paramKind (g : OpMap) (tpid : ℕ) : Option ParamKind :=
  ((g.getOpAt tpid).bind OpDef.nameTag).bind fun pn =>
    if hasText "stride" pn then some .stride
    else if hasText "pad_amount" pn then some .padAmount
    else if hasText "dilation" pn then some .dilation
    else none

/-- The last parameter of a kind, unless its id is 0. SOURCE: graph_prepare.cpp:140-152 -/
def paramSteps (g : OpMap) (od : OpDef) (kind : ParamKind) : List InjectStep :=
  match (od.tensorParamIds.filter fun tpid => paramKind g tpid = some kind).getLast? with
  | some tpid => if tpid = 0 then [] else [.node tpid]
  | none => []

/-- The inputs to append to an operator, by its name. The two scales of ElementWiseNeuron are
created before either is appended, which gives the same ids. SOURCE: graph_prepare.cpp:126-244 -/
def injectSteps (g : OpMap) (byN : ℕ → Option ℕ) (od : OpDef) (nm : String) : List InjectStep :=
  if nm = "Conv2d" then
    (if od.inputs.length ≤ 2 ∧ 0 < convN g od then [scaleStep byN (convN g od)] else []) ++
      paramSteps g od .stride ++ paramSteps g od .padAmount ++ [.shared (.outRank nm)] ++
      paramSteps g od .dilation ++ [.shared .quantMarker]
  else if nm = "Transpose" then
    (od.tensorParamIds.take (2 - od.inputs.length)).map .node
  else if nm = "DepthWiseConv2d" then
    (if od.inputs.length ≤ 2 ∧ 0 < convN g od then [scaleStep byN (convN g od)] else []) ++
      paramSteps g od .stride ++ paramSteps g od .padAmount ++ paramSteps g od .dilation
  else if nm = "FullyConnected" then
    (if od.inputs.length ≤ 2 ∧ 0 < fullyConnectedN g od then
      [scaleStep byN (fullyConnectedN g od)] else []) ++ [.shared .quantMarker]
  else if nm = "MatMul" then
    (if 0 < matMulN g od then [scaleStep byN (matMulN g od)] else []) ++
      [.shared .quantMarker, .shared .quantMarker]
  else if nm = "ElementWiseNeuron" then
    [.shared (.outRank nm), .shared .ewnA, .shared .ewnA, .shared .ewnA, .shared .ewnA,
      .shared .ewnB]
  else if nm = "LayerNorm" then [.shared (.scale nm), .shared (.outRank "Softmax")]
  else if nm = "Softmax" then [.shared (.scale nm), .shared (.outRank nm)]
  else if nm = "ElementWiseBinary" then [.shared (.outRank nm)]
  else []

/-- Append one input to the operator `id`. -/
def injectStep (id : ℕ) (s : Injection) : InjectStep → Injection
  | .shared key => addInput (getOrCreate s key).2 id (getOrCreate s key).1
  | .node cid => addInput s id cid

/-- SOURCE: graph_prepare.cpp:118-246 -/
def injectOp (byN : ℕ → Option ℕ) (s : Injection) (id : ℕ) : Injection :=
  match s.gp.ops.getOpAt id with
  | none => s
  | some od =>
    let nm := od.nameTag.getD ""
    if od.isConst || od.isDead || decide (nm = "") || decide (nm = "Input") ||
        decide (nm = "Output") then s
    else (injectSteps s.gp.ops byN od nm).foldl (injectStep id) s

/-! ### The consumers -/

def withConsumers (f : List ℕ → List ℕ) (od : OpDef) : OpDef :=
  { od with consumers := f od.consumers }

theorem withConsumers_opId (f : List ℕ → List ℕ) (od : OpDef) :
    (withConsumers f od).opId = od.opId := rfl

/-- Change the consumers of one operator. -/
def onConsumers (g : OpMap) (id : ℕ) (f : List ℕ → List ℕ) : OpMap :=
  g.modify id (withConsumers f) (withConsumers_opId f)

/-- SOURCE: graph_prepare.cpp:4022-4034 -/
def linkInputs (g : OpMap) (id : ℕ) : OpMap :=
  match g.getOpAt id with
  | none => g
  | some od =>
    if od.isEnabled then
      od.inputs.foldl (fun g c =>
        onConsumers g c.srcId fun cs => if id ∈ cs then cs else cs ++ [id]) g
    else g

/-- SOURCE: graph_prepare.cpp:4017-4036 -/
def rebuildConsumers (order : List ℕ) (g : OpMap) : OpMap :=
  order.foldl linkInputs (order.foldl (fun g id => onConsumers g id fun _ => []) g)

/-- SOURCE: graph_prepare.cpp:255-262 -/
def registerParams (order : List ℕ) (g : OpMap) : OpMap :=
  order.foldl (fun g id =>
    match g.getOpAt id with
    | none => g
    | some od => od.tensorParamIds.foldl (fun g tpid => onConsumers g tpid (· ++ [id])) g) g

/-- The pass on a graph whose map is walked in the order `keys` at the start and `order` at the
end. SOURCE: graph_prepare.cpp:73-263 -/
def injectHtpPrepareInputs (keys order : List ℕ) (gp : Prep) : Prep :=
  let s := keys.foldl (injectOp (constByN gp.ops keys)) ⟨gp, 0x10000, []⟩
  { s.gp with ops := registerParams order (rebuildConsumers order s.gp.ops) }

end Gehtp.Model.HtpInject
