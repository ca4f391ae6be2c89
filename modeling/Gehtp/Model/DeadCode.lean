import Gehtp.Lib.DepthFirst
import Gehtp.Model.OpGraph
import Gehtp.Model.PassManager

/-!
# Dead code and the optimisation pipeline

`remove_dead_code` (`compiler/src/ir/graph_prepare.cpp`) deletes the operators none of whose listed
consumers is alive, round after round until a round finds none. It takes the lists as the passes
before it have left them. The fixpoint loop alternates it with the order and the elimination of
common subexpressions, and the pipeline runs the loop after every phase of passes that changed
something, and once more at the end.
-/

set_option autoImplicit false

/-!
## The execution order and the fixpoint loop

`order_nodes` (`compiler/src/ir/graph_prepare.cpp`) searches the operators that are not dead depth
first along their consumers and keeps the reversed order in which they are finished. The fixpoint
loop runs it between the removal of dead code and the elimination of common subexpressions until
none of the three reports a change.

An index into the list of nodes stands for the id at that place.
-/

namespace Gehtp.Model.OrderNodes

open Lib Model.OpGraph

/-- The map of operators in the order in which it is walked. An entry may hold no operator.
SOURCE: graph_prepare.hpp, opdef_map_ -/
structure OpdefMap where
  keys : List ℕ
  ops : OpMap
  keys_nodup : keys.Nodup

/-- The entry holds an operator that is not dead. SOURCE: graph_prepare.cpp:3207 -/
def notDead (ops : OpMap) (id : ℕ) : Bool :=
  match ops.getOpAt id with
  | none => false
  | some od => !od.isDead

/-- SOURCE: graph_prepare.cpp:3204-3210 -/
def nodes (g : OpdefMap) : List ℕ := g.keys.filter (notDead g.ops)

/-- The sources of an operator's inputs. -/
def sources (ops : OpMap) (id : ℕ) : List ℕ :=
  match ops.getOpAt id with
  | none => []
  | some od => od.inputs.map (·.srcId)

/-- The edges from a source to a consumer, in the order in which they are found.
SOURCE: graph_prepare.cpp:3215-3225 -/
def edges (g : OpdefMap) : List (ℕ × ℕ) :=
  (nodes g).flatMap fun i =>
    ((sources g.ops i).filter fun src => decide (src ∈ nodes g)).map fun src => (src, i)

def adj (g : OpdefMap) (id : ℕ) : List ℕ :=
  ((edges g).filter fun e => decide (e.1 = id)).map Prod.snd

/-- The reversed order in which the search finishes the nodes.
SOURCE: graph_prepare.cpp:3227-3275 -/
def topoSort (g : OpdefMap) : List ℕ := DepthFirst.topoOrder (adj g) (nodes g)

/-- `static_cast<int>` of a size. -/
def toInt (n : ℕ) : ℤ := if n % 2 ^ 32 < 2 ^ 31 then n % 2 ^ 32 else n % 2 ^ 32 - 2 ^ 32

/-- The number of changes, and the order that is left. SOURCE: graph_prepare.cpp:3200-3283 -/
def orderNodes (g : OpdefMap) (ordering : List ℕ) : ℤ × List ℕ :=
  if nodes g = [] then (0, ordering)
  else
    let postOrder := topoSort g
    let changed := if postOrder ≠ ordering then toInt postOrder.length else 0
    (changed, if 0 < changed then postOrder else ordering)

/-! ### The fixpoint loop -/

/-- The two other phases: what they report, and the map that they leave. -/
structure Phases where
  removeDeadCode : OpdefMap → ℤ × OpdefMap
  commonSubexprEliminate : OpdefMap → ℤ × OpdefMap

/-- What the loop works on. -/
structure FixState where
  graph : OpdefMap
  ordering : List ℕ

/-- One round: go on, or leave the loop. SOURCE: graph_prepare.cpp:1284-1296 -/
def fixRound (ph : Phases) (s : FixState) : FixState ⊕ FixState :=
  let dce := ph.removeDeadCode s.graph
  if dce.1 ≠ 0 then .inl ⟨dce.2, s.ordering⟩
  else
    let order := orderNodes dce.2 s.ordering
    if order.1 ≠ 0 then .inl ⟨dce.2, order.2⟩
    else
      let cse := ph.commonSubexprEliminate dce.2
      if cse.1 ≠ 0 then .inl ⟨cse.2, order.2⟩ else .inr ⟨cse.2, order.2⟩

/-- The loop, for at most `n` rounds. SOURCE: graph_prepare.cpp:1282-1297 -/
def runPhaseFixpoint (ph : Phases) : ℕ → FixState → Option FixState
  | 0, _ => none
  | n + 1, s =>
    match fixRound ph s with
    | .inl s' => runPhaseFixpoint ph n s'
    | .inr s' => some s'

end Gehtp.Model.OrderNodes

namespace Gehtp.Model.DeadCode

open Model.OpGraph Model.Cse Model.OrderNodes Model.PassManager

/-- The special nodes. SOURCE: graph_prepare.hpp:496-497 -/
structure IoNodes where
  inputNodeId : ℕ
  outputNodeId : ℕ

def isAlive (od : OpDef) : Bool := od.isEnabled && !od.isDead

/-! ### Dead code -/

/-- SOURCE: graph_prepare.cpp:3143-3152 -/
def hasLiveConsumer (ops : OpMap) (od : OpDef) : Bool :=
  od.consumers.any fun c => (ops.getOpAt c).any isAlive

/-- What one sweep over the map changes. -/
structure Sweep where
  ops : OpMap
  toDelete : List ℕ

/-- One entry of the sweep. SOURCE: graph_prepare.cpp:3137-3164 -/
def sweepAt (io : IoNodes) (s : Sweep) (id : ℕ) : Sweep :=
  match s.ops.getOpAt id with
  | none => s
  | some od =>
    if isAlive od && decide (id ≠ io.outputNodeId) && decide (id ≠ io.inputNodeId) &&
        !hasLiveConsumer s.ops od then
      ⟨s.ops.modify id setDead setDead_opId, s.toDelete ++ [id]⟩
    else s

def sweep (io : IoNodes) (g : OpdefMap) : Sweep := g.keys.foldl (sweepAt io) ⟨g.ops, []⟩

/-- Take one operator out of the lists of its sources, and out of the map.
SOURCE: graph_prepare.cpp:3167-3182 -/
def deleteOp (ops : OpMap) (id : ℕ) : OpMap :=
  match ops.getOpAt id with
  | none => ops
  | some od =>
    (od.inputs.foldl (fun ops conn =>
      ops.modify conn.srcId (eraseConsumer id) (eraseConsumer_opId id)) ops).eraseAll [id]

/-- The map without the entries `l`. -/
def eraseKeys (g : OpdefMap) (l : List ℕ) (ops : OpMap) : OpdefMap :=
  ⟨g.keys.filter fun id => decide (id ∉ l), ops, g.keys_nodup.filter _⟩

/-- The rounds, at most `n` of them, after `count` deletions.
SOURCE: graph_prepare.cpp:3133-3184 -/
def rounds (io : IoNodes) : ℕ → OpdefMap → ℕ → ℕ × OpdefMap
  | 0, g, count => (count, g)
  | n + 1, g, count =>
    let s := sweep io g
    if s.toDelete = [] then (count, ⟨g.keys, s.ops, g.keys_nodup⟩)
    else
      rounds io n (eraseKeys g s.toDelete (s.toDelete.foldl deleteOp s.ops))
        (count + s.toDelete.length)

/-- A round that is not the last deletes an entry, so there are no more rounds than entries and one.
The deletions are counted in an `int`.
SOURCE: graph_prepare.cpp:3121-3191, GraphPrepare::remove_dead_code -/
def removeDeadCode (io : IoNodes) (g : OpdefMap) : ℤ × OpdefMap :=
  let r := rounds io (g.keys.length + 1) g 0
  (toInt r.1, r.2)

/-! ### The fixpoint loop -/

def cseConfig (io : IoNodes) (keys : List ℕ) : CseConfig := ⟨keys, io.inputNodeId, io.outputNodeId⟩

/-- SOURCE: graph_prepare.cpp:3760-3875, GraphPrepare::common_subexpr_eliminate -/
def cse (io : IoNodes) (g : OpdefMap) : ℤ × OpdefMap :=
  let cfg := cseConfig io g.keys
  let r := commonSubexprEliminate cfg g.ops false
  (toInt r.eliminated, eraseKeys g (walk cfg g.ops g.keys).toRemove r.ops)

def phases (io : IoNodes) : Phases := ⟨removeDeadCode io, cse io⟩

def toMap (gp : PassGraph) : OpdefMap := ⟨gp.keys, gp.ops, gp.keys_nodup⟩

/-- The operators of a map that have an entry. -/
def entries (g : OpdefMap) : OpMap where
  getOpAt i := if i ∈ g.keys then g.ops.getOpAt i else none
  keyed := by
    intro i od h
    split at h
    · exact g.ops.keyed i od h
    · cases h

theorem entries_covered (g : OpdefMap) (i : ℕ) (h : ((entries g).getOpAt i).isSome = true) :
    i ∈ g.keys := by
  by_contra hno
  rw [show (entries g).getOpAt i = none from if_neg hno] at h
  cases h

/-- A graph with the operators of a map and the constants that it had. -/
def withMap (gp : PassGraph) (g : OpdefMap) : PassGraph :=
  ⟨g.keys, entries g, gp.constDataOffset, gp.constDataSize, gp.constPool, g.keys_nodup,
    entries_covered g⟩

/-- What the pipeline works on. -/
structure OptState where
  graph : PassGraph
  ordering : List ℕ

/-- The loop, for at most `n` rounds.
SOURCE: graph_prepare.cpp:1282-1297, GraphPrepare::run_phase_fixpoint_internal -/
def runPhaseFixpointInternal (io : IoNodes) (n : ℕ) (s : OptState) : Option OptState :=
  (runPhaseFixpoint (phases io) n ⟨toMap s.graph, s.ordering⟩).map fun t =>
    ⟨withMap s.graph t.graph, t.ordering⟩

/-! ### The pipeline -/

/-- A phase of passes, and the loop if it has changed something.
SOURCE: graph_prepare.cpp:1214-1222 -/
def phaseThenFixpoint (passes : List GraphPass) (io : IoNodes) (n phase : ℕ) (s : OptState) :
    Option OptState :=
  (runPhase passes phase s.graph.keys s.graph n).bind fun p =>
    if p.total % 2 ^ 32 ≠ 0 then runPhaseFixpointInternal io n ⟨p.graph, s.ordering⟩
    else some ⟨p.graph, s.ordering⟩

/-- The operators that are alive. SOURCE: graph_prepare.cpp:1242-1246 -/
def nodeCount (gp : PassGraph) : ℕ := (gp.keys.filter fun id => (gp.getOpAt id).any isAlive).length

/-- The elimination of common subexpressions; the propagation of constants before it changes
nothing. SOURCE: graph_prepare.cpp:3879-3932, GraphPrepare::const_prop_and_cse -/
def constPropAndCse (io : IoNodes) (s : OptState) : OptState :=
  ⟨withMap s.graph (cse io (toMap s.graph)).2, s.ordering⟩

/-- SOURCE: graph_prepare.cpp:1242-1274 -/
def eightPhases (io : IoNodes) (n : ℕ) (s : OptState) : Option OptState :=
  let count := nodeCount s.graph
  let s := if count ≤ 21101 then constPropAndCse io s else s
  (if count ≤ 24999 then runPhaseFixpointInternal io n s else some s).bind
    (runPhaseFixpointInternal io n)

/-- Each loop of the pipeline runs for at most `n` rounds.
SOURCE: graph_prepare.cpp:1189-1278, GraphPrepare::run_optimize_passes_single_registry -/
def runOptimizePasses (kernels : Kernels) (switch : GraphPass → Bool) (io : IoNodes) (n : ℕ)
    (s : OptState) : Option OptState :=
  let passes := builtinPasses kernels switch
  (phaseThenFixpoint passes io n 3000 s).bind fun s =>
    (phaseThenFixpoint passes io n 10190 s).bind fun s =>
      (phaseThenFixpoint passes io n 12492 s).bind (eightPhases io n)

end Gehtp.Model.DeadCode
