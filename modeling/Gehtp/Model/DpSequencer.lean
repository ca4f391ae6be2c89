import Gehtp.Lib.KahnQueue

/-!
# The sequencer of the operator graph

`compiler/src/scheduler/dp_sequencer.cpp`: an initial order of the operators. For each group of the
graph a learned model picks a level, and the level says which of two procedures gives the order:
Kahn's algorithm, or the operators as they are listed. Both procedures work on the whole graph.

Operators are named by their ids, so are the nodes that a node or a group points to. The learned
model is a parameter: all that is read of its decision is the level.
-/

set_option autoImplicit false

namespace Gehtp.Model.DpSequencer

open Lib

/-- SOURCE: dp_sequencer.hpp:15-20 -/
inductive SequencerLevel where
  | svf0 | svf1 | svf2 | lvf
  deriving DecidableEq, Repr

/-- SOURCE: dp_sequencer.hpp:100-108 -/
structure DPOpNode where
  opId : ℕ
  predecessors : List ℕ
  successors : List ℕ
  deriving DecidableEq, Repr

structure DPOpGraph where
  nodes : List DPOpNode
  groups : List (List ℕ)
  deriving DecidableEq, Repr

/-- The ids of the operators as they are listed. -/
def DPOpGraph.ids (g : DPOpGraph) : List ℕ := g.nodes.map DPOpNode.opId

def DPOpGraph.node (g : DPOpGraph) (id : ℕ) : Option DPOpNode :=
  g.nodes.find? fun n => n.opId = id

def DPOpGraph.succ (g : DPOpGraph) (id : ℕ) : List ℕ :=
  ((g.node id).map DPOpNode.successors).getD []

def DPOpGraph.pred (g : DPOpGraph) (id : ℕ) : List ℕ :=
  ((g.node id).map DPOpNode.predecessors).getD []

/-- SOURCE: dp_sequencer.cpp:137-177 -/
def runSvf (g : DPOpGraph) : List ℕ :=
  let inDegree := fun id => (g.pred id).length
  let q := g.ids.filter fun id => inDegree id = 0
  (Kahn.drainLast g.succ g.nodes.length ⟨q, inDegree, []⟩).done

/-- SOURCE: dp_sequencer.cpp:181-192 -/
def runLvf (g : DPOpGraph) : List ℕ := g.ids

/-- SOURCE: dp_sequencer.cpp:75-81, 101-107 -/
def runLevel (g : DPOpGraph) : SequencerLevel → List ℕ
  | .lvf => runLvf g
  | .svf0 | .svf1 | .svf2 => runSvf g

/-- The script is not called. SOURCE: dp_sequencer.cpp:115-121 -/
def externalSequence (_ : DPOpGraph) : List ℕ := []

/-- The loop over the groups. SOURCE: dp_sequencer.cpp:85-108 -/
def sequenceGroups (g : DPOpGraph) (external : Bool) (select : List ℕ → SequencerLevel) :
    List (List ℕ) → List ℕ → List ℕ
  | [], result => result
  | group :: groups, result =>
    if external then result ++ externalSequence g
    else sequenceGroups g external select groups (result ++ runLevel g (select group))

/-- SOURCE: dp_sequencer.cpp:53-111 -/
def sequence (g : DPOpGraph) (external : Bool) (select : List ℕ → SequencerLevel) : List ℕ :=
  if g.groups.isEmpty && !g.nodes.isEmpty then runLevel g (select g.ids)
  else sequenceGroups g external select g.groups []

end Gehtp.Model.DpSequencer
