import Gehtp.Lib.Closure
import Gehtp.Lib.Sequences

/-!
# The graph of the cut scheduler

The tables that `compiler/src/scheduler/st_cut.cpp` keeps its graph in. An edge is a pair of slots
that name each other: slot A names the successor, slot B has the flag 4 and names the predecessor.
Each node has an add set and a subtract set of slots. The numbers of nodes and slots are natural
numbers, and a place outside of a table reads as an empty one.
-/

set_option autoImplicit false

namespace Gehtp.Model.StCutGraph

open Lib.Closure Lib.SwapRemove

/-! ### Tables -/

/-- SOURCE: st_cut.hpp, STCUT_MAX_WEIGHT -/
def stcutMaxWeight : UInt64 := 99999999

/-- SOURCE: st_cut.hpp, StCutSlot -/
structure StCutSlot where
  canon : ℕ
  idx : ℕ
  weight : UInt64
  flags : UInt32
  deriving DecidableEq, Repr

/-- SOURCE: st_cut.hpp, StCutReplayRec -/
structure StCutReplayRec where
  op : ℕ
  value : UInt64
  type : UInt32
  deriving DecidableEq, Repr

/-- The parts of a context that the functions below read and write; the top of the stack of free
slots is its first element. SOURCE: st_cut.hpp, StCutContext -/
structure StCutContext where
  mode : UInt32
  nodeSlots : List ℕ
  groupFlags : List UInt8
  weightTable : List StCutSlot
  addSet : List (List ℕ)
  subtractSet : List (List ℕ)
  snapFlags : List UInt8
  snapWeights : List StCutSlot
  snapAdd : List (List ℕ)
  markTable : List UInt16
  workingOrder : List ℕ
  freeWeightSlots : List ℕ
  deriving DecidableEq, Repr

/-- A place that no table has. -/
def noSlot : StCutSlot := ⟨0, 0, 0, 0⟩

def StCutSlot.crosses (s : StCutSlot) : Bool := s.flags &&& 4 ≠ 0

theorem StCutSlot.crosses_iff (s : StCutSlot) : s.crosses = true ↔ s.flags &&& 4 ≠ 0 := by
  simp [StCutSlot.crosses]

namespace StCutContext

variable (ctx : StCutContext)

/-- SOURCE: st_cut.hpp, StCutContext::node_count -/
def nodeCount : ℕ := ctx.nodeSlots.length

def slot (i : ℕ) : StCutSlot := ctx.weightTable.getD i noSlot

def adds (node : ℕ) : List ℕ := ctx.addSet.getD node []

def subs (node : ℕ) : List ℕ := ctx.subtractSet.getD node []

/-- The node that the partner of a slot names. -/
def peer (i : ℕ) : ℕ := (ctx.slot (ctx.slot i).idx).canon

end StCutContext

/-! ### Pairs of slots -/

/-- A table of lists that has a list for the node. SOURCE: st_cut.cpp:129, 136 -/
def grown (sets : List (List ℕ)) (node : ℕ) : List (List ℕ) :=
  if sets.length ≤ node then sets ++ List.replicate (node + 1 - sets.length) [] else sets

/-- SOURCE: st_cut.cpp, stcut_add_push -/
def stcutAddPush (ctx : StCutContext) (node wslot : ℕ) : StCutContext :=
  { ctx with addSet := (grown ctx.addSet node).modify node (· ++ [wslot]) }

/-- SOURCE: st_cut.cpp, stcut_sub_push -/
def stcutSubPush (ctx : StCutContext) (node wslot : ℕ) : StCutContext :=
  { ctx with subtractSet := (grown ctx.subtractSet node).modify node (· ++ [wslot]) }

/-- The first `x` gives its place to the last element. SOURCE: st_cut.cpp:300-303, 649-652 -/
def listRemove (v : List ℕ) (x : ℕ) : List ℕ :=
  if x ∈ v then swapRemove 0 v (v.idxOf x) else v

def addRemove (ctx : StCutContext) (node wslot : ℕ) : StCutContext :=
  { ctx with addSet := ctx.addSet.modify node fun v => listRemove v wslot }

def subRemove (ctx : StCutContext) (node wslot : ℕ) : StCutContext :=
  { ctx with subtractSet := ctx.subtractSet.modify node fun v => listRemove v wslot }

/-- A new pair at the end of the table. SOURCE: st_cut.cpp:252-261 -/
def appendPair (ctx : StCutContext) (src dst : ℕ) (threshold : UInt64) : StCutContext × ℕ × ℕ :=
  let a := ctx.weightTable.length
  let b := a + 1
  ({ ctx with
      weightTable := ctx.weightTable ++
        [⟨dst, b, threshold, ctx.mode⟩, ⟨src, a, stcutMaxWeight, ctx.mode ||| 4⟩] }, a, b)

/-- A new pair, with the numbers of its slots; two free ones are used again when there are.
SOURCE: st_cut.cpp:234-261 -/
def newPair (ctx : StCutContext) (src dst : ℕ) (threshold : UInt64) : StCutContext × ℕ × ℕ :=
  match ctx.freeWeightSlots with
  | a :: b :: free =>
    if ctx.mode = 0 then
      ({ ctx with
          freeWeightSlots := free
          weightTable := (ctx.weightTable.set a ⟨dst, b, threshold, 0⟩).set b
            ⟨src, a, stcutMaxWeight, ctx.mode ||| 4⟩ }, a, b)
    else appendPair ctx src dst threshold
  | _ => appendPair ctx src dst threshold

def setWeight (ctx : StCutContext) (i : ℕ) (weight : UInt64) : StCutContext :=
  { ctx with weightTable := ctx.weightTable.modify i fun s => { s with weight := weight } }

/-- The slot that already connects the nodes. SOURCE: st_cut.cpp:217-218 -/
def foundSlot (ctx : StCutContext) (src dst : ℕ) : Option ℕ :=
  (ctx.adds src).find? fun e => (ctx.slot e).canon = dst

/-- The context, the slot, and what a ledger records. SOURCE: st_cut.cpp, stcut_connect_nodes -/
def stcutConnectNodes (ctx : StCutContext) (src dst : ℕ) (threshold : UInt64) :
    StCutContext × ℕ × List StCutReplayRec :=
  match foundSlot ctx src dst with
  | some e =>
    let old := (ctx.slot e).weight
    let sum := threshold + old
    let w := if stcutMaxWeight < sum then stcutMaxWeight else sum
    (setWeight ctx e w, e, if threshold ≠ 0 then [⟨e, old, 0⟩] else [])
  | none =>
    let (ctx, a, b) := newPair ctx src dst threshold
    let ctx := stcutAddPush ctx src a
    let ctx := stcutAddPush ctx dst b
    let ctx := stcutSubPush ctx src b
    let ctx := stcutSubPush ctx dst a
    (ctx, a, [⟨a, 0, 2⟩])

/-- The context, and what a ledger records. SOURCE: st_cut.cpp, stcut_remove_edge -/
def stcutRemoveEdge (ctx : StCutContext) (slot : ℕ) : StCutContext × List StCutReplayRec :=
  let p1 := (ctx.slot slot).canon
  let pslot := (ctx.slot slot).idx
  let p2 := (ctx.slot pslot).canon
  let ctx := addRemove ctx p2 slot
  let ctx := addRemove ctx p1 pslot
  let ctx := subRemove ctx p2 pslot
  let ctx := subRemove ctx p1 slot
  (ctx, [⟨slot, 0, 4⟩])

/-- One record of a ledger. SOURCE: st_cut.cpp:304-336 -/
def replayRec (ctx : StCutContext) (r : StCutReplayRec) : StCutContext :=
  if ctx.weightTable.length ≤ r.op then ctx
  else
    let a := r.op
    let b := (ctx.slot a).idx
    let hostB := (ctx.slot a).canon
    let hostA := (ctx.slot b).canon
    if r.type = 0 then setWeight ctx a r.value
    else if r.type = 2 then
      let ctx := if hostA < ctx.addSet.length then addRemove ctx hostA a else ctx
      let ctx := if hostB < ctx.addSet.length then addRemove ctx hostB b else ctx
      let ctx := if hostB < ctx.subtractSet.length then subRemove ctx hostB b else ctx
      if hostA < ctx.subtractSet.length then subRemove ctx hostA a else ctx
    else if r.type = 3 then
      { ctx with nodeSlots := ctx.nodeSlots.dropLast, groupFlags := ctx.groupFlags.dropLast }
    else if r.type = 4 then
      let ctx := if hostA < ctx.addSet.length then stcutAddPush ctx hostA a else ctx
      let ctx := if hostB < ctx.addSet.length then stcutAddPush ctx hostB b else ctx
      let ctx := if hostB < ctx.subtractSet.length then stcutSubPush ctx hostB b else ctx
      if hostA < ctx.subtractSet.length then stcutSubPush ctx hostA a else ctx
    else ctx

/-- The records are taken back from the last to the first. SOURCE: st_cut.cpp, stcut_replay_apply -/
def stcutReplayApply (ctx : StCutContext) (log : List StCutReplayRec) : StCutContext :=
  log.reverse.foldl replayRec ctx

/-! ### The working order -/

/-- The nodes that the closure goes on to. SOURCE: st_cut.cpp:1334-1340 -/
def closureNext (ctx : StCutContext) (u : ℕ) : List ℕ :=
  (ctx.snapAdd.getD u []).filterMap fun rel =>
    let s := ctx.snapWeights.getD rel noSlot
    if s.crosses then none
    else if ctx.nodeCount ≤ s.canon then none
    else if ctx.snapFlags.getD s.canon 0 &&& 2 ≠ 0 then none
    else some s.canon

/-- The sweep over the order from its end; `vis` are the visited nodes, and `fuel` bounds the turns
of each search. SOURCE: st_cut.cpp:1322-1344 -/
def sweep (ctx : StCutContext) (fuel : ℕ) : List ℕ → List ℕ → Option Bool
  | [], _ => some true
  | id :: rest, vis =>
    if ctx.nodeCount ≤ id then sweep ctx fuel rest vis
    else if id ∈ vis then some false
    else (collect (closureNext ctx) fuel vis [id]).bind fun vis => sweep ctx fuel rest vis

/-- SOURCE: st_cut.cpp, stcut_validate_order -/
def stcutValidateOrder (ctx : StCutContext) (fuel : ℕ) : Option Bool :=
  sweep ctx fuel ctx.workingOrder.reverse []

/-! ### Levels -/

/-- The marks, the queue and the places of the queue that are ready. -/
structure Wave where
  marks : List UInt16
  queueA : List ℕ
  queueB : List ℕ
  deriving DecidableEq, Repr

section Levels

-- the slots that the wave follows are those with, or those without, the flag 4
variable (ctx : StCutContext) (follows : StCutSlot → Bool)

/-- No slot of the subtract set that the wave follows comes from a node without a level.
SOURCE: st_cut.cpp:542-550, 609-617 -/
def isReady (marks : List UInt16) (node : ℕ) : Bool :=
  (ctx.subs node).all fun s =>
    decide (marks.length ≤ ctx.peer s) || decide (1 < marks.getD (ctx.peer s) 0) ||
      !follows (ctx.slot s)

/-- SOURCE: st_cut.cpp:553-560, 620-627 -/
def spread (w : Wave) (s : ℕ) : Wave :=
  let child := (ctx.slot s).canon
  if !follows (ctx.slot s) then w
  else if w.marks.length ≤ child then w
  else if w.marks.getD child 0 ≠ 0 then w
  else { w with queueA := w.queueA ++ [child], marks := w.marks.set child 1 }

/-- SOURCE: st_cut.cpp:539-561, 606-628 -/
def look (w : Wave) (i : ℕ) : Wave :=
  let node := w.queueA.getD i 0
  if isReady ctx follows w.marks node then
    (ctx.adds node).foldl (spread ctx follows) { w with queueB := w.queueB ++ [i] }
  else w

/-- SOURCE: st_cut.cpp:562-567, 629-634 -/
def settle (level : ℕ) (w : Wave) (i : ℕ) : Wave :=
  let node := w.queueA.getD i 0
  { w with
    marks := w.marks.set node (UInt16.ofNat level)
    queueA := swapRemove 0 w.queueA i }

/-- SOURCE: st_cut.cpp:537-568, 604-635 -/
def layer (level : ℕ) (w : Wave) : Wave :=
  let looked := (List.range w.queueA.length).foldl (look ctx follows) { w with queueB := [] }
  looked.queueB.reverse.foldl (settle level) looked

/-- The layers that are left, up to the bound. SOURCE: st_cut.cpp:535-569, 602-636 -/
def layers : ℕ → ℕ → Wave → Wave
  | 0, _, w => w
  | left + 1, level, w =>
    if w.queueA = [] then w else layers left (level + 1) (layer ctx follows level w)

/-- The marks that a wave from the seed leaves on a table. SOURCE: st_cut.cpp:529-570, 595-637 -/
def levelMarks (seed : ℕ) (marks : List UInt16) (maxLevels : ℕ) : List UInt16 :=
  let cleared := marks.map fun _ => (0 : UInt16)
  if ctx.addSet.length ≤ seed then cleared
  else (layers ctx follows maxLevels 2 ⟨cleared, [seed], []⟩).marks

end Levels

/-- The wave along the slots without the flag 4. SOURCE: st_cut.cpp, stcut_mark_levels -/
def stcutMarkLevels (ctx : StCutContext) (seed maxLevels : ℕ) : StCutContext :=
  { ctx with markTable := levelMarks ctx (fun s => !s.crosses) seed ctx.markTable maxLevels }

/-- The wave along the slots with the flag 4, on another table.
SOURCE: st_cut.cpp, stcut_level_mark_bfs -/
def stcutLevelMarkBfs (ctx : StCutContext) (seed : ℕ) (marks : List UInt16) (maxLevels : ℕ) :
    List UInt16 :=
  levelMarks ctx (fun s => s.crosses) seed marks maxLevels

end Gehtp.Model.StCutGraph
