import Mathlib.Algebra.Ring.Nat
import Mathlib.Data.List.Dedup

/-!
# Merging of multicast sends

The optimizer of `compiler/src/mcast/mcast_optimizer.cpp`. A greedy pass collects sends with common
multicast channels into supercasts; a second pass finds the members of each supercast by their tags
and unites their receivers. The solver between the two accepts every greedy solution.
-/

set_option autoImplicit false

namespace Gehtp.Model.McastOptimizer

/-- SOURCE: mcast_optimizer.hpp, McSend -/
structure McSend where
  tag : UInt32
  senderNsp : UInt32
  numMcids : UInt32
  payloadSize : UInt64
  mcids : List UInt32
  receivers : List UInt32
  deriving DecidableEq, Repr

/-- SOURCE: mcast_optimizer.hpp, SuperCast -/
structure SuperCast where
  mcsendTags : List UInt32
  mcids : List UInt32
  senderNsp : UInt32
  totalPayload : UInt64
  deriving DecidableEq, Repr

/-- The numbers of `ys` after those of `xs`, each one once.
SOURCE: mcast_optimizer.cpp:122-126, 188-193 -/
def appendNew (xs ys : List UInt32) : List UInt32 :=
  ys.foldl (fun acc y => if y ∈ acc then acc else acc ++ [y]) xs

/-! ### The greedy pass -/

/-- The count is an `int`, and the two sizes are cast to one.
SOURCE: mcast_optimizer.cpp, McastOptimizer::receivers_conflict -/
def receiversConflict (ra rb : List UInt32) : Bool :=
  let setA := ra.dedup
  let common := Int.bmod (rb.countP fun r => r ∈ setA) (2 ^ 32)
  if common = 0 then false
  else if common = Int.bmod rb.length (2 ^ 32) then false
  else if common = Int.bmod setA.length (2 ^ 32) then false
  else true

/-- SOURCE: mcast_optimizer.cpp, McastOptimizer::can_merge -/
def canMerge (maxMcastBufferSize : UInt64) (a b : McSend) (mergedPayload : UInt64) : Bool :=
  if a.senderNsp ≠ b.senderNsp then false
  else if 0 < maxMcastBufferSize ∧ maxMcastBufferSize < mergedPayload then false
  else if receiversConflict a.receivers b.receivers then false
  else true

/-- The supercast of one send. SOURCE: mcast_optimizer.cpp:95-99 -/
def SuperCast.start (s : McSend) : SuperCast where
  mcsendTags := [s.tag]
  mcids := s.mcids
  senderNsp := s.senderNsp
  totalPayload := s.payloadSize

/-- SOURCE: mcast_optimizer.cpp:104-111 -/
def overlap (sc : SuperCast) (s : McSend) : Bool :=
  s.mcids.any fun mcidJ => sc.mcids.any fun mcidI => mcidI == mcidJ

/-- Whether the send joins the supercast that was started by `first`.
SOURCE: mcast_optimizer.cpp:104-116 -/
def joins (maxMcastBufferSize : UInt64) (first : McSend) (sc : SuperCast) (s : McSend) : Bool :=
  overlap sc s && canMerge maxMcastBufferSize first s (sc.totalPayload + s.payloadSize)

/-- SOURCE: mcast_optimizer.cpp:119-127 -/
def SuperCast.merge (sc : SuperCast) (s : McSend) : SuperCast where
  mcsendTags := sc.mcsendTags ++ [s.tag]
  mcids := appendNew sc.mcids s.mcids
  senderNsp := sc.senderNsp
  totalPayload := sc.totalPayload + s.payloadSize

/-- The loop over the later sends that are not merged yet: the supercast at its end, and the sends
that are still not merged. SOURCE: mcast_optimizer.cpp:101-128 -/
def absorb (maxMcastBufferSize : UInt64) (first : McSend) :
    SuperCast → List McSend → SuperCast × List McSend
  | sc, [] => (sc, [])
  | sc, s :: rest =>
    if joins maxMcastBufferSize first sc s then
      absorb maxMcastBufferSize first (sc.merge s) rest
    else
      let r := absorb maxMcastBufferSize first sc rest
      (r.1, s :: r.2)

/-- The loop over the sends, with those that are not merged yet; `fuel` bounds their number.
SOURCE: mcast_optimizer.cpp:92-133 -/
def supercastsOf (maxMcastBufferSize : UInt64) : ℕ → List McSend → List SuperCast
  | 0, _ => []
  | _, [] => []
  | fuel + 1, s :: rest =>
    let r := absorb maxMcastBufferSize s (SuperCast.start s) rest
    if 1 < r.1.mcsendTags.length then r.1 :: supercastsOf maxMcastBufferSize fuel r.2
    else supercastsOf maxMcastBufferSize fuel r.2

/-- The supercasts of the greedy pass. SOURCE: mcast_optimizer.cpp, McastOptimizer::build_lp_input -/
def buildLpInput (maxMcastBufferSize : UInt64) (mcsends : List McSend) : List SuperCast :=
  supercastsOf maxMcastBufferSize mcsends.length mcsends

/-! ### The result -/

/-- The loop over the tags of a supercast, with the receivers so far and the originals that are not
merged yet. SOURCE: mcast_optimizer.cpp:183-198 -/
def collect : List UInt32 → List McSend → List UInt32 → List UInt32 × List McSend
  | [], left, receivers => (receivers, left)
  | tag :: tags, left, receivers =>
    match left.find? fun s => s.tag == tag with
    | some s => collect tags (left.eraseP fun s => s.tag == tag) (appendNew receivers s.receivers)
    | none => collect tags left receivers

/-- SOURCE: mcast_optimizer.cpp:174-180 -/
def mergedSend (sc : SuperCast) (receivers : List UInt32) : McSend where
  tag := sc.mcsendTags.headD 0
  senderNsp := sc.senderNsp
  numMcids := UInt32.ofNat sc.mcids.length
  payloadSize := sc.totalPayload
  mcids := sc.mcids
  receivers := receivers

/-- SOURCE: mcast_optimizer.cpp, McastOptimizer::apply_results -/
def applyResults (original : List McSend) : List SuperCast → List McSend
  | [] => original
  | sc :: supercasts =>
    let r := collect sc.mcsendTags original []
    mergedSend sc r.1 :: applyResults r.2 supercasts

/-- The solver keeps every supercast. SOURCE: mcast_optimizer.cpp, McastOptimizer::optimize -/
def optimize (maxMcastBufferSize : UInt64) (mcsends : List McSend) : List McSend :=
  applyResults mcsends (buildLpInput maxMcastBufferSize mcsends)

end Gehtp.Model.McastOptimizer
