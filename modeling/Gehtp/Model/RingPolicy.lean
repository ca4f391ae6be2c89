import Mathlib.Algebra.Ring.Nat
import Mathlib.Logic.Function.Basic
import Mathlib.Logic.Relation

/-!
# The prefetch ring

`kernels/src/runtime/ring_policy.c`: groups of bytes are enqueued in order, each is claimed (its
descriptors are filled), fired (handed to a DMA engine) and found ready once all its descriptors are
done, and the caller releases it. Group `g` is copied to slot `g % nSlots`.

The engine is what `kernels/include/engine_adapter.h` says: a few operations on a state of its own,
the pool of descriptors and the memory. What it does between two operations is part of the second
one. Descriptors are named by their places in the pool, and addresses are numbers. The sources are
in a memory of their own that no one writes to. The counters are below 4096 and do not wrap around;
sums that may do so are taken modulo `2 ^ 32`.

The fields of a descriptor that only pass through, the statistics and the lock are left out. A
descriptor also records the group it was filled for and the bytes copied since, the memory comes with
a list of what was written, and the ring with a list of the re-kicks.
-/

set_option autoImplicit false

namespace Gehtp.Model.RingPolicy

open Relation

/-! ### The engine -/

/-- SOURCE: engine_adapter.h, ENG_STATUS_* -/
inductive EngStatus where
  | idle | run | err
  deriving DecidableEq

/-- SOURCE: engine_adapter.h, struct eng_desc -/
structure EngDesc where
  next : Option ℕ
  done : Bool
  src : ℕ
  dst : ℕ
  bytes : ℕ
  /-- The group that the descriptor was filled for. -/
  owner : ℕ
  /-- The bytes that were copied since. -/
  copied : ℕ → Bool

/-- What the ring and the engine share. `writes` has the group and the address of every byte that
was written. -/
structure Shared where
  descs : ℕ → EngDesc
  mem : ℕ → UInt8
  writes : List (ℕ × ℕ)

/-- An engine with what it works on. -/
structure World (S : Type) where
  eng : S
  sh : Shared

/-- The operations of an engine; `true` is the return value 0.
SOURCE: engine_adapter.h, struct engine_adapter -/
structure EngineAdapter (S : Type) where
  dmstart : ℕ → World S → Bool × World S
  dmlink : ℕ → ℕ → World S → Bool × World S
  dmpoll : World S → EngStatus × World S
  dmwait : World S → World S
  spin : ℕ → World S → World S
  clockUs : World S → ℕ

/-! ### The ring -/

/-- SOURCE: ring_policy.c:17-21, RP_* -/
inductive EntState where
  | pending | queued | submit | ready | gone
  deriving DecidableEq

/-- SOURCE: ring_policy.c:23-29, struct ring_ent -/
structure RingEnt where
  state : EntState
  nDescs : ℕ
  dfirst : ℕ
  dlast : ℕ
  src : ℕ
  slot : ℕ
  bytes : ℕ
  deriving DecidableEq

/-- SOURCE: ring_policy.c:31-44, struct ring_policy -/
structure Policy where
  nSlots : ℕ
  dpSlot : ℕ
  slotBytes : ℕ
  slots : ℕ
  ent : ℕ → RingEnt
  nEnq : ℕ
  nQsub : ℕ
  nFired : ℕ
  nReady : ℕ
  nRel : ℕ
  fireTail : Option ℕ
  fireTailPred : Option ℕ
  fireDepthBoost : Bool
  failed : Bool

/-- The ring with its engine. `rekicks` has the groups that were kicked again, and what the engine
was then. -/
structure Sys (S : Type) where
  pol : Policy
  world : World S
  rekicks : List (RingEnt × World S)

/-- SOURCE: ring_policy.h, RING_MAX_GROUPS -/
def ringMaxGroups : ℕ := 4096

/-- SOURCE: ring_policy.h, RING_MAX_DESCS_SLOT -/
def ringMaxDescsSlot : ℕ := 64

/-- SOURCE: ring_policy.h, RING_FIRE_DEPTH -/
def ringFireDepth : ℕ := 3

/-- An entry that was not written to yet. -/
def RingEnt.zero : RingEnt := ⟨.pending, 0, 0, 0, 0, 0, 0⟩

/-- A descriptor as `calloc` gives it. -/
def EngDesc.zero : EngDesc := ⟨none, false, 0, 0, 0, 0, fun _ => false⟩

/-- SOURCE: ring_policy.c:143-160 -/
def ringCreate (nSlots maxDescsPerSlot slotBytes slotsBase : ℕ) : Option Policy :=
  if nSlots = 0 ∨ maxDescsPerSlot = 0 ∨ slotBytes = 0 ∨ slotsBase = 0 then none
  else some {
    nSlots
    dpSlot := min maxDescsPerSlot ringMaxDescsSlot
    slotBytes
    slots := slotsBase
    ent := fun _ => RingEnt.zero
    nEnq := 0
    nQsub := 0
    nFired := 0
    nReady := 0
    nRel := 0
    fireTail := none
    fireTailPred := none
    fireDepthBoost := false
    failed := false }

variable {S : Type}

def Policy.setEnt (p : Policy) (g : ℕ) (e : RingEnt) : Policy :=
  { p with ent := Function.update p.ent g e }

/-! ### Claim -/

/-- SOURCE: ring_policy.c:48-50 -/
def curDepth (p : Policy) : ℕ := if p.fireDepthBoost then p.nSlots else ringFireDepth

/-- The next group may be claimed. SOURCE: ring_policy.c:54-56 -/
def canClaim (p : Policy) : Bool :=
  decide (p.nQsub < p.nEnq) && decide (p.nQsub - p.nRel < p.nSlots)
    && decide (p.nQsub < (p.nFired + curDepth p) % 2 ^ 32)

/-- The number of descriptors for so many bytes. SOURCE: ring_policy.c:60-63 -/
def spanLen (slotBytes bytes : ℕ) : ℕ :=
  let rowb := if bytes = 0 then 1 else bytes
  let nd := (rowb + slotBytes - 1) % 2 ^ 32 / slotBytes
  if nd < 1 then 1 else nd

/-- Fill the last `n` of the `nd` descriptors from `base` on; `off` bytes are before them.
SOURCE: ring_policy.c:65-79 -/
def fillSpan (g : ℕ) (e : RingEnt) (slotBytes base nd : ℕ) :
    ℕ → ℕ → (ℕ → EngDesc) → ℕ → EngDesc
  | 0, _, descs => descs
  | n + 1, off, descs =>
    let i := nd - (n + 1)
    let chunk := min (e.bytes - off) slotBytes
    let d : EngDesc :=
      { next := if i + 1 < nd then some (base + i + 1) else none
        done := false
        src := e.src + off
        dst := e.slot + off
        bytes := chunk
        owner := g
        copied := fun _ => false }
    fillSpan g e slotBytes base nd n (off + chunk) (Function.update descs (base + i) d)

/-- The first descriptor of the slot of a group. SOURCE: ring_policy.c:58-59 -/
def spanBase (p : Policy) (g : ℕ) : ℕ := g % p.nSlots * p.dpSlot

/-- The descriptors of the next group are filled. SOURCE: ring_policy.c:65-84 -/
def claimOne (s : Sys S) : Sys S :=
  let p := s.pol
  let e := p.ent p.nQsub
  let base := spanBase p p.nQsub
  let nd := spanLen p.slotBytes e.bytes
  let descs := fillSpan p.nQsub e p.slotBytes base nd nd 0 s.world.sh.descs
  let e' := { e with dfirst := base, dlast := base + (nd - 1), nDescs := nd, state := .queued }
  { s with
    pol := { p.setEnt p.nQsub e' with nQsub := p.nQsub + 1 }
    world := { s.world with sh := { s.world.sh with descs } } }

/-- SOURCE: ring_policy.c:64, 112, 117 -/
def fail (s : Sys S) : Sys S := { s with pol := { s.pol with failed := true } }

def claimLoop : ℕ → Sys S → Sys S
  | 0, s => s
  | n + 1, s =>
    if canClaim s.pol then
      if s.pol.dpSlot < spanLen s.pol.slotBytes (s.pol.ent s.pol.nQsub).bytes then fail s
      else claimLoop n (claimOne s)
    else s

/-- SOURCE: ring_policy.c:53-86 -/
def claim (s : Sys S) : Sys S := claimLoop (s.pol.nEnq - s.pol.nQsub) s

/-! ### Fire -/

/-- The descriptor to link to: the last one fired, if it and the one before it are not done.
SOURCE: ring_policy.c:108-109 -/
def slackTail (p : Policy) (sh : Shared) : Option ℕ :=
  match p.fireTail with
  | none => none
  | some t =>
    if (sh.descs t).done then none
    else
      match p.fireTailPred with
      | none => some t
      | some q => if (sh.descs q).done then none else some t

/-- The next group was handed to the engine. SOURCE: ring_policy.c:120-123 -/
def fired (s : Sys S) : Sys S :=
  let p := s.pol
  let e := p.ent p.nFired
  { s with
    pol := { p.setEnt p.nFired { e with state := .submit } with
      fireTailPred := if 1 < e.nDescs then some (e.dlast - 1) else p.fireTail
      fireTail := some e.dlast
      nFired := p.nFired + 1 } }

/-- What becomes of the answer to a doorbell, and whether to go on. -/
def afterDoorbell (s : Sys S) (r : Bool × World S) : Bool × Sys S :=
  let s := { s with world := r.2 }
  if r.1 then (true, fired s) else (false, fail s)

/-- Ring the doorbell for the next group. SOURCE: ring_policy.c:106-123 -/
def fireOne (A : EngineAdapter S) (s : Sys S) : Bool × Sys S :=
  let r := A.dmpoll s.world
  let dfirst := (s.pol.ent s.pol.nFired).dfirst
  let s := { s with world := r.2 }
  if r.1 = .run then
    match slackTail s.pol s.world.sh with
    | none => (false, s)
    | some t => afterDoorbell s (A.dmlink t dfirst s.world)
  else
    afterDoorbell s (A.dmstart dfirst (A.dmwait s.world))

/-- The next group is there to be fired. SOURCE: ring_policy.c:103-105 -/
def canFire (p : Policy) : Bool :=
  decide (p.nFired < p.nQsub) && decide ((p.ent p.nFired).state = .queued)

def fireLoop (A : EngineAdapter S) : ℕ → Sys S → Sys S
  | 0, s => s
  | n + 1, s =>
    if canFire s.pol then
      let r := fireOne A s
      if r.1 then fireLoop A n r.2 else r.2
    else s

/-- SOURCE: ring_policy.c:100-125 -/
def fire (A : EngineAdapter S) (s : Sys S) : Sys S :=
  if s.pol.failed then s else fireLoop A (s.pol.nQsub - s.pol.nFired) s

/-- SOURCE: ring_policy.c:92-97 -/
def claimAndFire (A : EngineAdapter S) (s : Sys S) : Sys S := fire A (claim s)

/-! ### Ready -/

/-- The first `n` descriptors of a chain are done. A chain that `claim` made does not end before.
SOURCE: ring_policy.c:132-135 -/
def chainDone (sh : Shared) : ℕ → Option ℕ → Bool
  | 0, _ => true
  | _ + 1, none => false
  | n + 1, some d => (sh.descs d).done && chainDone sh n (sh.descs d).next

/-- SOURCE: ring_policy.c:130-131 -/
def pastSubmit (e : RingEnt) : Bool :=
  match e.state with
  | .pending | .queued | .submit => false
  | .ready | .gone => true

def skipReady (s : Sys S) : Sys S := { s with pol := { s.pol with nReady := s.pol.nReady + 1 } }

/-- SOURCE: ring_policy.c:137-138 -/
def markReady (s : Sys S) : Sys S :=
  let p := s.pol
  { s with
    pol := { p.setEnt p.nReady { p.ent p.nReady with state := .ready } with
      nReady := p.nReady + 1 } }

def advanceReadyLoop : ℕ → Sys S → Sys S
  | 0, s => s
  | n + 1, s =>
    if s.pol.nReady < s.pol.nFired then
      let e := s.pol.ent s.pol.nReady
      if pastSubmit e then advanceReadyLoop n (skipReady s)
      else if chainDone s.world.sh e.nDescs (some e.dfirst) then advanceReadyLoop n (markReady s)
      else s
    else s

/-- SOURCE: ring_policy.c:128-141 -/
def advanceReady (s : Sys S) : Sys S := advanceReadyLoop (s.pol.nFired - s.pol.nReady) s

/-! ### The calls -/

/-- SOURCE: ring_policy.h, RING_* -/
inductive RingRc where
  | ok | arg | range | fatal
  deriving DecidableEq

/-- With the address in `slot_out`. SOURCE: ring_policy.h, ring_need_result -/
inductive NeedResult where
  | ready (slot : ℕ)
  | notReady
  | degraded
  deriving DecidableEq

/-- A group is entered. SOURCE: ring_policy.c:173-181 -/
def register (src bytes : ℕ) (s : Sys S) : Sys S :=
  let p := s.pol
  let e : RingEnt :=
    { RingEnt.zero with src, bytes, slot := p.slots + p.nEnq % p.nSlots * p.slotBytes }
  { s with pol := { p.setEnt p.nEnq e with nEnq := p.nEnq + 1 } }

/-- SOURCE: ring_policy.c:167-187 -/
def ringEnqueue (A : EngineAdapter S) (src bytes : ℕ) (s : Sys S) : RingRc × Sys S :=
  if bytes = 0 then (.arg, s)
  else if s.pol.failed then (.fatal, s)
  else if ringMaxGroups ≤ s.pol.nEnq then (.range, s)
  else
    let s := fire A (claim (register src bytes s))
    (if s.pol.failed then .fatal else .ok, s)

/-- SOURCE: ring_policy.c:198 -/
def poll (A : EngineAdapter S) (s : Sys S) : Sys S := { s with world := (A.dmpoll s.world).2 }

/-- SOURCE: ring_policy.c:203, 254 -/
def setBoost (b : Bool) (s : Sys S) : Sys S :=
  { s with pol := { s.pol with fireDepthBoost := b } }

/-- SOURCE: ring_policy.c:220-222 -/
def rekicked (g : ℕ) (s : Sys S) : Sys S :=
  let e := s.pol.ent g
  { s with
    pol := { s.pol with
      fireTail := some e.dlast
      fireTailPred := if 1 < e.nDescs then some (e.dlast - 1) else none } }

/-- Start a group again. SOURCE: ring_policy.c:215-222 -/
def rekick (A : EngineAdapter S) (g : ℕ) (s : Sys S) : Bool × Sys S :=
  let w := A.dmwait s.world
  let r := A.dmstart (s.pol.ent g).dfirst w
  let s := { s with world := r.2, rekicks := (s.pol.ent g, w) :: s.rekicks }
  if r.1 then (true, rekicked g s) else (false, s)

/-- SOURCE: ring_policy.c:233 -/
def spinTwo (A : EngineAdapter S) (s : Sys S) : Sys S := { s with world := A.spin 2 s.world }

/-- At most `n` rounds of the loop; without a result the call still waits after these.
SOURCE: ring_policy.c:197-234 -/
def needLoop (A : EngineAdapter S) (g deadlineUs : ℕ) :
    ℕ → ℕ → Bool → Sys S → Option NeedResult × Sys S
  | 0, _, _, s => (none, s)
  | n + 1, deadline, kicked, s =>
    let s := advanceReady (poll A s)
    if pastSubmit (s.pol.ent g) then (some (.ready (s.pol.ent g).slot), setBoost false s)
    else if s.pol.failed then (some .degraded, s)
    else
      let s := claimAndFire A (fire A s)
      if deadline ≤ A.clockUs s.world then
        if !kicked && decide ((s.pol.ent g).state = .submit) then
          let r := rekick A g s
          if r.1 then
            needLoop A g deadlineUs n ((A.clockUs r.2.world + deadlineUs) % 2 ^ 64) true r.2
          else (some .notReady, r.2)
        else (some .notReady, s)
      else needLoop A g deadlineUs n deadline kicked (spinTwo A s)

/-- SOURCE: ring_policy.c:189-235 -/
def ringNeed (A : EngineAdapter S) (g deadlineUs rounds : ℕ) (s : Sys S) :
    Option NeedResult × Sys S :=
  if s.pol.failed then (some .degraded, s)
  else if s.pol.nEnq ≤ g then (some .notReady, s)
  else needLoop A g deadlineUs rounds ((A.clockUs s.world + deadlineUs) % 2 ^ 64) false s

/-- SOURCE: ring_policy.c:241 -/
def markGone (g : ℕ) (s : Sys S) : Sys S :=
  { s with pol := s.pol.setEnt g { s.pol.ent g with state := .gone } }

def stepRel (s : Sys S) : Sys S := { s with pol := { s.pol with nRel := s.pol.nRel + 1 } }

/-- SOURCE: ring_policy.c:242-243 -/
def advanceRelLoop : ℕ → Sys S → Sys S
  | 0, s => s
  | n + 1, s =>
    if s.pol.nRel < s.pol.nEnq ∧ (s.pol.ent s.pol.nRel).state = .gone then
      advanceRelLoop n (stepRel s)
    else s

/-- SOURCE: ring_policy.c:240-244 -/
def releaseEnt (g : ℕ) (s : Sys S) : Sys S :=
  if (s.pol.ent g).state = .ready then
    advanceRelLoop (s.pol.nEnq - s.pol.nRel) (markGone g s)
  else s

/-- SOURCE: ring_policy.c:237-248 -/
def ringRelease (A : EngineAdapter S) (g : ℕ) (s : Sys S) : Sys S :=
  if s.pol.nEnq ≤ g then s else fire A (claim (releaseEnt g s))

/-- SOURCE: ring_policy.c:250-259 -/
def ringOnSerialPhase (A : EngineAdapter S) (s : Sys S) : Sys S :=
  fire A (fire A (claim (setBoost true s)))

/-- `n` groups from `i` on. SOURCE: ring_policy.c:263-268 -/
def drainLoop (A : EngineAdapter S) (watchdogUs rounds : ℕ) :
    ℕ → ℕ → Sys S → Option RingRc × Sys S
  | 0, _, s => (some .ok, s)
  | n + 1, i, s =>
    match ringNeed A i watchdogUs rounds s with
    | (some (.ready _), s') => drainLoop A watchdogUs rounds n (i + 1) (ringRelease A i s')
    | (some .notReady, s') => (some .fatal, s')
    | (some .degraded, s') => (some .fatal, s')
    | (none, s') => (none, s')

/-- SOURCE: ring_policy.c:261-270 -/
def ringDrainTo (A : EngineAdapter S) (g watchdogUs rounds : ℕ) (s : Sys S) :
    Option RingRc × Sys S :=
  if s.pol.nEnq ≤ g then (some .arg, s)
  else drainLoop A watchdogUs rounds (g + 1 - s.pol.nRel) s.pol.nRel s

/-- A call of the ring. What is waited for is looked at for so many rounds. -/
inductive RingCall where
  | enqueue (src bytes : ℕ)
  | need (g deadlineUs rounds : ℕ)
  | release (g : ℕ)
  | onSerialPhase
  | drainTo (g watchdogUs rounds : ℕ)

def ringCall (A : EngineAdapter S) : RingCall → Sys S → Sys S
  | .enqueue src bytes, s => (ringEnqueue A src bytes s).2
  | .need g deadlineUs rounds, s => (ringNeed A g deadlineUs rounds s).2
  | .release g, s => ringRelease A g s
  | .onSerialPhase, s => ringOnSerialPhase A s
  | .drainTo g watchdogUs rounds, s => (ringDrainTo A g watchdogUs rounds s).2

def ringCalls (A : EngineAdapter S) : List RingCall → Sys S → Sys S
  | [], s => s
  | c :: cs, s => ringCalls A cs (ringCall A c s)

/-- A new ring with its pool, which is all zero. -/
def ringStart (p : Policy) (eng : S) (mem : ℕ → UInt8) : Sys S where
  pol := p
  world := ⟨eng, ⟨fun _ => EngDesc.zero, mem, []⟩⟩
  rekicks := []

/-! ### Engines that copy before they are done -/

variable (ddr : ℕ → UInt8)

/-- Byte `i` of a descriptor is copied. -/
def copyByte (d i : ℕ) (sh : Shared) : Shared :=
  let e := sh.descs d
  { descs := Function.update sh.descs d { e with copied := Function.update e.copied i true }
    mem := Function.update sh.mem (e.dst + i) (ddr (e.src + i))
    writes := (e.owner, e.dst + i) :: sh.writes }

def setDone (d : ℕ) (sh : Shared) : Shared :=
  { sh with descs := Function.update sh.descs d { sh.descs d with done := true } }

/-- A descriptor is linked to another one. -/
def setNext (d : ℕ) (nx : Option ℕ) (sh : Shared) : Shared :=
  { sh with descs := Function.update sh.descs d { sh.descs d with next := nx } }

/-- The first `n` bytes of a descriptor are copied. -/
def copyBytes (d : ℕ) : ℕ → Shared → Shared
  | 0, sh => sh
  | n + 1, sh => copyByte ddr d n (copyBytes d n sh)

/-- What an engine may do: copy bytes of a descriptor, mark it as done once all of them were
copied, and link it to another one. -/
inductive EngStep : Shared → Shared → Prop where
  | copy (sh : Shared) (d i : ℕ) (h : i < (sh.descs d).bytes) : EngStep sh (copyByte ddr d i sh)
  | finish (sh : Shared) (d : ℕ) (h : ∀ i < (sh.descs d).bytes, (sh.descs d).copied i = true) :
    EngStep sh (setDone d sh)
  | link (sh : Shared) (d : ℕ) (nx : Option ℕ) : EngStep sh (setNext d nx sh)

/-- Each operation does such steps only. -/
structure EngineAdapter.Copies (A : EngineAdapter S) : Prop where
  dmstart : ∀ d w, ReflTransGen (EngStep ddr) w.sh (A.dmstart d w).2.sh
  dmlink : ∀ d nx w, ReflTransGen (EngStep ddr) w.sh (A.dmlink d nx w).2.sh
  dmpoll : ∀ w, ReflTransGen (EngStep ddr) w.sh (A.dmpoll w).2.sh
  dmwait : ∀ w, ReflTransGen (EngStep ddr) w.sh (A.dmwait w).sh
  spin : ∀ us w, ReflTransGen (EngStep ddr) w.sh (A.spin us w).sh

end Gehtp.Model.RingPolicy
