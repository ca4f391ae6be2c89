import Gehtp.Lib.Machine
import Gehtp.Lib.Runs

/-!
# The ring of weight tiles

`wtcache_ring_prime`, `wtcache_ring_next` and `wtcache_ring_drain`
(`kernels/src/runtime/wtcache_impl.c`). Tiles are pushed to a queue of sources and prefetched by DMA
into a window of input slots. `next` waits for the oldest slot of the window and gives it out, with
an output slot for the caller; the output slot of the call before is moved back first.

The DMA engine (`kernels/src/runtime/dma_utils.c`) is a queue of transfers that land one after the
other, at any time; waiting lets them land. What the surroundings decide is given with each call:
whether `realloc` and the submits succeed, and how a move-back ends. A tile is its content, which
does not change while it is pushed. Null rings and the counters are left out.

Beside the ring stands what the caller knows and a log of what was returned, left in the output
slots and moved back.
-/

set_option autoImplicit false

namespace Gehtp.Model.WtcacheRing

open Lib Lib.Machine

/-- SOURCE: wtcache.h, WTC_ERR_* -/
inductive WtcErr where
  | oom | dma | notReady
  deriving DecidableEq

/-- How a move-back ends: done, refused before the transfer is started, or with an error while the
engine is waited for after that. SOURCE: wtcache_impl.c:207-255, dma_xfer_blocking -/
inductive Xfer where
  | done
  | refused (e : WtcErr)
  | lateError
  deriving DecidableEq

/-- What the surroundings decide during a call: each `realloc`, each submit, and the move-back. -/
structure CallEnv where
  realloc : ℕ → Bool
  submit : ℕ → Bool
  moveback : Xfer

/-- The ring with the slots and the engine, the caller, and the log. `T` is the content of a tile,
`U` that of an output slot, and `A` a target in memory. SOURCE: wtcache_impl.c:316-351 -/
structure TileRing (T U A : Type) where
  depthIn : ℕ
  depthOut : ℕ
  inSlots : ℕ → Option T
  outSlots : ℕ → U
  descDone : ℕ → Bool
  queue : List (ℕ × T)
  overlapMode : Bool
  inConsume : ℕ
  nInflight : ℕ
  ddrSources : List T
  ddrCap : ℕ
  ddrNext : ℕ
  pendingMb : Option (ℕ × A)
  /-- The input slot that the last call returned. -/
  curIn : Option ℕ
  /-- The output slot that the caller may write to. -/
  curOut : Option ℕ
  /-- What the caller has left in that slot, and where it is to go. -/
  left : Option (A × U)
  returned : List (ℕ × Option T)
  handed : List (A × U)
  moved : List (A × U)

variable {T U A : Type}

/-- A depth that is not positive is 4. SOURCE: wtcache_impl.c:379-380 -/
def depthOr4 (d : ℕ) : ℕ := if d < 1 then 4 else d

/-- SOURCE: wtcache_impl.c:375-434 -/
def ringInit (depthPrefetch depthMoveback : ℕ) (garbage : U) : TileRing T U A where
  depthIn := depthOr4 depthPrefetch
  depthOut := depthOr4 depthMoveback
  inSlots _ := none
  outSlots _ := garbage
  descDone _ := false
  queue := []
  overlapMode := false
  inConsume := 0
  nInflight := 0
  ddrSources := []
  ddrCap := depthOr4 depthPrefetch + 16
  ddrNext := 0
  pendingMb := none
  curIn := none
  curOut := none
  left := none
  returned := []
  handed := []
  moved := []

abbrev RingM (T U A α : Type) : Type := Machine (TileRing T U A) WtcErr α

/-! ### The engine -/

def land (r : TileRing T U A) : TileRing T U A :=
  match r.queue with
  | [] => r
  | (slot, tile) :: rest =>
    { r with
      inSlots := Function.update r.inSlots slot (some tile)
      descDone := Function.update r.descDone slot true
      queue := rest }

/-- `n` transfers land. -/
def landN : ℕ → TileRing T U A → TileRing T U A
  | 0, r => r
  | n + 1, r => landN n (land r)

/-- SOURCE: dma_utils.c:34-42, dma_wait_for_idle -/
def waitForIdle : RingM T U A Unit := update fun r => landN r.queue.length r

/-- Poll until the descriptor of a slot is done. If no transfer is left and it is not, the loop
does not end. SOURCE: wtcache_impl.c:541 -/
def spin (slot : ℕ) : ℕ → RingM T U A Unit
  | 0 => do
    let r ← read id
    if r.descDone slot then pure () else hang
  | n + 1 => do
    let r ← read id
    if r.descDone slot then pure () else do
      update land
      spin slot n

/-- Without overlap the engine is idle before a submit. SOURCE: wtcache_impl.c:357, 471 -/
def waitUnlessOverlap : RingM T U A Unit := do
  let r ← read id
  if r.overlapMode then pure () else waitForIdle

/-- A prefetch descriptor is handed to the engine.
SOURCE: wtcache_impl.c:356-373, submit_one and submit_chained -/
def submit (ok : Bool) (slot : ℕ) (tile : T) : RingM T U A Unit := do
  guard (ok = true) .dma
  waitUnlessOverlap
  update fun r => { r with queue := r.queue ++ [(slot, tile)] }

/-! ### The ring -/

/-- Room for one more source. SOURCE: wtcache_impl.c:438-443 -/
def growSources (reallocOk : Bool) : RingM T U A Unit := do
  let r ← read id
  if r.ddrCap ≤ r.ddrSources.length then do
    guard (reallocOk = true) .oom
    update fun r => { r with ddrCap := r.ddrCap * 2 }
  else pure ()

/-- SOURCE: wtcache_impl.c:437-446 -/
def ringPushDdr (reallocOk : Bool) (ddr : T) : RingM T U A Unit := do
  growSources reallocOk
  update fun r => { r with ddrSources := r.ddrSources ++ [ddr] }

/-- One round of the loop: the next source is taken, its descriptor is made and submitted.
SOURCE: wtcache_impl.c:454-476 -/
def prefetchOne (ok : Bool) : RingM T U A Unit := do
  let r ← read id
  let slot := (r.inConsume + r.nInflight) % r.depthIn
  match r.ddrSources[r.ddrNext]? with
  | none => fault
  | some src => do
    update fun r => { r with
      ddrNext := r.ddrNext + 1
      descDone := Function.update r.descDone slot false }
    submit ok slot src
    update fun r => { r with nInflight := r.nInflight + 1 }

/-- The loop; it fills the window, so `n` rounds are enough if `n` slots are free.
SOURCE: wtcache_impl.c:453 -/
def submitLoop (ok : ℕ → Bool) : (n i : ℕ) → RingM T U A Unit
  | 0, _ => pure ()
  | n + 1, i => do
    let r ← read id
    if r.nInflight < r.depthIn ∧ r.ddrNext < r.ddrSources.length then do
      prefetchOne (ok i)
      submitLoop ok n (i + 1)
    else pure ()

/-- SOURCE: wtcache_impl.c:452-480 -/
def ringTrySubmitPrefetch (ok : ℕ → Bool) : RingM T U A Unit := do
  let r ← read id
  submitLoop ok (r.depthIn - r.nInflight) 0

/-- The tiles are pushed one after the other. SOURCE: wtcache_impl.c:484-487 -/
def pushAll (ok : ℕ → Bool) : ℕ → List T → RingM T U A Unit
  | _, [] => pure ()
  | i, t :: ts => do
    ringPushDdr (ok i) t
    pushAll ok (i + 1) ts

/-- A call begins: the slot of the last call may be used again. -/
def beginCall : RingM T U A Unit := update fun r => { r with curIn := none }

/-- SOURCE: wtcache_impl.c:482-492 -/
def ringPrime (env : CallEnv) (tiles : List T) : RingM T U A Unit := do
  beginCall
  pushAll env.realloc 0 tiles
  ringTrySubmitPrefetch env.submit

/-- SOURCE: wtcache_impl.c:499-503 -/
def ringSetOverlap (enable : Bool) : RingM T U A Unit := do
  waitForIdle
  update fun r => { r with overlapMode := enable }

/-- The transfer from an output slot to its target. SOURCE: wtcache_impl.c:510-517 -/
def ringSubmitMoveback (outcome : Xfer) (outSlot : ℕ) (target : A) : RingM T U A Unit :=
  match outcome with
  | .refused e => reject e
  | .done => do
    waitForIdle
    update fun r => { r with moved := r.moved ++ [(target, r.outSlots outSlot)] }
  | .lateError => do
    waitForIdle
    update fun r => { r with moved := r.moved ++ [(target, r.outSlots outSlot)] }
    reject .dma

/-- The move-back of the output slot of the call before, if it has a target.
SOURCE: wtcache_impl.c:561-564 -/
def submitPending (outcome : Xfer) : RingM T U A Unit := do
  let r ← read id
  match r.pendingMb with
  | none => pure ()
  | some (slot, target) => ringSubmitMoveback outcome slot target

/-- The slots are given to the caller. SOURCE: wtcache_impl.c:565-574 -/
def giveOut (slot outSlot : ℕ) (target : Option A) : RingM T U A Unit :=
  update fun r => { r with
    pendingMb := target.map fun a => (outSlot, a)
    inConsume := (r.inConsume + 1) % r.depthIn
    nInflight := r.nInflight - 1
    curIn := some slot
    curOut := some outSlot
    left := target.map fun a => (a, r.outSlots outSlot)
    returned := r.returned ++ [(slot, r.inSlots slot)]
    handed := r.handed ++ r.left.toList }

/-- SOURCE: wtcache_impl.c:519-575 -/
def ringNext (env : CallEnv) (ddrNext : Option T) (ddrOutTarget : Option A) :
    RingM T U A Unit := do
  beginCall
  pushAll env.realloc 0 ddrNext.toList
  ringTrySubmitPrefetch env.submit
  let r ← read id
  guard (r.nInflight ≠ 0) .notReady
  spin r.inConsume r.queue.length
  submitPending env.moveback
  giveOut r.inConsume (r.inConsume % r.depthOut) ddrOutTarget

/-- The window is waited for slot by slot. SOURCE: wtcache_impl.c:580-588 -/
def drainLoop : ℕ → RingM T U A Unit
  | 0 => pure ()
  | n + 1 => do
    let r ← read id
    spin r.inConsume r.queue.length
    update fun r => { r with
      inConsume := (r.inConsume + 1) % r.depthIn
      nInflight := r.nInflight - 1 }
    drainLoop n

/-- SOURCE: wtcache_impl.c:577-601 -/
def ringDrain (outcome : Xfer) : RingM T U A Unit := do
  beginCall
  let r ← read id
  drainLoop r.nInflight
  submitPending outcome
  update fun r => { r with pendingMb := none, left := none, handed := r.handed ++ r.left.toList }
  waitForIdle

/-! ### Runs -/

/-- What happens to a ring: a call, the caller writes to its output slot, or a transfer lands. -/
inductive Action (T U A : Type) where
  | prime (env : CallEnv) (tiles : List T)
  | next (env : CallEnv) (ddrNext : Option T) (ddrOutTarget : Option A)
  | setOverlap (enable : Bool)
  | write (u : U)
  | engine

/-- The caller writes to the output slot that it was given. -/
def callerWrite (u : U) (r : TileRing T U A) : TileRing T U A :=
  match r.curOut with
  | none => r
  | some o =>
    { r with
      outSlots := Function.update r.outSlots o u
      left := r.left.map fun e => (e.1, u) }

/-- The ring after a call that returns, with or without an error. -/
def after {α : Type} (m : RingM T U A α) (r : TileRing T U A) : Option (TileRing T U A) :=
  match m r with
  | (.ok _, r') => some r'
  | (.error (.reject _), r') => some r'
  | _ => none

def step : Action T U A → TileRing T U A → Option (TileRing T U A)
  | .prime env tiles, r => after (ringPrime env tiles) r
  | .next env t a, r => after (ringNext env t a) r
  | .setOverlap enable, r => after (ringSetOverlap enable) r
  | .write u, r => some (callerWrite u r)
  | .engine, r => some (land r)

end Gehtp.Model.WtcacheRing
