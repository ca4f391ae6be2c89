import Mathlib.Data.Rat.Floor
import Gehtp.Model.RingPolicy

/-!
# The simulated DMA engine

`kernels/src/runtime/ring_sim.c`: an engine for the prefetch ring with a virtual clock, and with the
doorbell laws of `kernels/include/engine_adapter.h` as checks. It executes a chain of descriptors
one after the other. After the last one there is a window in which it says that it is idle and is
not. An operation that breaks a law freezes the engine, and the number of the law is kept.

The clock is a rational number, and the parameters are the default ones. The pool begins at
descriptor 0, so that a pointer is in the pool if it is below its size. The report and the parked
tail, which nothing reads, are left out.
-/

set_option autoImplicit false

namespace Gehtp.Model.RingSim

open Model.RingPolicy

/-! ### The parameters -/

/-- SOURCE: ring_sim.c:19, bw_eng -/
def bwEng : ℚ := 55

/-- SOURCE: ring_sim.c:19, t_desc -/
def tDesc : ℚ := 1 / 2

/-- SOURCE: ring_sim.c:19, w_retire -/
def wRetire : ℚ := 2

/-- SOURCE: ring_sim.c:19, w_accept -/
def wAccept : ℚ := 1

/-- SOURCE: ring_sim.c:19, done_to_retire -/
def doneToRetire : ℚ := 3 / 10

/-- SOURCE: ring_sim.c:19, t_doorbell -/
def tDoorbell : ℚ := 2

/-! ### The engine -/

/-- SOURCE: ring_sim.c:17, eng_state -/
inductive EngState where
  | idle | run | retire
  deriving DecidableEq

/-- SOURCE: ring_sim.c:23-40, E -/
structure Engine where
  st : EngState
  now : ℚ
  head : Option ℕ
  cur : ℕ
  curTEnd : ℚ
  retireEnd : ℚ
  lastDoorbellT : ℚ
  lastDmwaitDoneT : ℚ
  poolN : ℕ
  /-- SIM_FAULT_F2_DOORBELL_LOST -/
  doorbellLost : Bool
  /-- SIM_FAULT_F4_EARLY_DONE -/
  earlyDone : Bool
  /-- The law that was broken. -/
  frozen : Option ℕ
  singleShot : Bool

/-- SOURCE: ring_sim.c:42-47 -/
def inPool (e : Engine) (d : ℕ) : Bool := decide (d < e.poolN)

/-- SOURCE: ring_sim.c:49-55 -/
def fatal (law : ℕ) (w : World Engine) : World Engine :=
  { w with eng := { w.eng with frozen := some (w.eng.frozen.getD law) } }

/-- SOURCE: ring_sim.c:58-60 -/
def xferUs (bytes : ℕ) : ℚ := bytes / (bwEng * 1000)

variable (ddr : ℕ → UInt8)

/-- What the descriptor that is executed leaves. SOURCE: ring_sim.c:69-76 -/
def landed (e : Engine) (sh : Shared) : Shared :=
  if e.earlyDone then setDone e.cur sh
  else setDone e.cur (copyBytes ddr e.cur (sh.descs e.cur).bytes sh)

/-- The next descriptor of the chain, if there is one. SOURCE: ring_sim.c:78 -/
def following (e : Engine) (sh : Shared) : Option ℕ :=
  if e.singleShot then none else (sh.descs e.cur).next

/-- The descriptor that is executed is done. SOURCE: ring_sim.c:68-88 -/
def complete (w : World Engine) : World Engine :=
  let sh := landed ddr w.eng w.sh
  let e := { w.eng with earlyDone := false }
  match following e sh with
  | some nx =>
    { eng := { e with cur := nx, curTEnd := e.curTEnd + tDesc + xferUs (sh.descs nx).bytes }
      sh }
  | none =>
    { eng := { e with
        singleShot := false
        retireEnd := e.curTEnd + doneToRetire + wRetire
        st := .retire }
      sh }

def settleLoop : ℕ → ℚ → World Engine → World Engine
  | 0, _, w => w
  | n + 1, t, w =>
    if w.eng.st ≠ .run then w
    else if t < w.eng.curTEnd then w
    else settleLoop n t (complete ddr w)

/-- Every descriptor takes at least `tDesc`, which bounds the number of those that are done by then.
SOURCE: ring_sim.c:63-90 -/
def settle (t : ℚ) (w : World Engine) : World Engine :=
  settleLoop ddr (⌊(t - w.eng.curTEnd) / tDesc⌋₊ + 1) t w

/-- SOURCE: ring_sim.c:97-100 -/
def closeRetire (w : World Engine) : World Engine :=
  if w.eng.st = .retire ∧ w.eng.retireEnd ≤ w.eng.now then
    { w with eng := { w.eng with st := .idle } }
  else w

/-- SOURCE: ring_sim.c:94-102 -/
def simAdvance (us : ℚ) (w : World Engine) : World Engine :=
  let t := w.eng.now + us
  closeRetire (settle ddr t { w with eng := { w.eng with now := t } })

/-- SOURCE: ring_sim.c:104-108 -/
def opPoll (w : World Engine) : EngStatus × World Engine :=
  let w := settle ddr w.eng.now w
  (if w.eng.st = .run then .run else .idle, w)

/-- SOURCE: ring_sim.c:112 -/
def waitRetire (w : World Engine) : World Engine :=
  if w.eng.st = .retire then simAdvance ddr (w.eng.retireEnd - w.eng.now) w else w

/-- SOURCE: ring_sim.c:110-114 -/
def opWait (w : World Engine) : World Engine :=
  let w := waitRetire ddr (settle ddr w.eng.now w)
  { w with eng := { w.eng with lastDmwaitDoneT := w.eng.now } }

/-- SOURCE: ring_sim.c:116-119 -/
def doorbellGapOk (e : Engine) : Bool :=
  decide (wAccept ≤ e.now - e.lastDoorbellT) || decide (e.lastDoorbellT < e.lastDmwaitDoneT)

/-- SOURCE: ring_sim.c:121-125 -/
def noteDoorbell (w : World Engine) : World Engine :=
  simAdvance ddr tDoorbell { w with eng := { w.eng with lastDoorbellT := w.eng.now } }

/-- Execution begins at a descriptor. SOURCE: ring_sim.c:139-142, 173-176 -/
def beginAt (d : ℕ) (w : World Engine) : World Engine :=
  { w with
    eng := { w.eng with
      head := some d
      cur := d
      curTEnd := w.eng.now + tDesc + xferUs (w.sh.descs d).bytes
      st := .run } }

/-- SOURCE: ring_sim.c:135-142 -/
def startAt (d : ℕ) (w : World Engine) : World Engine :=
  if w.eng.doorbellLost then { w with eng := { w.eng with doorbellLost := false } }
  else beginAt d w

/-- SOURCE: ring_sim.c:127-144 -/
def opStart (d : ℕ) (w : World Engine) : Bool × World Engine :=
  if w.eng.frozen.isSome then (false, w)
  else
    let w := { w with eng := { w.eng with singleShot := false } }
    if !inPool w.eng d then (false, fatal 5 w)
    else if w.eng.st = .retire then (false, fatal 6 w)
    else if w.eng.st ≠ .idle then (false, fatal 1 w)
    else if !doorbellGapOk w.eng then (false, fatal 4 w)
    else (true, startAt d (noteDoorbell ddr w))

/-- The descriptor before `cur` on the way from `d` on, or the last one if `cur` is not met. There
is no result if the way does not end. SOURCE: ring_sim.c:154-155 -/
def predWalk (sh : Shared) (cur : ℕ) : ℕ → Option ℕ → Option ℕ → Option (Option ℕ)
  | 0, _, _ => none
  | _ + 1, none, pred => some pred
  | n + 1, some d, pred =>
    if d = cur then some pred else predWalk sh cur n (sh.descs d).next (some d)

/-- `cur` and the descriptor before it are not done. SOURCE: ring_sim.c:153-156 -/
def slackOk (w : World Engine) (cur : ℕ) : Option Bool :=
  if (w.sh.descs cur).done then some false
  else
    (predWalk w.sh cur (w.eng.poolN + 1) w.eng.head none).map fun pred =>
      match pred with
      | none => true
      | some q => !(w.sh.descs q).done

/-- An engine that runs goes on with what is linked. If the way to `cur` does not end, neither does
the operation. SOURCE: ring_sim.c:151-160 -/
def linkRunning (cur : ℕ) (w : World Engine) : Bool × World Engine :=
  match slackOk w cur with
  | none => (false, w)
  | some false => (false, fatal 7 w)
  | some true =>
    if !doorbellGapOk w.eng then (false, fatal 4 w) else (true, noteDoorbell ddr w)

/-- An idle engine wakes up for one descriptor. SOURCE: ring_sim.c:161-178 -/
def linkIdle (cur nx : ℕ) (w : World Engine) : Bool × World Engine :=
  if w.eng.doorbellLost then (true, { w with eng := { w.eng with doorbellLost := false } })
  else if !doorbellGapOk w.eng then (false, fatal 4 w)
  else
    let w := noteDoorbell ddr w
    let d := if (w.sh.descs cur).done then nx else cur
    (true, beginAt d { w with eng := { w.eng with singleShot := true } })

/-- SOURCE: ring_sim.c:146-179 -/
def opLink (cur nx : ℕ) (w : World Engine) : Bool × World Engine :=
  if w.eng.frozen.isSome then (false, w)
  else if !inPool w.eng cur || !inPool w.eng nx then (false, fatal 5 w)
  else if w.eng.st = .retire then (false, fatal 6 w)
  else
    let w := { w with sh := setNext cur (some nx) w.sh }
    if w.eng.st = .run then linkRunning ddr cur w else linkIdle ddr cur nx w

/-- SOURCE: ring_sim.c:193-211, sim_adapter_init -/
def simAdapter : EngineAdapter Engine where
  dmstart := opStart ddr
  dmlink := opLink ddr
  dmpoll := opPoll ddr
  dmwait := opWait ddr
  spin us := simAdvance ddr us
  clockUs w := ⌊w.eng.now⌋₊

/-- After `sim_adapter_init`, with the pool that `ring_create` asks for.
SOURCE: ring_sim.c:181-187, 197-201 -/
def simInit (p : Policy) : Engine where
  st := .idle
  now := 0
  head := none
  cur := 0
  curTEnd := 0
  retireEnd := 0
  lastDoorbellT := -10 ^ 9
  lastDmwaitDoneT := 0
  poolN := p.nSlots * p.dpSlot % 2 ^ 32
  doorbellLost := false
  earlyDone := false
  frozen := none
  singleShot := false

/-- What happens to a ring with its engine: a call, a doorbell that will be lost, or some time. -/
inductive SimAct where
  | call (c : RingCall)
  | loseDoorbell
  | advance (us : NNRat)

def simAct : SimAct → Sys Engine → Sys Engine
  | .call c, s => ringCall (simAdapter ddr) c s
  | .loseDoorbell, s =>
    { s with world := { s.world with eng := { s.world.eng with doorbellLost := true } } }
  | .advance us, s => { s with world := simAdvance ddr us s.world }

/-- One after the other. -/
def simRun : List SimAct → Sys Engine → Sys Engine
  | [], s => s
  | a :: acts, s => simRun acts (simAct ddr a s)

def simStart (p : Policy) (mem : ℕ → UInt8) : Sys Engine := ringStart p (simInit p) mem

end Gehtp.Model.RingSim
