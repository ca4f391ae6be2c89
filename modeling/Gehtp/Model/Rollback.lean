import Mathlib.Data.UInt
import Gehtp.Lib.Store

/-!
# The rollback of recurrent states

`kernels/src/runtime/rbr.c` keeps copies of the recurrent states of an engine. The dialogue takes
a snapshot, restores it and rewinds the count of tokens; the engine reports each process and asks
at each setup what to do with its states. The states stand in the memory of the engine, which
the engine writes as it likes between the calls.

The counters of the statistics are left out.
-/

set_option autoImplicit false

namespace Gehtp.Model.Rollback

open Lib.Memory

/-- SOURCE: rbr.h, RBR_OK and the errors -/
inductive RbrCode where
  | ok
  | errParam
  | errNosnap
  | errStale
  | errFull
  | errFrozen
  deriving DecidableEq, Repr

/-- SOURCE: rbr.h, enum rbr_setup_mode -/
inductive SetupMode where
  | clear
  | copy
  | skip
  deriving DecidableEq, Repr

/-- A registered state with its copy, once there is one. -/
structure RecState where
  inState : ℕ
  bytes : UInt32
  shadow : Option (List UInt8)
  deriving DecidableEq

/-- SOURCE: rbr.h, struct rbr -/
structure Rbr where
  nGroups : ℕ
  grp : ℕ → List RecState
  frame : UInt32
  snapFrame : UInt32
  hasSnapshot : Bool
  skipNext : Bool
  nPast : UInt32
  lastTokens : UInt32

/-- SOURCE: rbr.h, RBR_MAX_GROUPS -/
def maxGroups : ℕ := 4

/-- SOURCE: rbr.h, RBR_MAX_STATES -/
def maxStates : ℕ := 2

/-- SOURCE: rbr.c:6-10 -/
def rbrInit : Rbr := ⟨0, fun _ => [], 0, 0, false, false, 0, 0⟩

/-- The states, in the order of the loops. -/
def Rbr.states (r : Rbr) : List RecState := (List.range r.nGroups).flatMap r.grp

/-- SOURCE: rbr.c:12-23 -/
def rbrRegister (r : Rbr) (group : UInt32) (inState : ℕ) (bytes : UInt32) : RbrCode × Rbr :=
  if inState = 0 ∨ bytes = 0 then (.errParam, r)
  else if r.hasSnapshot then (.errFrozen, r)
  else if maxGroups ≤ group.toNat then (.errFull, r)
  else if maxStates ≤ (r.grp group.toNat).length then (.errFull, r)
  else (.ok, { r with
    grp := Function.update r.grp group.toNat (r.grp group.toNat ++ [⟨inState, bytes, none⟩])
    nGroups := max r.nGroups (group.toNat + 1) })

/-- Copy one state, with the outcome of its allocation. SOURCE: rbr.c:29-33 -/
def snapState (mem : ℕ → UInt8) (granted : Bool) (e : RecState) : Option RecState :=
  if e.shadow.isNone && !granted then none
  else some { e with shadow := some (cells mem e.inState e.bytes.toNat) }

/-- The states of a group from the `s`-th on, and whether all were copied. -/
def snapStates (mem : ℕ → UInt8) (granted : ℕ → Bool) : ℕ → List RecState → Bool × List RecState
  | _, [] => (true, [])
  | s, e :: es =>
    match snapState mem (granted s) e with
    | none => (false, e :: es)
    | some e' => ((snapStates mem granted (s + 1) es).1, e' :: (snapStates mem granted (s + 1) es).2)

/-- The groups of a list, up to the first that fails. SOURCE: rbr.c:27-34 -/
def snapGroups (mem : ℕ → UInt8) (granted : ℕ → ℕ → Bool) :
    List ℕ → (ℕ → List RecState) → Bool × (ℕ → List RecState)
  | [], grp => (true, grp)
  | g :: gs, grp =>
    if (snapStates mem (granted g) 0 (grp g)).1 then
      snapGroups mem granted gs (Function.update grp g (snapStates mem (granted g) 0 (grp g)).2)
    else (false, Function.update grp g (snapStates mem (granted g) 0 (grp g)).2)

/-- SOURCE: rbr.c:25-39 -/
def rbrSnapshot (r : Rbr) (mem : ℕ → UInt8) (granted : ℕ → ℕ → Bool) : RbrCode × Rbr :=
  if r.nGroups = 0 then (.errParam, r)
  else if (snapGroups mem granted (List.range r.nGroups) r.grp).1 then
    (.ok, { r with
      grp := (snapGroups mem granted (List.range r.nGroups) r.grp).2
      hasSnapshot := true
      snapFrame := r.frame })
  else (.errParam, { r with grp := (snapGroups mem granted (List.range r.nGroups) r.grp).2 })

/-- Copy the states back. A state without a copy would be read from a null pointer.
SOURCE: rbr.c:45-47 -/
def restoreStates : List RecState → (ℕ → UInt8) → Option (ℕ → UInt8)
  | [], mem => some mem
  | e :: es, mem =>
    match e.shadow with
    | none => none
    | some l => restoreStates es (copyTo mem e.inState (fun i => l.getD i 0) e.bytes.toNat)

/-- `none` is a read of a null pointer. SOURCE: rbr.c:41-51 -/
def rbrRestore (r : Rbr) (mem : ℕ → UInt8) : Option (RbrCode × Rbr × (ℕ → UInt8)) :=
  if !r.hasSnapshot then some (.errNosnap, r, mem)
  else if r.frame ≠ r.snapFrame then some (.errStale, r, mem)
  else (restoreStates r.states mem).map fun mem' => (.ok, { r with skipNext := true }, mem')

/-- SOURCE: rbr.c:53-62 -/
def rbrSetupHook (r : Rbr) (engineNPast : UInt32) : SetupMode × Rbr :=
  if engineNPast = 0 then (.clear, { r with skipNext := false })
  else if r.skipNext then (.skip, { r with skipNext := false })
  else (.copy, r)

/-- SOURCE: rbr.c:64-70 -/
def rbrNoteProcess (r : Rbr) (nTokens : UInt32) : RbrCode × Rbr :=
  if nTokens = 0 then (.errParam, r)
  else (.ok, { r with
    frame := r.frame + 1
    nPast := r.nPast + nTokens
    lastTokens := nTokens })

/-- SOURCE: rbr.c:72-79 -/
def rbrRewind (r : Rbr) (nSelected : UInt32) : RbrCode × Rbr :=
  if !r.hasSnapshot then (.errNosnap, r)
  else if nSelected = 0 ∨ r.lastTokens < nSelected then (.errParam, r)
  else (.ok, { r with nPast := r.nPast - r.lastTokens })

/-! ### Histories of calls -/

/-- A call of the dialogue or of the engine, or the engine writing its memory. A snapshot comes
with the outcome of its allocations. -/
inductive RbrCall where
  | register (group : UInt32) (inState : ℕ) (bytes : UInt32)
  | snapshot (granted : ℕ → ℕ → Bool)
  | restore
  | setupHook (engineNPast : UInt32)
  | noteProcess (nTokens : UInt32)
  | rewind (nSelected : UInt32)
  | engine (mem : ℕ → UInt8)

/-- What a call returns. -/
inductive RbrAnswer where
  | code (c : RbrCode)
  | mode (m : SetupMode)
  | done
  deriving DecidableEq, Repr

/-- The module and the memory of the engine. -/
structure World where
  r : Rbr
  mem : ℕ → UInt8

/-- Make a call; `none` is a read of a null pointer. -/
def rbrCall (w : World) : RbrCall → Option (RbrAnswer × World)
  | .register group inState bytes =>
    some (.code (rbrRegister w.r group inState bytes).1,
      ⟨(rbrRegister w.r group inState bytes).2, w.mem⟩)
  | .snapshot granted =>
    some (.code (rbrSnapshot w.r w.mem granted).1, ⟨(rbrSnapshot w.r w.mem granted).2, w.mem⟩)
  | .restore => (rbrRestore w.r w.mem).map fun x => (.code x.1, ⟨x.2.1, x.2.2⟩)
  | .setupHook n => some (.mode (rbrSetupHook w.r n).1, ⟨(rbrSetupHook w.r n).2, w.mem⟩)
  | .noteProcess n => some (.code (rbrNoteProcess w.r n).1, ⟨(rbrNoteProcess w.r n).2, w.mem⟩)
  | .rewind n => some (.code (rbrRewind w.r n).1, ⟨(rbrRewind w.r n).2, w.mem⟩)
  | .engine mem => some (.done, ⟨w.r, mem⟩)

end Gehtp.Model.Rollback
