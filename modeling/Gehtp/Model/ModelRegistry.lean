import Mathlib.Data.Int.Notation
import Mathlib.Data.Nat.Notation
import Mathlib.Logic.Function.Basic
import Gehtp.Lib.Runs

/-!
# The life of a model

`scripts/model_registry.py` with `DeviceRuntime.init` and `release` of `scripts/device_runtime.py`,
`PersistentDeviceRuntime.init` of `scripts/persistent_runtime.py` and `_load_model_task` of
`scripts/gehtp_server.py`: a model is registered and loaded, which asks the runtime for a handle and
stores it as the slot of the model; it is unloaded, which takes the slot away and releases the
handle. Loads run in threads of their own; each section under the lock, and each call of the
runtime, is a step. A chat request only reads the status and the slot.

Handles are named by numbers that the runtime gives. What becomes of a call of the runtime, of the
manifest and of the tokenizer is said by the step. Paths, error texts and the cache size of a model
are left out.
-/

set_option autoImplicit false

namespace Gehtp.Model.ModelRegistry

inductive ModelStatus where
  | loading | available | unavailable | error
  deriving DecidableEq, Repr

structure ModelEntry where
  status : ModelStatus
  inputLength : ℤ
  /-- There is a tokenizer to load. -/
  tokenizer : Bool
  deviceSlot : Option ℕ
  deriving DecidableEq, Repr

/-- Where a load or an unload stands. -/
inductive Task where
  | idle
  /-- The model has been set to loading. -/
  | begun (m : ℕ)
  /-- The manifest has been read. -/
  | parsed (m : ℕ)
  /-- The runtime has given this handle. -/
  | inited (m h : ℕ)
  /-- The handle has been stored as the slot. -/
  | stored (m : ℕ)
  /-- `load` has returned. -/
  | loaded (m : ℕ)
  /-- `init` has raised a device error. -/
  | refused (m : ℕ)
  /-- `init` has raised something else. -/
  | failing (m : ℕ)
  /-- An unload will release this handle. -/
  | releasing (h : ℕ)
  | ended
  deriving DecidableEq, Repr

/-- What a call of `init` does. The prototype looks at the files first and then enters the handle;
the persistent runtime enters it first and then starts the server on the device. -/
inductive InitResult where
  | made (h : ℕ)
  /-- A device error, before a handle was entered. -/
  | refused
  /-- A device error after this handle was entered. -/
  | failed (h : ℕ)
  /-- Another error after this handle was entered. -/
  | crashed (h : ℕ)
  deriving DecidableEq, Repr

structure Registry where
  models : ℕ → Option ModelEntry
  tasks : ℕ → Task
  /-- The handles of the runtime. -/
  handles : List ℕ

def Registry.setModel (s : Registry) (m : ℕ) (x : ModelEntry) : Registry :=
  { s with models := Function.update s.models m (some x) }

def Registry.setTask (s : Registry) (t : ℕ) (x : Task) : Registry :=
  { s with tasks := Function.update s.tasks t x }

def Registry.enterHandle (s : Registry) (h : ℕ) : Registry :=
  if h ∈ s.handles then s else { s with handles := s.handles ++ [h] }

def Registry.slot (s : Registry) (m : ℕ) : Option ℕ := (s.models m).bind ModelEntry.deviceSlot

def ModelEntry.setStatus (x : ModelEntry) (status : ModelStatus) : ModelEntry := { x with status }

def Registry.setStatus (s : Registry) (m : ℕ) (status : ModelStatus) : Registry :=
  match s.models m with
  | none => s
  | some x => s.setModel m (x.setStatus status)

/-- SOURCE: model_registry.py:96-157 -/
def register (m : ℕ) (inputLength : ℤ) (tokenizer : Bool) (s : Registry) : Option Registry :=
  match s.models m with
  | none => some (s.setModel m ⟨.loading, inputLength, tokenizer, none⟩)
  | some _ => none

/-- SOURCE: model_registry.py:172-182 -/
def beginLoad (t m : ℕ) (s : Registry) : Option Registry :=
  match s.tasks t, s.models m with
  | .idle, some x =>
    if x.status = .available then none
    else some ((s.setModel m (x.setStatus .loading)).setTask t (.begun m))
  | _, _ => none

/-- The manifest is read unless the length is known. SOURCE: model_registry.py:184-196 -/
def parseManifest (t : ℕ) (length : Option ℤ) (s : Registry) : Option Registry :=
  match s.tasks t with
  | .begun m =>
    match s.models m with
    | none => none
    | some x =>
      if x.inputLength ≠ 0 then some (s.setTask t (.parsed m))
      else
        match length with
        | some n => some ((s.setModel m { x with inputLength := n }).setTask t (.parsed m))
        | none => some ((s.setModel m (x.setStatus .error)).setTask t .ended)
  | _ => none

/-- SOURCE: model_registry.py:203-209, device_runtime.py:58-73, persistent_runtime.py:296-310 -/
def initDevice (t : ℕ) (res : InitResult) (s : Registry) : Option Registry :=
  match s.tasks t with
  | .parsed m =>
    match res with
    | .made h => some ((s.enterHandle h).setTask t (.inited m h))
    | .refused => some (s.setTask t (.refused m))
    | .failed h => some ((s.enterHandle h).setTask t (.refused m))
    | .crashed h => some ((s.enterHandle h).setTask t (.failing m))
  | _ => none

/-- SOURCE: model_registry.py:219-221 -/
def storeSlot (t : ℕ) (s : Registry) : Option Registry :=
  match s.tasks t with
  | .inited m h =>
    match s.models m with
    | none => none
    | some x => some ((s.setModel m { x with deviceSlot := some h }).setTask t (.stored m))
  | _ => none

/-- SOURCE: model_registry.py:223-225 -/
def publish (t : ℕ) (s : Registry) : Option Registry :=
  match s.tasks t with
  | .stored m => some ((s.setStatus m .available).setTask t (.loaded m))
  | _ => none

/-- The rest of the task: the tokenizer, or an error to report.
SOURCE: model_registry.py:210-218, gehtp_server.py:450-474 -/
def endLoad (t : ℕ) (tokenizerOk : Bool) (s : Registry) : Option Registry :=
  match s.tasks t with
  | .loaded m =>
    let tokenizer := ((s.models m).map ModelEntry.tokenizer).getD false
    if tokenizer ∧ ¬ tokenizerOk then some ((s.setStatus m .error).setTask t .ended)
    else some (s.setTask t .ended)
  | .refused m => some ((s.setStatus m .unavailable).setTask t .ended)
  | .failing m => some ((s.setStatus m .error).setTask t .ended)
  | _ => none

/-- The slot is taken away; without a runtime nothing is released. SOURCE: model_registry.py:233-238 -/
def beginUnload (t m : ℕ) (withRuntime : Bool) (s : Registry) : Option Registry :=
  match s.tasks t, s.models m with
  | .idle, some x =>
    let s' := s.setModel m { x with deviceSlot := none, status := .unavailable }
    match x.deviceSlot with
    | some h => some (s'.setTask t (if withRuntime then .releasing h else .ended))
    | none => some (s'.setTask t .ended)
  | _, _ => none

/-- SOURCE: model_registry.py:238-243, device_runtime.py:123-127 -/
def release (t : ℕ) (s : Registry) : Option Registry :=
  match s.tasks t with
  | .releasing h => some (Registry.setTask { s with handles := s.handles.filter (· ≠ h) } t .ended)
  | _ => none

/-- SOURCE: model_registry.py:261-265 -/
def setError (m : ℕ) (s : Registry) : Option Registry :=
  match s.models m with
  | none => none
  | some x => some (s.setModel m (x.setStatus .error))

/-- A chat request looks at the status. SOURCE: gehtp_server.py:547-564 -/
def chat (m : ℕ) (s : Registry) : Option Registry :=
  match s.models m with
  | none => none
  | some x => if x.status = .available then some s else none

inductive Event where
  | register (m : ℕ) (inputLength : ℤ) (tokenizer : Bool)
  | beginLoad (t m : ℕ)
  | parseManifest (t : ℕ) (length : Option ℤ)
  | initDevice (t : ℕ) (res : InitResult)
  | storeSlot (t : ℕ)
  | publish (t : ℕ)
  | endLoad (t : ℕ) (tokenizerOk : Bool)
  | beginUnload (t m : ℕ) (withRuntime : Bool)
  | release (t : ℕ)
  | setError (m : ℕ)
  | chat (m : ℕ)

def step : Event → Registry → Option Registry
  | .register m inputLength tokenizer, s => register m inputLength tokenizer s
  | .beginLoad t m, s => beginLoad t m s
  | .parseManifest t length, s => parseManifest t length s
  | .initDevice t res, s => initDevice t res s
  | .storeSlot t, s => storeSlot t s
  | .publish t, s => publish t s
  | .endLoad t tokenizerOk, s => endLoad t tokenizerOk s
  | .beginUnload t m withRuntime, s => beginUnload t m withRuntime s
  | .release t, s => release t s
  | .setError m, s => setError m s
  | .chat m, s => chat m s

def start : Registry := ⟨fun _ => none, fun _ => .idle, []⟩

end Gehtp.Model.ModelRegistry
