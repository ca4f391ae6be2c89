import Mathlib.Tactic.SplitIfs
import Gehtp.Lib.Custody
import Gehtp.Model.ModelRegistry

/-!
# Whether handles are lost

A handle is made by a load, becomes the slot of a model and is released by an unload. It is lost if
the slot it is stored in still has another handle (two loads at once, or a load after an error that
left the slot), if `init` raises after it has entered the handle, or if an unload is not given the
runtime. A model becomes available without a handle if it is unloaded between the two sections that
end a load. In runs without these steps, every handle is always in the hands of exactly one model,
load or unload.
-/

set_option autoImplicit false

namespace Gehtp.Analysis.RegistryHandles

open Lib Model.ModelRegistry

/-! ### The condition and the result -/

def Loading : Task → Prop
  | .begun _ | .parsed _ | .inited _ _ | .stored _ | .refused _ | .failing _ => True
  | .idle | .loaded _ | .releasing _ | .ended => False

/-- The step loses no handle and makes no model available without one. -/
def Careful : Event → Registry → Prop
  | .initDevice _ (.made h), s => h ∉ s.handles
  | .initDevice _ (.failed _), _ => False
  | .initDevice _ (.crashed _), _ => False
  | .storeSlot t, s => ∀ m h, s.tasks t = .inited m h → s.slot m = none
  | .publish t, s => ∀ m, s.tasks t = .stored m → s.slot m ≠ none
  | .beginUnload _ m withRuntime, s => s.slot m ≠ none → withRuntime = true
  | _, _ => True

/-- An available model has a slot that the runtime holds, and while no load is in progress each
handle that no unload is about to release is the slot of exactly one model. -/
structure Tracked (s : Registry) : Prop where
  available : ∀ m x, s.models m = some x → x.status = .available →
    ∃ h, x.deviceSlot = some h ∧ h ∈ s.handles
  kept : (∀ t, ¬ Loading (s.tasks t)) → ∀ h ∈ s.handles, (∀ t, s.tasks t ≠ .releasing h) →
    ∃! m, s.slot m = some h

/-! ### Who holds a handle -/

inductive Owner where
  | slot (m : ℕ)
  | task (t : ℕ)
  deriving DecidableEq

def taskHeld : Task → Option ℕ
  | .inited _ h => some h
  | .releasing h => some h
  | _ => none

def held (s : Registry) : Owner → Option ℕ
  | .slot m => s.slot m
  | .task t => taskHeld (s.tasks t)

structure Inv (s : Registry) : Prop where
  custody : Custody (held s) (· ∈ s.handles)
  available : ∀ m x, s.models m = some x → x.status = .available → x.deviceSlot ≠ none

variable {s s' : Registry} {t m h : ℕ} {x : ModelEntry} {k : Task}

theorem Inv.tracked (hinv : Inv s) : Tracked s where
  available m x hx hstatus := by
    obtain ⟨h, hslot⟩ := Option.ne_none_iff_exists'.mp (hinv.available m x hx hstatus)
    have hheld : held s (.slot m) = some h := by
      show (s.models m).bind ModelEntry.deviceSlot = some h
      rw [hx]
      exact hslot
    exact ⟨h, hslot, hinv.custody.sound _ h hheld⟩
  kept hidle h hh hfree := by
    obtain ⟨o, ho⟩ := hinv.custody.kept h hh
    cases o with
    | slot m =>
      refine ⟨m, ho, fun m' hm' => ?_⟩
      have heq := hinv.custody.unique (.slot m') (.slot m) h hm' ho
      cases heq
      rfl
    | task t =>
      exfalso
      have hnot := hidle t
      change taskHeld (s.tasks t) = some h at ho
      cases htask : s.tasks t with
      | inited m h' =>
        rw [htask] at hnot
        exact hnot trivial
      | releasing h' =>
        rw [htask] at ho
        cases ho
        exact hfree t htask
      | _ =>
        rw [htask] at ho
        cases ho

theorem inv_start : Inv start where
  custody := by
    refine ⟨?_, ?_, ?_⟩
    · intro o h ho
      cases o <;> cases ho
    · intro o _ h ho
      cases o <;> cases ho
    · intro h hh
      cases hh
  available m x hx := by cases hx

theorem held_setTask : held (s.setTask t k) = Function.update (held s) (.task t) (taskHeld k) := by
  funext o
  rw [Function.update_apply]
  cases o with
  | slot m => rfl
  | task u =>
    show taskHeld (Function.update s.tasks t k u) = _
    rw [Function.update_apply]
    by_cases hut : u = t
    · subst hut
      rw [if_pos rfl, if_pos rfl]
    · rw [if_neg hut, if_neg fun heq => hut (Owner.task.inj heq)]
      rfl

theorem held_setModel :
    held (s.setModel m x) = Function.update (held s) (.slot m) x.deviceSlot := by
  funext o
  rw [Function.update_apply]
  cases o with
  | slot u =>
    show (Function.update s.models m (some x) u).bind ModelEntry.deviceSlot = _
    rw [Function.update_apply]
    by_cases hum : u = m
    · subst hum
      rw [if_pos rfl, if_pos rfl]
      rfl
    · rw [if_neg hum, if_neg fun heq => hum (Owner.slot.inj heq)]
      rfl
  | task u => rfl

theorem held_slot (hx : s.models m = some x) : held s (.slot m) = x.deviceSlot := by
  show (s.models m).bind ModelEntry.deviceSlot = _
  rw [hx]
  rfl

theorem held_task (ht : s.tasks t = k) : held s (.task t) = taskHeld k := by
  show taskHeld (s.tasks t) = _
  rw [ht]

theorem Inv.setTask (hinv : Inv s) (ht : taskHeld (s.tasks t) = none) (hk : taskHeld k = none) :
    Inv (s.setTask t k) where
  custody := by
    apply hinv.custody.congr _ fun _ => Iff.rfl
    rw [held_setTask, hk, ← ht]
    exact Function.update_eq_self _ _
  available := hinv.available

theorem Inv.setModel (hinv : Inv s) (hslot : s.slot m = x.deviceSlot)
    (hav : x.status = .available → x.deviceSlot ≠ none) : Inv (s.setModel m x) where
  custody := by
    apply hinv.custody.congr _ fun _ => Iff.rfl
    rw [held_setModel, ← hslot]
    exact Function.update_eq_self _ _
  available m' x' hx' hstatus := by
    change Function.update s.models m (some x) m' = some x' at hx'
    rw [Function.update_apply] at hx'
    split at hx'
    · cases hx'
      exact hav hstatus
    · exact hinv.available m' x' hx' hstatus

theorem slot_of_models (hx : s.models m = some x) : s.slot m = x.deviceSlot := held_slot hx

theorem Inv.changeModel (hinv : Inv s) (hx : s.models m = some x) (y : ModelEntry)
    (hslot : y.deviceSlot = x.deviceSlot) (hav : y.status = .available → y.deviceSlot ≠ none) :
    Inv (s.setModel m y) :=
  hinv.setModel ((slot_of_models hx).trans hslot.symm) hav

theorem Inv.setStatus (hinv : Inv s) (status : ModelStatus)
    (hav : status = .available → s.slot m ≠ none) : Inv (s.setStatus m status) := by
  unfold Registry.setStatus
  split
  · exact hinv
  · rename_i x hx
    apply hinv.changeModel hx (x.setStatus status) rfl
    intro hstatus
    rw [slot_of_models hx] at hav
    exact hav hstatus

@[simp] theorem setStatus_tasks (status : ModelStatus) : (s.setStatus m status).tasks = s.tasks := by
  unfold Registry.setStatus
  split <;> rfl

/-! ### Steps -/

theorem inv_register {n : ℤ} {b : Bool} (hinv : Inv s) (hs : register m n b s = some s') :
    Inv s' := by
  unfold register at hs
  split at hs
  · rename_i hm
    cases hs
    apply hinv.setModel
    · show (s.models m).bind ModelEntry.deviceSlot = none
      rw [hm]
      rfl
    · intro hstatus
      cases hstatus
  · cases hs

theorem inv_beginLoad (hinv : Inv s) (hs : beginLoad t m s = some s') : Inv s' := by
  unfold beginLoad at hs
  split at hs
  · rename_i x ht hx
    split_ifs at hs
    cases hs
    have hmid : Inv (s.setModel m (x.setStatus .loading)) :=
      hinv.changeModel hx _ rfl fun hstatus => by cases hstatus
    apply hmid.setTask _ rfl
    exact held_task ht
  · cases hs

theorem inv_parseManifest {length : Option ℤ} (hinv : Inv s)
    (hs : parseManifest t length s = some s') : Inv s' := by
  unfold parseManifest at hs
  split at hs
  · rename_i m ht
    split at hs
    · cases hs
    · rename_i x hx
      split_ifs at hs
      · cases hs
        exact hinv.setTask (held_task ht) rfl
      · split at hs
        · rename_i n
          cases hs
          have hmid : Inv (s.setModel m { x with inputLength := n }) :=
            hinv.changeModel hx _ rfl (hinv.available m x hx)
          exact hmid.setTask (held_task ht) rfl
        · cases hs
          have hmid : Inv (s.setModel m (x.setStatus .error)) :=
            hinv.changeModel hx _ rfl fun hstatus => by cases hstatus
          exact hmid.setTask (held_task ht) rfl
  · cases hs

theorem inv_initDevice {res : InitResult} (hinv : Inv s) (hok : Careful (.initDevice t res) s)
    (hs : initDevice t res s = some s') : Inv s' := by
  unfold initDevice at hs
  split at hs
  · rename_i m ht
    cases res with
    | made h =>
      cases hs
      have hnew : h ∉ s.handles := hok
      have henter : s.enterHandle h = { s with handles := s.handles ++ [h] } := by
        unfold Registry.enterHandle
        rw [if_neg hnew]
      rw [henter]
      refine ⟨?_, hinv.available⟩
      apply (hinv.custody.add (held_task ht) hnew).congr
      · exact held_setTask
      · intro y
        show y ∈ s.handles ++ [h] ↔ _
        rw [List.mem_append, List.mem_singleton]
    | refused =>
      cases hs
      exact hinv.setTask (held_task ht) rfl
    | failed h => exact hok.elim
    | crashed h => exact hok.elim
  · cases hs

theorem inv_storeSlot (hinv : Inv s) (hok : Careful (.storeSlot t) s)
    (hs : storeSlot t s = some s') : Inv s' := by
  unfold storeSlot at hs
  split at hs
  · rename_i m h ht
    split at hs
    · cases hs
    · rename_i x hx
      cases hs
      have hnone : held s (.slot m) = none := hok m h ht
      refine ⟨?_, ?_⟩
      · apply (hinv.custody.move (held_task ht) hnone).congr _ fun _ => Iff.rfl
        rw [held_setTask, held_setModel]
        exact Function.update_comm (by exact Owner.noConfusion) _ _ _
      · intro m' x' hx' hstatus
        change Function.update s.models m _ m' = some x' at hx'
        rw [Function.update_apply] at hx'
        split at hx'
        · cases hx'
          exact Option.some_ne_none h
        · exact hinv.available m' x' hx' hstatus
  · cases hs

theorem inv_publish (hinv : Inv s) (hok : Careful (.publish t) s) (hs : publish t s = some s') :
    Inv s' := by
  unfold publish at hs
  split at hs
  · rename_i m ht
    cases hs
    have hmid : Inv (s.setStatus m .available) := hinv.setStatus .available fun _ => hok m ht
    apply hmid.setTask _ rfl
    rw [setStatus_tasks]
    exact held_task ht
  · cases hs

theorem inv_endLoad {ok : Bool} (hinv : Inv s) (hs : endLoad t ok s = some s') : Inv s' := by
  have hend : ∀ m status, taskHeld (s.tasks t) = none → status ≠ .available →
      Inv ((s.setStatus m status).setTask t .ended) := by
    intro m status ht hstatus
    have hmid : Inv (s.setStatus m status) := hinv.setStatus status fun heq => absurd heq hstatus
    apply hmid.setTask _ rfl
    rw [setStatus_tasks]
    exact ht
  unfold endLoad at hs
  split at hs
  · rename_i m ht
    dsimp only at hs
    split_ifs at hs
    · cases hs
      exact hend m .error (held_task ht) ModelStatus.noConfusion
    · cases hs
      exact hinv.setTask (held_task ht) rfl
  · rename_i m ht
    cases hs
    exact hend m .unavailable (held_task ht) ModelStatus.noConfusion
  · rename_i m ht
    cases hs
    exact hend m .error (held_task ht) ModelStatus.noConfusion
  · cases hs

theorem inv_beginUnload {b : Bool} (hinv : Inv s) (hok : Careful (.beginUnload t m b) s)
    (hs : beginUnload t m b s = some s') : Inv s' := by
  unfold beginUnload at hs
  split at hs
  · rename_i x ht hx
    dsimp only at hs
    have hslot := slot_of_models hx
    have hav : ∀ y : ModelEntry, y.status = .unavailable → ∀ m' x',
        Function.update s.models m (some y) m' = some x' → x'.status = .available →
          x'.deviceSlot ≠ none := by
      intro y hy m' x' hx' hstatus
      rw [Function.update_apply] at hx'
      split at hx'
      · cases hx'
        rw [hy] at hstatus
        cases hstatus
      · exact hinv.available m' x' hx' hstatus
    split at hs
    · rename_i h hh
      have hb : b = true := hok (by rw [hslot, hh]; exact Option.some_ne_none h)
      subst hb
      cases hs
      refine ⟨?_, hav _ rfl⟩
      have hheld : held s (.slot m) = some h := hslot.trans hh
      apply (hinv.custody.move hheld (held_task ht)).congr _ fun _ => Iff.rfl
      rw [held_setTask, held_setModel]
      rfl
    · rename_i hh
      cases hs
      have hmid : Inv (s.setModel m { x with deviceSlot := none, status := .unavailable }) :=
        hinv.setModel (hslot.trans hh) fun hstatus => by cases hstatus
      exact hmid.setTask (held_task ht) rfl
  · cases hs

theorem inv_release (hinv : Inv s) (hs : release t s = some s') : Inv s' := by
  unfold release at hs
  split at hs
  · rename_i h ht
    cases hs
    refine ⟨?_, hinv.available⟩
    apply (hinv.custody.drop (held_task ht)).congr
    · exact held_setTask
    · intro y
      show y ∈ s.handles.filter (· ≠ h) ↔ _
      rw [List.mem_filter, decide_eq_true_iff]
  · cases hs

theorem inv_setError (hinv : Inv s) (hs : setError m s = some s') : Inv s' := by
  unfold setError at hs
  split at hs
  · cases hs
  · rename_i x hx
    cases hs
    exact hinv.changeModel hx _ rfl fun hstatus => by cases hstatus

theorem inv_chat (hinv : Inv s) (hs : chat m s = some s') : Inv s' := by
  unfold chat at hs
  split at hs
  · cases hs
  · split_ifs at hs
    cases hs
    exact hinv

theorem inv_step (e : Event) (hok : Careful e s) (hinv : Inv s) (hs : step e s = some s') :
    Inv s' := by
  cases e with
  | register m n b => exact inv_register hinv hs
  | beginLoad t m => exact inv_beginLoad hinv hs
  | parseManifest t length => exact inv_parseManifest hinv hs
  | initDevice t res => exact inv_initDevice hinv hok hs
  | storeSlot t => exact inv_storeSlot hinv hok hs
  | publish t => exact inv_publish hinv hok hs
  | endLoad t ok => exact inv_endLoad hinv hs
  | beginUnload t m b => exact inv_beginUnload hinv hok hs
  | release t => exact inv_release hinv hs
  | setError m => exact inv_setError hinv hs
  | chat m => exact inv_chat hinv hs

/-- In runs of careful steps no handle is lost and no model is available without one. -/
theorem handles_tracked (es : List Event) (s : Registry) (hok : Runs.Meets step Careful es start)
    (hrun : Runs.run step es start = some s) : Tracked s := by
  apply Inv.tracked
  apply Runs.run_invariant_of_meets _ inv_start hok hrun
  intro e s s' he hinv hs
  exact inv_step e he hinv hs

/-! ### One model -/

def wholeLoad (t h : ℕ) : List Event :=
  [.beginLoad t 0, .parseManifest t (some 1), .initDevice t (.made h), .storeSlot t, .publish t,
    .endLoad t true]

/-- The model is loaded, unloaded and loaded again. -/
def reload : List Event :=
  .register 0 0 true :: (wholeLoad 0 5 ++ [.chat 0, .beginUnload 1 0 true, .release 1]
    ++ wholeLoad 2 6)

def carefulB : Event → Registry → Bool
  | .initDevice _ (.made h), s => !s.handles.contains h
  | .initDevice _ .refused, _ => true
  | .initDevice _ _, _ => false
  | .storeSlot t, s =>
    match s.tasks t with
    | .inited m _ => (s.slot m).isNone
    | _ => true
  | .publish t, s =>
    match s.tasks t with
    | .stored m => (s.slot m).isSome
    | _ => true
  | .beginUnload _ _ withRuntime, _ => withRuntime
  | _, _ => true

theorem careful_of_check (e : Event) (s : Registry) (_ : True) (hb : carefulB e s = true) :
    Careful e s := by
  cases e with
  | initDevice t res =>
    cases res with
    | made h =>
      show h ∉ s.handles
      simpa [carefulB] using hb
    | refused => trivial
    | failed h => cases hb
    | crashed h => cases hb
  | storeSlot t =>
    intro m h ht
    simpa [carefulB, ht] using hb
  | publish t =>
    intro m ht
    simpa [carefulB, ht, Option.isSome_iff_ne_none] using hb
  | beginUnload t m b => exact fun _ => hb
  | _ => trivial

theorem reload_careful : Runs.Meets step Careful reload start := by
  apply Runs.meets_of_meetsB careful_of_check (fun _ _ _ _ _ => trivial) trivial
  decide

theorem reload_run : (Runs.run step reload start).map (fun s => (s.models 0, s.handles))
    = some (some ⟨.available, 1, true, some 6⟩, [6]) := by
  decide

/-- After the second load the registry holds its handle and no other. -/
theorem reload_tracked : ∃ s, Runs.run step reload start = some s ∧
    s.models 0 = some ⟨.available, 1, true, some 6⟩ ∧ Tracked s := by
  obtain ⟨s, hs, hout⟩ := Option.map_eq_some_iff.mp reload_run
  exact ⟨s, hs, congrArg Prod.fst hout, handles_tracked _ s reload_careful hs⟩

/-- An unload comes between the two sections that end a load. -/
def overtaken : List Event :=
  .register 0 0 true :: ((wholeLoad 0 5).take 4 ++ [.beginUnload 1 0 true, .release 1, .publish 0])

theorem overtaken_run : (Runs.run step overtaken start).map (fun s => (s.models 0, s.handles))
    = some (some ⟨.available, 1, true, none⟩, []) := by
  decide

/-- The model is available and has no slot. -/
theorem overtaken_not_tracked : ¬ ∀ es s, Runs.run step es start = some s → Tracked s := by
  intro h
  obtain ⟨s, hs, hout⟩ := Option.map_eq_some_iff.mp overtaken_run
  have hmodel : s.models 0 = some ⟨.available, 1, true, none⟩ := congrArg Prod.fst hout
  obtain ⟨h', hslot, -⟩ := (h _ s hs).available 0 _ hmodel rfl
  cases hslot

end Gehtp.Analysis.RegistryHandles
