import Mathlib.Logic.Basic

/-!
# Runs of a step function

A system is given by what each action does to a state; an action that is not enabled has no
result. A run takes actions one after the other. What every step keeps holds at the end of every
run, and a state is reached from another one if some run leads to it.
-/

set_option autoImplicit false

namespace Gehtp.Lib.Runs

variable {σ α : Type} {step : α → σ → Option σ}

/-- Take the actions one after the other. -/
def run (step : α → σ → Option σ) : List α → σ → Option σ
  | [], s => some s
  | a :: acts, s => (step a s).bind (run step acts)

theorem run_append (acts acts' : List α) (s : σ) :
    run step (acts ++ acts') s = (run step acts s).bind (run step acts') := by
  induction acts generalizing s with
  | nil => rfl
  | cons a acts ih =>
    show (step a s).bind (run step (acts ++ acts')) = ((step a s).bind (run step acts)).bind _
    cases step a s with
    | none => rfl
    | some s' => exact ih s'

theorem run_invariant {I : σ → Prop} (hstep : ∀ a s s', I s → step a s = some s' → I s')
    {acts : List α} {s s' : σ} (hs : I s) (h : run step acts s = some s') : I s' := by
  induction acts generalizing s with
  | nil =>
    cases h
    exact hs
  | cons a acts ih =>
    obtain ⟨s₁, h₁, h₂⟩ := Option.bind_eq_some_iff.mp h
    exact ih (hstep a s s₁ hs h₁) h₂

/-- Each action of the run meets the condition in the state where it is taken. -/
def Meets (step : α → σ → Option σ) (C : α → σ → Prop) : List α → σ → Prop
  | [], _ => True
  | a :: acts, s => C a s ∧ ∀ s', step a s = some s' → Meets step C acts s'

theorem meets_of_forall {C : α → σ → Prop} {acts : List α} (h : ∀ a ∈ acts, ∀ s, C a s) (s : σ) :
    Meets step C acts s := by
  induction acts generalizing s with
  | nil => trivial
  | cons a acts ih =>
    refine ⟨h a List.mem_cons_self s, fun s' _ => ?_⟩
    exact ih (fun b hb => h b (List.mem_cons_of_mem a hb)) s'

/-- A run goes on where another one ended. -/
theorem meets_append {C : α → σ → Prop} {acts acts' : List α} {s : σ} (h : Meets step C acts s)
    (h' : ∀ s', run step acts s = some s' → Meets step C acts' s') :
    Meets step C (acts ++ acts') s := by
  induction acts generalizing s with
  | nil => exact h' s rfl
  | cons a acts ih =>
    refine ⟨h.1, fun s₁ h₁ => ih (h.2 s₁ h₁) fun s' hrun => h' s' ?_⟩
    exact Option.bind_eq_some_iff.mpr ⟨s₁, h₁, hrun⟩

/-- The condition checked along the run. -/
def meetsB (step : α → σ → Option σ) (c : α → σ → Bool) : List α → σ → Bool
  | [], _ => true
  | a :: acts, s =>
    c a s && match step a s with
      | none => true
      | some s' => meetsB step c acts s'

theorem meets_of_meetsB {I : σ → Prop} {C : α → σ → Prop} {c : α → σ → Bool}
    (hc : ∀ a s, I s → c a s = true → C a s) (hstep : ∀ a s s', I s → step a s = some s' → I s')
    {acts : List α} {s : σ} (hs : I s) (h : meetsB step c acts s = true) :
    Meets step C acts s := by
  induction acts generalizing s with
  | nil => trivial
  | cons a acts ih =>
    unfold meetsB at h
    obtain ⟨ha, hrest⟩ := Bool.and_eq_true_iff.mp h
    refine ⟨hc a s hs ha, fun s' hs' => ?_⟩
    rw [hs'] at hrest
    exact ih (hstep a s s' hs hs') hrest

theorem run_invariant_of_meets {I : σ → Prop} {C : α → σ → Prop}
    (hstep : ∀ a s s', C a s → I s → step a s = some s' → I s') {acts : List α} {s s' : σ}
    (hs : I s) (hC : Meets step C acts s) (h : run step acts s = some s') : I s' := by
  induction acts generalizing s with
  | nil =>
    cases h
    exact hs
  | cons a acts ih =>
    obtain ⟨s₁, h₁, h₂⟩ := Option.bind_eq_some_iff.mp h
    exact ih (hstep a s s₁ hC.1 hs h₁) (hC.2 s₁ h₁) h₂

/-- If actions of a kind are enabled whenever `I` holds, and keep it, then runs of such actions go
through. -/
theorem run_total {I : σ → Prop} {C : α → Prop}
    (hstep : ∀ a s, C a → I s → ∃ s', step a s = some s' ∧ I s') {acts : List α}
    (hacts : ∀ a ∈ acts, C a) {s : σ} (hs : I s) : ∃ s', run step acts s = some s' ∧ I s' := by
  induction acts generalizing s with
  | nil => exact ⟨s, rfl, hs⟩
  | cons a acts ih =>
    obtain ⟨s₁, h₁, hs₁⟩ := hstep a s (hacts a List.mem_cons_self) hs
    obtain ⟨s₂, h₂, hs₂⟩ := ih (fun b hb => hacts b (List.mem_cons_of_mem a hb)) hs₁
    refine ⟨s₂, ?_, hs₂⟩
    show (step a s).bind (run step acts) = some s₂
    rw [h₁]
    exact h₂

/-- Along a run of actions that are always possible, each action and the state it is taken in are
related so. -/
def Along (step : α → σ → σ) (Q : α → σ → Prop) : List α → σ → Prop
  | [], _ => True
  | a :: acts, s => Q a s ∧ Along step Q acts (step a s)

/-- If under an invariant a condition on an action says exactly that the action does what it should,
and such actions keep the invariant, then a run whose actions all do so is one whose actions all meet
the condition. -/
theorem along_iff {step : α → σ → σ} {I : σ → Prop} {C Q : α → σ → Prop}
    (hiff : ∀ a s, I s → (Q a s ↔ C a s)) (hstep : ∀ a s, I s → Q a s → I (step a s))
    {acts : List α} {s : σ} (hs : I s) : Along step Q acts s ↔ Along step C acts s := by
  induction acts generalizing s with
  | nil => exact Iff.rfl
  | cons a acts ih =>
    constructor
    · rintro ⟨hQ, hrest⟩
      exact ⟨(hiff a s hs).mp hQ, (ih (hstep a s hs hQ)).mp hrest⟩
    · rintro ⟨hC, hrest⟩
      have hQ := (hiff a s hs).mpr hC
      exact ⟨hQ, (ih (hstep a s hs hQ)).mpr hrest⟩

/-- Some run leads from `s` to `s'`. -/
def Reaches (step : α → σ → Option σ) (s s' : σ) : Prop := ∃ acts, run step acts s = some s'

theorem Reaches.refl (s : σ) : Reaches step s s := ⟨[], rfl⟩

theorem Reaches.trans {s s' s'' : σ} (h : Reaches step s s') (h' : Reaches step s' s'') :
    Reaches step s s'' := by
  obtain ⟨acts, hacts⟩ := h
  obtain ⟨acts', hacts'⟩ := h'
  refine ⟨acts ++ acts', ?_⟩
  rw [run_append, hacts]
  exact hacts'

theorem Reaches.head {a : α} {s s' s'' : σ} (h : step a s = some s') (h' : Reaches step s' s'') :
    Reaches step s s'' := by
  obtain ⟨acts, hacts⟩ := h'
  refine ⟨a :: acts, ?_⟩
  show (step a s).bind (run step acts) = some s''
  rw [h]
  exact hacts

theorem Reaches.single {a : α} {s s' : σ} (h : step a s = some s') : Reaches step s s' :=
  .head h (.refl s')

theorem Reaches.invariant {I : σ → Prop} (hstep : ∀ a s s', I s → step a s = some s' → I s')
    {s s' : σ} (hs : I s) (h : Reaches step s s') : I s' := by
  obtain ⟨acts, hacts⟩ := h
  exact run_invariant hstep hs hacts

end Gehtp.Lib.Runs
