import Mathlib.Data.List.Forall2

/-!
# Checked computations

C code that validates its input either returns a value, returns an error code,
reads outside the memory it was given, or does not return at all. `Checked` is
`Except` over these outcomes, so that an out-of-range access is a result of the
model and its absence a statement about it: `Safe x` says that `x` does not
fault.

The rules below follow the shape of a computation (`pure`, `bind`, a guard, a
loop over a list). Nothing in this file knows which program they are used for.
-/

set_option autoImplicit false

namespace Gehtp.Lib

/-- How a checked computation can end without a value: an error code the caller
sees, an access outside the memory it may touch, or a loop that never ends. -/
inductive Stop (ε : Type) where
  | reject (e : ε)
  | fault
  | hang
  deriving DecidableEq, Repr

/-- A computation that ends with a value or with a `Stop`. -/
abbrev Checked (ε α : Type) : Type := Except (Stop ε) α

variable {ε α β : Type}

/-- Continue if `c` holds, return the error code `e` otherwise. -/
def ensure (c : Prop) [Decidable c] (e : ε) : Checked ε Unit :=
  if c then .ok () else .error (.reject e)

/-- Read one entry of a table; outside of it the access faults. -/
def entryAt (table : List α) (i : ℕ) : Checked ε α :=
  match table[i]? with
  | some a => .ok a
  | none => .error .fault

/-- No access of the computation left its memory. -/
def Safe (x : Checked ε α) : Prop := x ≠ .error .fault

/-- The computation ends. -/
def Ends (x : Checked ε α) : Prop := x ≠ .error .hang

/-- The computation stops at a fault only: it refuses nothing, and it ends. -/
def OnlyFaults (x : Checked ε α) : Prop := ∀ s, x = .error s → s = .fault

theorem bind_eq_ok (x : Checked ε α) (f : α → Checked ε β) (b : β) :
    (x >>= f) = .ok b ↔ ∃ a, x = .ok a ∧ f a = .ok b := by
  cases x with
  | error e => simp [bind, Except.bind]
  | ok a => simp [bind, Except.bind]

theorem map_eq_ok (x : Checked ε α) (f : α → β) (b : β) :
    x.map f = .ok b ↔ ∃ a, x = .ok a ∧ b = f a := by
  cases x with
  | error e => simp [Except.map]
  | ok a => simp [Except.map, eq_comm]

@[simp] theorem ensure_eq_ok (c : Prop) [Decidable c] (e : ε) (u : Unit) :
    ensure c e = .ok u ↔ c := by
  unfold ensure
  split <;> simp_all

theorem ensure_of (c : Prop) [Decidable c] (e : ε) (h : c) : ensure c e = .ok () := by
  simp [h]

@[simp] theorem entryAt_eq_ok (table : List α) (i : ℕ) (a : α) :
    (entryAt table i : Checked ε α) = .ok a ↔ table[i]? = some a := by
  unfold entryAt
  cases h : table[i]? <;> simp

@[simp] theorem safe_ok (a : α) : Safe (.ok a : Checked ε α) := by
  simp [Safe]

@[simp] theorem safe_pure (a : α) : Safe (pure a : Checked ε α) := safe_ok a

@[simp] theorem safe_reject (e : ε) : Safe (.error (.reject e) : Checked ε α) := by
  simp [Safe]

@[simp] theorem safe_ensure (c : Prop) [Decidable c] (e : ε) : Safe (ensure c e) := by
  unfold ensure
  split <;> simp

/-- A sequence is safe when its first half is and its second half is on every
value the first can hand over. -/
theorem safe_bind {x : Checked ε α} {f : α → Checked ε β} (hx : Safe x)
    (hf : ∀ a, x = .ok a → Safe (f a)) : Safe (x >>= f) := by
  cases x with
  | error e =>
    intro h
    apply hx
    simpa [bind, Except.bind] using h
  | ok a => simpa [bind, Except.bind] using hf a rfl

@[simp] theorem ends_ok (a : α) : Ends (.ok a : Checked ε α) := by
  simp [Ends]

@[simp] theorem ends_pure (a : α) : Ends (pure a : Checked ε α) := ends_ok a

@[simp] theorem ends_reject (e : ε) : Ends (.error (.reject e) : Checked ε α) := by
  simp [Ends]

theorem ends_ite {c : Prop} [Decidable c] {x y : Checked ε α} (hx : Ends x) (hy : Ends y) :
    Ends (if c then x else y) := by
  split
  · exact hx
  · exact hy

theorem ends_bind {x : Checked ε α} {f : α → Checked ε β} (hx : Ends x)
    (hf : ∀ a, Ends (f a)) : Ends (x >>= f) := by
  cases x with
  | error e =>
    intro h
    apply hx
    simpa [bind, Except.bind] using h
  | ok a => simpa [bind, Except.bind] using hf a

theorem OnlyFaults.ends {x : Checked ε α} (h : OnlyFaults x) : Ends x := by
  intro he
  cases h _ he

theorem OnlyFaults.eq_ok {x : Checked ε α} (h : OnlyFaults x) (hs : Safe x) : ∃ a, x = .ok a := by
  cases x with
  | ok a => exact ⟨a, rfl⟩
  | error s => exact absurd (by rw [h s rfl]) hs

@[simp] theorem onlyFaults_pure (a : α) : OnlyFaults (pure a : Checked ε α) := by
  intro s h
  cases h

theorem onlyFaults_ite {c : Prop} [Decidable c] {x y : Checked ε α} (hx : OnlyFaults x)
    (hy : OnlyFaults y) : OnlyFaults (if c then x else y) := by
  split
  · exact hx
  · exact hy

theorem onlyFaults_bind {x : Checked ε α} {f : α → Checked ε β} (hx : OnlyFaults x)
    (hf : ∀ a, OnlyFaults (f a)) : OnlyFaults (x >>= f) := by
  cases x with
  | error e =>
    intro s h
    apply hx
    simpa [bind, Except.bind] using h
  | ok a => simpa [bind, Except.bind] using hf a

theorem onlyFaults_map {x : Checked ε α} (f : α → β) (hx : OnlyFaults x) :
    OnlyFaults (x.map f) := by
  cases x with
  | error e =>
    intro s h
    cases h
    exact hx e rfl
  | ok a => exact onlyFaults_pure (f a)

theorem onlyFaults_entryAt (table : List α) (i : ℕ) :
    OnlyFaults (entryAt table i : Checked ε α) := by
  intro s h
  unfold entryAt at h
  split at h
  · cases h
  · cases h
    rfl

theorem onlyFaults_mapM {f : α → Checked ε β} (hf : ∀ x, OnlyFaults (f x)) (l : List α) :
    OnlyFaults (l.mapM f) := by
  induction l with
  | nil => exact onlyFaults_pure []
  | cons x l ih =>
    rw [List.mapM_cons]
    exact onlyFaults_bind (hf x) fun y => onlyFaults_bind ih fun ys => onlyFaults_pure (y :: ys)

theorem safe_entryAt (table : List α) (i : ℕ) (h : i < table.length) :
    Safe (entryAt table i : Checked ε α) := by
  unfold entryAt
  simp [List.getElem?_eq_getElem h]

theorem mapM_eq_ok (f : α → Checked ε β) (l : List α) (ys : List β) :
    l.mapM f = .ok ys ↔ List.Forall₂ (fun x y => f x = .ok y) l ys := by
  induction l generalizing ys with
  | nil =>
    simp only [List.mapM_nil, List.forall₂_nil_left_iff]
    constructor
    · intro h
      cases h
      rfl
    · rintro rfl
      rfl
  | cons x l ih =>
    rw [List.mapM_cons, bind_eq_ok]
    simp only [bind_eq_ok, ih, List.forall₂_cons_left_iff]
    constructor
    · rintro ⟨y, hy, zs, hzs, h⟩
      cases h
      exact ⟨y, zs, hy, hzs, rfl⟩
    · rintro ⟨y, zs, hy, hzs, rfl⟩
      exact ⟨y, hy, zs, hzs, rfl⟩

theorem safe_mapM (f : α → Checked ε β) (l : List α) (h : ∀ x ∈ l, Safe (f x)) :
    Safe (l.mapM f) := by
  induction l with
  | nil => simp
  | cons x l ih =>
    rw [List.mapM_cons]
    refine safe_bind (h x (by simp)) fun y _ => ?_
    refine safe_bind (ih fun z hz => h z (by simp [hz])) fun ys _ => ?_
    simp

theorem forM_eq_ok (f : α → Checked ε Unit) (l : List α) (u : Unit) :
    forM l f = .ok u ↔ ∀ x ∈ l, f x = .ok () := by
  induction l with
  | nil => simp [pure, Except.pure]
  | cons x l ih =>
    rw [List.forM_cons, bind_eq_ok]
    constructor
    · rintro ⟨v, hx, hl⟩
      simpa [hx] using ih.mp hl
    · intro h
      exact ⟨(), h x (by simp), ih.mpr fun z hz => h z (by simp [hz])⟩

theorem safe_forM (f : α → Checked ε Unit) (l : List α) (h : ∀ x ∈ l, Safe (f x)) :
    Safe (forM l f) := by
  induction l with
  | nil => simp
  | cons x l ih =>
    rw [List.forM_cons]
    exact safe_bind (h x (by simp)) fun _ _ => ih fun z hz => h z (by simp [hz])

end Gehtp.Lib
