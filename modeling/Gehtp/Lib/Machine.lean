import Gehtp.Lib.Checked

/-!
# Checked computations over a machine state

`Machine σ ε α` is a checked computation that reads and writes a state `σ`. Unlike
a state transformer over `Except`, it keeps the state it had reached when it stops
with an error, as code with global variables does.

`Ensures m Q` is the postcondition that the handlers of an interpreter need: from
every state, `m` does not fault, and if it returns a value the value satisfies
`Q`. Its rules follow the shape of `m`.
-/

set_option autoImplicit false

namespace Gehtp.Lib

/-- A checked computation over the state `σ`. -/
def Machine (σ ε α : Type) : Type := σ → Checked ε α × σ

namespace Machine

variable {σ ε α β : Type}

/-- Return a value. -/
def ret (a : α) : Machine σ ε α := fun s => (.ok a, s)

/-- Run `m`, then `f` on its value from the state it left. -/
def andThen (m : Machine σ ε α) (f : α → Machine σ ε β) : Machine σ ε β := fun s =>
  match m s with
  | (.ok a, t) => f a t
  | (.error e, t) => (.error e, t)

instance : Monad (Machine σ ε) where
  pure := ret
  bind := andThen

theorem andThen_ret (m : Machine σ ε α) : andThen m ret = m := by
  funext s
  unfold andThen
  rcases m s with ⟨_ | _, t⟩ <;> rfl

theorem andThen_assoc {γ : Type} (m : Machine σ ε α) (f : α → Machine σ ε β)
    (g : β → Machine σ ε γ) :
    andThen (andThen m f) g = andThen m fun a => andThen (f a) g := by
  funext s
  unfold andThen
  rcases m s with ⟨_ | _, t⟩ <;> rfl

instance : LawfulMonad (Machine σ ε) :=
  LawfulMonad.mk' (Machine σ ε) andThen_ret (fun _ _ => rfl) andThen_assoc

/-- Stop with an error code. -/
def reject (e : ε) : Machine σ ε α := fun s => (.error (.reject e), s)

/-- Stop because of an access outside of a table. -/
def fault : Machine σ ε α := fun s => (.error .fault, s)

/-- The loop that runs here never ends. -/
def hang : Machine σ ε α := fun s => (.error .hang, s)

/-- Read a part of the state. -/
def read (f : σ → α) : Machine σ ε α := fun s => (.ok (f s), s)

/-- Change the state. -/
def update (f : σ → σ) : Machine σ ε Unit := fun s => (.ok (), f s)

/-- Continue if `c` holds, stop with the error code `e` otherwise. -/
def guard (c : Prop) [Decidable c] (e : ε) : Machine σ ε Unit := if c then pure () else reject e

/-- Continue if `i` is an index of a table of `n` entries, fault otherwise. -/
def inTable (n i : ℕ) : Machine σ ε Unit := if i < n then pure () else fault

/-- Run `g` on every element of a list and collect the values. -/
def collect (g : β → Machine σ ε α) : List β → Machine σ ε (List α)
  | [] => pure []
  | x :: l => do
    let y ← g x
    let ys ← collect g l
    pure (y :: ys)

/-- `m` does not fault from any state, and a value it returns satisfies `Q`. -/
def Ensures (m : Machine σ ε α) (Q : α → Prop) : Prop :=
  ∀ s, Safe (m s).1 ∧ ∀ a, (m s).1 = .ok a → Q a

/-- `m` faults from the state `s`. -/
def FaultsAt (m : Machine σ ε α) (s : σ) : Prop := (m s).1 = .error .fault

variable {m : Machine σ ε α} {f : α → Machine σ ε β} {Q : α → Prop} {R : β → Prop}

theorem Ensures.not_faultsAt (h : Ensures m Q) (s : σ) : ¬ FaultsAt m s := (h s).1

theorem Ensures.mono {Q' : α → Prop} (h : Ensures m Q) (hQ : ∀ a, Q a → Q' a) :
    Ensures m Q' :=
  fun s => ⟨(h s).1, fun a ha => hQ a ((h s).2 a ha)⟩

theorem ensures_pure {a : α} (h : Q a) : Ensures (pure a : Machine σ ε α) Q := by
  intro s
  refine ⟨safe_ok a, fun b hb => ?_⟩
  cases hb
  exact h

theorem ensures_reject (e : ε) : Ensures (reject e : Machine σ ε α) Q :=
  fun _ => ⟨safe_reject e, fun _ h => by cases h⟩

theorem ensures_hang : Ensures (hang : Machine σ ε α) Q :=
  fun _ => ⟨by simp [hang, Safe], fun _ h => by cases h⟩

theorem ensures_read (g : σ → α) (h : ∀ s, Q (g s)) : Ensures (read g : Machine σ ε α) Q := by
  intro s
  refine ⟨safe_ok _, fun a ha => ?_⟩
  cases ha
  exact h s

theorem ensures_update (g : σ → σ) : Ensures (update g : Machine σ ε Unit) fun _ => True :=
  fun _ => ⟨safe_ok _, fun _ _ => trivial⟩

theorem ensures_bind (hm : Ensures m Q) (hf : ∀ a, Q a → Ensures (f a) R) :
    Ensures (m >>= f) R := by
  intro s
  have hs := hm s
  show Safe (andThen m f s).1 ∧ ∀ b, (andThen m f s).1 = .ok b → R b
  unfold andThen
  rcases hms : m s with ⟨r, t⟩
  rw [hms] at hs
  cases r with
  | ok a => exact hf a (hs.2 a rfl) t
  | error e =>
    refine ⟨fun h => hs.1 ?_, fun b hb => by cases hb⟩
    simpa using h

theorem ensures_guard (c : Prop) [Decidable c] (e : ε) :
    Ensures (guard c e : Machine σ ε Unit) fun _ => c := by
  unfold guard
  split
  · exact ensures_pure ‹c›
  · exact ensures_reject e

theorem ensures_inTable {n i : ℕ} (h : i < n) :
    Ensures (inTable n i : Machine σ ε Unit) fun _ => True := by
  rw [inTable, if_pos h]
  exact ensures_pure trivial

theorem ensures_ite {c : Prop} [Decidable c] {m' : Machine σ ε α} (h : c → Ensures m Q)
    (h' : ¬ c → Ensures m' Q) : Ensures (if c then m else m') Q := by
  split
  · exact h ‹_›
  · exact h' ‹_›

theorem ensures_collect (g : β → Machine σ ε α) (l : List β)
    (h : ∀ x ∈ l, Ensures (g x) fun _ => True) : Ensures (collect g l) fun _ => True := by
  induction l with
  | nil => exact ensures_pure trivial
  | cons x l ih =>
    unfold collect
    refine ensures_bind (h x (by simp)) fun _ _ => ?_
    exact ensures_bind (ih fun y hy => h y (by simp [hy])) fun _ _ => ensures_pure trivial

theorem bind_apply_ok {s t : σ} {a : α} (h : m s = (.ok a, t)) : (m >>= f) s = f a t := by
  show andThen m f s = _
  rw [andThen, h]

theorem bind_apply_error {s t : σ} {e : Stop ε} (h : m s = (.error e, t)) :
    (m >>= f) s = (.error e, t) := by
  show andThen m f s = _
  rw [andThen, h]

theorem read_id_bind (f : σ → Machine σ ε β) (s : σ) : (read id >>= f) s = f s s := rfl

theorem guard_of {c : Prop} [Decidable c] (h : c) (e : ε) (s : σ) :
    (guard c e : Machine σ ε Unit) s = (.ok (), s) := by
  unfold guard
  rw [if_pos h]
  rfl

theorem guard_of_not {c : Prop} [Decidable c] (h : ¬ c) (e : ε) (s : σ) :
    (guard c e : Machine σ ε Unit) s = (.error (.reject e), s) := by
  unfold guard
  rw [if_neg h]
  rfl

theorem of_guard {c : Prop} [Decidable c] {e : ε} {s t : σ} {u : Unit}
    (h : guard c e s = (.ok u, t)) : c := by
  by_contra hc
  rw [guard_of_not hc] at h
  cases h

theorem bind_eq_ok {s u : σ} {b : β} (h : (m >>= f) s = (.ok b, u)) :
    ∃ a t, m s = (.ok a, t) ∧ f a t = (.ok b, u) := by
  change andThen m f s = (.ok b, u) at h
  unfold andThen at h
  rcases hm : m s with ⟨r, t⟩
  rw [hm] at h
  cases r with
  | ok a => exact ⟨a, t, rfl, h⟩
  | error e => cases h

/-! ### Two machines in step -/

section Agree

variable {R : σ → σ → Prop} {m₁ m₂ : Machine σ ε α} {f₁ f₂ : α → Machine σ ε β}

/-- From related states the two computations end in related states, with the same value or
both without one. -/
def Agree (R : σ → σ → Prop) (m₁ m₂ : Machine σ ε α) : Prop :=
  ∀ s t, R s t → R (m₁ s).2 (m₂ t).2 ∧ ∀ a, (m₁ s).1 = .ok a ↔ (m₂ t).1 = .ok a

theorem agree_pure (a : α) : Agree R (pure a : Machine σ ε α) (pure a) :=
  fun _ _ h => ⟨h, fun _ => Iff.rfl⟩

theorem agree_reject (e₁ e₂ : ε) : Agree R (reject e₁ : Machine σ ε α) (reject e₂) :=
  fun _ _ h => ⟨h, fun _ => iff_of_false (by simp [reject]) (by simp [reject])⟩

theorem agree_hang : Agree R (hang : Machine σ ε α) hang := fun _ _ h => ⟨h, fun _ => Iff.rfl⟩

theorem agree_inTable (n i : ℕ) : Agree R (inTable n i : Machine σ ε Unit) (inTable n i) := by
  unfold inTable
  split
  · exact agree_pure ()
  · exact fun _ _ h => ⟨h, fun _ => Iff.rfl⟩

theorem agree_update {g : σ → σ} (h : ∀ s t, R s t → R (g s) (g t)) :
    Agree R (update g : Machine σ ε Unit) (update g) :=
  fun s t hst => ⟨h s t hst, fun _ => Iff.rfl⟩

theorem agree_bind (hm : Agree R m₁ m₂) (hf : ∀ a, Agree R (f₁ a) (f₂ a)) :
    Agree R (m₁ >>= f₁) (m₂ >>= f₂) := by
  intro s t hst
  obtain ⟨hR, hval⟩ := hm s t hst
  show R (andThen m₁ f₁ s).2 (andThen m₂ f₂ t).2 ∧
    ∀ b, (andThen m₁ f₁ s).1 = .ok b ↔ (andThen m₂ f₂ t).1 = .ok b
  unfold andThen
  rcases h₁ : m₁ s with ⟨r₁, s'⟩
  rcases h₂ : m₂ t with ⟨r₂, t'⟩
  rw [h₁, h₂] at hR hval
  cases r₁ with
  | ok a =>
    have hr₂ : r₂ = .ok a := (hval a).mp rfl
    subst hr₂
    exact hf a s' t' hR
  | error e =>
    cases r₂ with
    | ok a => exact absurd ((hval a).mpr rfl) (by simp)
    | error e' => exact ⟨hR, fun b => by simp⟩

theorem agree_read_bind {g : σ → α} (h : ∀ s t, R s t → Agree R (f₁ (g s)) (f₂ (g t))) :
    Agree R (read g >>= f₁) (read g >>= f₂) := fun s t hst => h s t hst s t hst

theorem agree_read {g : σ → α} (h : ∀ s t, R s t → g s = g t) :
    Agree R (read g : Machine σ ε α) (read g) := by
  intro s t hst
  refine ⟨hst, fun a => ?_⟩
  simp [read, h s t hst]

end Agree

/-! ### What a machine leaves alone -/

section Keeps

/-- The part `f` of the state is the same afterwards, also when the computation stops. It is a
class so that it is found by the shape of a computation. -/
class Keeps {γ : Type} (f : σ → γ) (m : Machine σ ε α) : Prop where
  keeps : ∀ s, f (m s).2 = f s

variable {γ : Type} {g : σ → γ}

theorem Keeps.apply (m : Machine σ ε α) [Keeps g m] {s t : σ} {r : Checked ε α} (h : m s = (r, t)) :
    g t = g s := by
  have hk := Keeps.keeps (f := g) (m := m) s
  rw [h] at hk
  exact hk

instance keeps_pure (a : α) : Keeps g (pure a : Machine σ ε α) := ⟨fun _ => rfl⟩

instance keeps_reject (e : ε) : Keeps g (reject e : Machine σ ε α) := ⟨fun _ => rfl⟩

instance keeps_fault : Keeps g (fault : Machine σ ε α) := ⟨fun _ => rfl⟩

instance keeps_hang : Keeps g (hang : Machine σ ε α) := ⟨fun _ => rfl⟩

instance keeps_read (h : σ → α) : Keeps g (read h : Machine σ ε α) := ⟨fun _ => rfl⟩

theorem keeps_update {u : σ → σ} (h : ∀ s, g (u s) = g s) :
    Keeps g (update u : Machine σ ε Unit) := ⟨h⟩

instance keeps_bind (m : Machine σ ε α) (f : α → Machine σ ε β) [Keeps g m]
    [∀ a, Keeps g (f a)] : Keeps g (m >>= f) where
  keeps s := by
    have hm := Keeps.keeps (f := g) (m := m) s
    show g (andThen m f s).2 = g s
    unfold andThen
    rcases hms : m s with ⟨r, t⟩
    rw [hms] at hm
    cases r with
    | ok a => exact (Keeps.keeps (m := f a) t).trans hm
    | error e => exact hm

theorem Keeps.seq {m : Machine σ ε α} {f : α → Machine σ ε β} (hm : Keeps g m)
    (hf : ∀ a, Keeps g (f a)) : Keeps g (m >>= f) :=
  keeps_bind m f

instance keeps_ite (c : Prop) [Decidable c] (m m' : Machine σ ε α) [Keeps g m] [Keeps g m'] :
    Keeps g (if c then m else m') := by
  split <;> infer_instance

instance keeps_guard (c : Prop) [Decidable c] (e : ε) :
    Keeps g (guard c e : Machine σ ε Unit) := by
  unfold guard
  infer_instance

instance keeps_inTable (n i : ℕ) : Keeps g (inTable n i : Machine σ ε Unit) := by
  unfold inTable
  infer_instance

instance keeps_collect_nil (h : β → Machine σ ε α) : Keeps g (collect h []) := keeps_pure []

instance keeps_collect_cons (h : β → Machine σ ε α) (x : β) (l : List β) [Keeps g (h x)]
    [Keeps g (collect h l)] : Keeps g (collect h (x :: l)) := by
  unfold collect
  infer_instance

instance keeps_collect (h : β → Machine σ ε α) (l : List β) [∀ x, Keeps g (h x)] :
    Keeps g (collect h l) := by
  induction l with
  | nil => exact keeps_collect_nil h
  | cons x l ih => exact keeps_collect_cons h x l

theorem Keeps.fst {δ : Type} {h : σ → δ} {m : Machine σ ε α} (hm : Keeps (fun s => (g s, h s)) m) :
    Keeps g m :=
  ⟨fun s => congrArg Prod.fst (hm.keeps s)⟩

theorem Keeps.snd {δ : Type} {h : σ → δ} {m : Machine σ ε α} (hm : Keeps (fun s => (g s, h s)) m) :
    Keeps h m :=
  ⟨fun s => congrArg Prod.snd (hm.keeps s)⟩

/-- A computation that stops has left the part `f` alone. -/
class KeepsOnStop {γ : Type} (f : σ → γ) (m : Machine σ ε α) : Prop where
  keeps : ∀ s e, (m s).1 = .error e → f (m s).2 = f s

instance (priority := low) keepsOnStop_of_keeps (m : Machine σ ε α) [Keeps g m] :
    KeepsOnStop g m :=
  ⟨fun s _ _ => Keeps.keeps s⟩

instance keepsOnStop_update (u : σ → σ) : KeepsOnStop g (update u : Machine σ ε Unit) :=
  ⟨fun _ _ h => nomatch h⟩

/-- Only the last step may change the part. -/
instance keepsOnStop_bind (m : Machine σ ε α) (f : α → Machine σ ε β) [Keeps g m]
    [∀ a, KeepsOnStop g (f a)] : KeepsOnStop g (m >>= f) where
  keeps s e he := by
    have hm := Keeps.keeps (f := g) (m := m) s
    change (andThen m f s).1 = .error e at he
    show g (andThen m f s).2 = g s
    unfold andThen at he ⊢
    rcases hms : m s with ⟨r, t⟩
    rw [hms] at hm he
    cases r with
    | ok a => exact (KeepsOnStop.keeps (m := f a) t e he).trans hm
    | error e => exact hm

theorem KeepsOnStop.seq {m : Machine σ ε α} {f : α → Machine σ ε β} (hm : Keeps g m)
    (hf : ∀ a, KeepsOnStop g (f a)) : KeepsOnStop g (m >>= f) :=
  keepsOnStop_bind m f

instance keepsOnStop_ite (c : Prop) [Decidable c] (m m' : Machine σ ε α) [KeepsOnStop g m]
    [KeepsOnStop g m'] : KeepsOnStop g (if c then m else m') := by
  split <;> infer_instance

end Keeps

end Machine

end Gehtp.Lib

/-!
## Calls that return

`Returns m s Q E` says of a call `m` in the state `s`: it ends, without a fault, and either it
returns a value with `Q` of the value and the new state, or it returns an error code with `E` of
the new state. The rules follow the shape of the call, so that what a long call does is put
together from what its parts do.
-/

namespace Gehtp.Lib.Machine

variable {σ ε α β : Type}

/-- The call returns a value with `Q`, or an error code with `E`. -/
def Returns (m : Machine σ ε α) (s : σ) (Q : α → σ → Prop) (E : σ → Prop) : Prop :=
  (∃ a t, m s = (.ok a, t) ∧ Q a t) ∨ ∃ e t, m s = (.error (.reject e), t) ∧ E t

variable {m : Machine σ ε α} {f : α → Machine σ ε β} {s : σ} {Q : α → σ → Prop}
  {R : β → σ → Prop} {E : σ → Prop}

theorem returns_of_eq {a : α} {t : σ} (h : m s = (.ok a, t)) (hq : Q a t) : Returns m s Q E :=
  .inl ⟨a, t, h, hq⟩

theorem returns_pure {a : α} (h : Q a s) : Returns (pure a : Machine σ ε α) s Q E :=
  returns_of_eq rfl h

theorem returns_reject (e : ε) (h : E s) : Returns (reject e : Machine σ ε α) s Q E :=
  .inr ⟨e, s, rfl, h⟩

theorem returns_update {g : σ → σ} {Q : Unit → σ → Prop} (h : Q () (g s)) :
    Returns (update g : Machine σ ε Unit) s Q E :=
  returns_of_eq rfl h

theorem returns_guard {c : Prop} [Decidable c] (e : ε) {Q : Unit → σ → Prop} (hc : c → Q () s)
    (he : ¬ c → E s) : Returns (guard c e : Machine σ ε Unit) s Q E := by
  by_cases h : c
  · exact returns_of_eq (guard_of h e s) (hc h)
  · exact .inr ⟨e, s, guard_of_not h e s, he h⟩

theorem returns_bind (h : Returns m s Q E) (hf : ∀ a t, Q a t → Returns (f a) t R E) :
    Returns (m >>= f) s R E := by
  cases h with
  | inl hok =>
    obtain ⟨a, t, hm, hq⟩ := hok
    unfold Returns
    rw [bind_apply_ok hm]
    exact hf a t hq
  | inr herr =>
    obtain ⟨e, t, hm, he⟩ := herr
    exact .inr ⟨e, t, bind_apply_error hm, he⟩

theorem returns_read_bind {f : σ → Machine σ ε β} (h : Returns (f s) s R E) :
    Returns (read id >>= f) s R E := by
  unfold Returns
  rw [read_id_bind]
  exact h

theorem Returns.mono {Q' : α → σ → Prop} {E' : σ → Prop} (h : Returns m s Q E)
    (hq : ∀ a t, Q a t → Q' a t) (he : ∀ t, E t → E' t) : Returns m s Q' E' := by
  cases h with
  | inl hok =>
    obtain ⟨a, t, hm, h⟩ := hok
    exact .inl ⟨a, t, hm, hq a t h⟩
  | inr herr =>
    obtain ⟨e, t, hm, h⟩ := herr
    exact .inr ⟨e, t, hm, he t h⟩

end Gehtp.Lib.Machine
