import Mathlib.Data.List.Nodup
import Mathlib.Order.Nat

/-!
# Registers on loan

A desk hands numbered registers to owners and takes them back; a returned register goes
on a stack and is handed out again first. A log lists, step by step, which register was
used for which owner. If every use in the log is by the owner of that time, and no owner
gets the same register twice, then between two uses of a register for one owner the
register is used for nobody else.
-/

set_option autoImplicit false

namespace Gehtp.Lib.Lease

variable {κ : Type} [DecidableEq κ]

/-- Who holds which register, the returned registers with the last one first, and the
first register that was never handed out. -/
structure Desk (κ : Type) where
  own : κ → Option ℕ
  free : List ℕ
  next : ℕ

namespace Desk

/-- The desk before the first loan. -/
def new : Desk κ := ⟨fun _ => none, [], 0⟩

/-- The register that is handed out next. -/
def taken (d : Desk κ) : ℕ := d.free.headD d.next

/-- Hand out a register to `k`. -/
def acquire (d : Desk κ) (k : κ) : Desk κ where
  own := Function.update d.own k (some d.taken)
  free := d.free.tail
  next := if d.free = [] then d.next + 1 else d.next

/-- Take back the register of `k`, if it has one. -/
def release (d : Desk κ) (k : κ) : Desk κ :=
  match d.own k with
  | none => d
  | some t => { d with own := Function.update d.own k none, free := t :: d.free }

/-- No register has two owners or is free and owned. -/
structure Wf (d : Desk κ) : Prop where
  own_inj : ∀ k k' t, d.own k = some t → d.own k' = some t → k = k'
  own_notMem : ∀ k t, d.own k = some t → t ∉ d.free
  own_lt : ∀ k t, d.own k = some t → t < d.next
  free_nodup : d.free.Nodup
  free_lt : ∀ t ∈ d.free, t < d.next

variable {d : Desk κ}

theorem acquire_own_self (d : Desk κ) (k : κ) : (d.acquire k).own k = some d.taken := by
  simp [acquire]

theorem acquire_own_of_ne {k k' : κ} (h : k' ≠ k) : (d.acquire k).own k' = d.own k' := by
  simp [acquire, Function.update_of_ne h]

theorem next_le_acquire (d : Desk κ) (k : κ) : d.next ≤ (d.acquire k).next := by
  simp only [acquire]
  split <;> omega

theorem release_own {k k' : κ} {t : ℕ} (h : (d.release k).own k' = some t) :
    d.own k' = some t := by
  unfold release at h
  split at h
  · exact h
  · rename_i t' _
    by_cases hk : k' = k
    · subst hk
      simp at h
    · simpa [Function.update_of_ne hk] using h

theorem release_next (d : Desk κ) (k : κ) : (d.release k).next = d.next := by
  unfold release
  split <;> rfl

theorem mem_release_free {k : κ} {t : ℕ} (h : t ∈ (d.release k).free) :
    t ∈ d.free ∨ d.own k = some t := by
  unfold release at h
  split at h
  · exact .inl h
  · rename_i t' hown
    rcases List.mem_cons.mp h with rfl | h
    · exact .inr hown
    · exact .inl h

theorem mem_acquire_free {k : κ} {t : ℕ} (h : t ∈ (d.acquire k).free) : t ∈ d.free :=
  List.mem_of_mem_tail h

omit [DecidableEq κ] in
theorem wf_new : Wf (new : Desk κ) where
  own_inj := by simp [new]
  own_notMem := by simp [new]
  own_lt := by simp [new]
  free_nodup := List.nodup_nil
  free_lt := by simp [new]

theorem Wf.taken_spec (h : Wf d) :
    (∀ k, d.own k ≠ some d.taken) ∧ d.taken ∉ d.free.tail ∧
      ∀ k : κ, d.taken < (d.acquire k).next := by
  cases hf : d.free with
  | nil =>
    have ht : d.taken = d.next := by simp [taken, hf]
    refine ⟨fun k hk => ?_, by simp, fun k => by simp [acquire, hf, ht]⟩
    have := h.own_lt k _ hk
    omega
  | cons t rest =>
    have ht : d.taken = t := by simp [taken, hf]
    have hnd := h.free_nodup
    rw [hf, List.nodup_cons] at hnd
    refine ⟨fun k hk => ?_, by simpa [ht] using hnd.1, fun k => ?_⟩
    · apply h.own_notMem k _ hk
      simp [hf, ht]
    · have := h.free_lt t (by simp [hf])
      simp only [acquire, hf, ht]
      split <;> omega

theorem Wf.acquire (h : Wf d) (k : κ) : Wf (d.acquire k) := by
  obtain ⟨hown, hfree, hlt⟩ := h.taken_spec
  constructor
  · intro k₁ k₂ t h₁ h₂
    by_cases e₁ : k₁ = k <;> by_cases e₂ : k₂ = k
    · rw [e₁, e₂]
    · rw [e₁, acquire_own_self] at h₁
      rw [acquire_own_of_ne e₂, ← h₁] at h₂
      exact absurd h₂ (hown k₂)
    · rw [e₂, acquire_own_self] at h₂
      rw [acquire_own_of_ne e₁, ← h₂] at h₁
      exact absurd h₁ (hown k₁)
    · rw [acquire_own_of_ne e₁] at h₁
      rw [acquire_own_of_ne e₂] at h₂
      exact h.own_inj k₁ k₂ t h₁ h₂
  · intro k' t hk' hmem
    by_cases e : k' = k
    · rw [e, acquire_own_self] at hk'
      obtain rfl := Option.some.inj hk'
      exact hfree hmem
    · rw [acquire_own_of_ne e] at hk'
      exact h.own_notMem k' t hk' (mem_acquire_free hmem)
  · intro k' t hk'
    by_cases e : k' = k
    · rw [e, acquire_own_self] at hk'
      rw [← Option.some.inj hk']
      exact hlt k
    · rw [acquire_own_of_ne e] at hk'
      exact (h.own_lt k' t hk').trans_le (next_le_acquire d k)
  · exact h.free_nodup.sublist (List.tail_sublist _)
  · intro t ht
    exact (h.free_lt t (mem_acquire_free ht)).trans_le (next_le_acquire d k)

theorem Wf.release (h : Wf d) (k : κ) : Wf (d.release k) := by
  constructor
  · intro k₁ k₂ t h₁ h₂
    exact h.own_inj k₁ k₂ t (release_own h₁) (release_own h₂)
  · intro k' t hk' hmem
    rcases mem_release_free hmem with hmem | hk
    · exact h.own_notMem k' t (release_own hk') hmem
    · obtain rfl := h.own_inj k' k t (release_own hk') hk
      simp [Desk.release, hk] at hk'
  · intro k' t hk'
    rw [release_next]
    exact h.own_lt k' t (release_own hk')
  · cases hk : d.own k with
    | none => simpa [Desk.release, hk] using h.free_nodup
    | some t =>
      simp only [Desk.release, hk, List.nodup_cons]
      exact ⟨h.own_notMem k t hk, h.free_nodup⟩
  · intro t ht
    rw [release_next]
    rcases mem_release_free ht with ht | hk
    · exact h.free_lt t ht
    · exact h.own_lt k t hk

end Desk

/-- Step `j` of the log uses the register `t` for the owner `k`. -/
def Uses (log : List (List (ℕ × κ))) (j t : ℕ) (k : κ) : Prop :=
  ∃ us, log[j]? = some us ∧ (t, k) ∈ us

/-- What a log of uses by the owners of the time satisfies. -/
structure LogInv (d : Desk κ) (log : List (List (ℕ × κ))) : Prop where
  lt : ∀ j t k, Uses log j t k → t < d.next
  current : ∀ w j t k k', d.own k = some t → w ≤ j → Uses log w t k → Uses log j t k' → k' = k
  exclusive : ∀ w j r t k k', w ≤ j → j ≤ r → Uses log w t k → Uses log j t k' →
    Uses log r t k → k' = k

namespace LogInv

variable {d : Desk κ} {log : List (List (ℕ × κ))}

omit [DecidableEq κ] in
theorem nil : LogInv (Desk.new : Desk κ) [] where
  lt := by simp [Uses]
  current := by simp [Uses]
  exclusive := by simp [Uses]

omit [DecidableEq κ] in
theorem uses_concat {us : List (ℕ × κ)} {j t : ℕ} {k : κ} (h : Uses (log ++ [us]) j t k) :
    Uses log j t k ∨ (j = log.length ∧ (t, k) ∈ us) := by
  obtain ⟨vs, hvs, hmem⟩ := h
  rcases Nat.lt_trichotomy j log.length with hj | hj | hj
  · rw [List.getElem?_append_left hj] at hvs
    exact .inl ⟨vs, hvs, hmem⟩
  · subst hj
    rw [List.getElem?_concat_length] at hvs
    obtain rfl := Option.some.inj hvs
    exact .inr ⟨rfl, hmem⟩
  · rw [List.getElem?_eq_none (by simp; omega)] at hvs
    cases hvs

omit [DecidableEq κ] in
theorem uses_lt {j t : ℕ} {k : κ} (h : Uses log j t k) : j < log.length := by
  obtain ⟨us, hus, -⟩ := h
  exact (List.getElem?_eq_some_iff.mp hus).1

omit [DecidableEq κ] in
theorem concat (h : LogInv d log) (hd : d.Wf) {us : List (ℕ × κ)}
    (hus : ∀ p ∈ us, d.own p.2 = some p.1) : LogInv d (log ++ [us]) := by
  have hcurrent : ∀ w j t k k', d.own k = some t → w ≤ j → Uses (log ++ [us]) w t k →
      Uses (log ++ [us]) j t k' → k' = k := by
    intro w j t k k' hk hwj hw hj
    rcases uses_concat hj with hj | ⟨-, hmem⟩
    · rcases uses_concat hw with hw | ⟨rfl, -⟩
      · exact h.current w j t k k' hk hwj hw hj
      · have := uses_lt hj
        omega
    · exact hd.own_inj k' k t (hus _ hmem) hk
  constructor
  · intro j t k hj
    rcases uses_concat hj with hj | ⟨-, hmem⟩
    · exact h.lt j t k hj
    · exact hd.own_lt k t (hus _ hmem)
  · exact hcurrent
  · intro w j r t k k' hwj hjr hw hj hr
    rcases uses_concat hr with hr | ⟨rfl, hmem⟩
    · rcases uses_concat hj with hj | ⟨rfl, -⟩
      · rcases uses_concat hw with hw | ⟨rfl, -⟩
        · exact h.exclusive w j r t k k' hwj hjr hw hj hr
        · have := uses_lt hr
          omega
      · have := uses_lt hr
        omega
    · exact hcurrent w j t k k' (hus _ hmem) hwj hw hj

theorem acquire (h : LogInv d log) {k : κ} (hnew : ∀ j, ¬ Uses log j d.taken k) :
    LogInv (d.acquire k) log where
  lt := fun j t k' hj => (h.lt j t k' hj).trans_le (Desk.next_le_acquire d k)
  current := by
    intro w j t k₁ k₂ hk₁ hwj hw hj
    by_cases e : k₁ = k
    · subst e
      rw [Desk.acquire_own_self] at hk₁
      obtain rfl := Option.some.inj hk₁
      exact absurd hw (hnew w)
    · rw [Desk.acquire_own_of_ne e] at hk₁
      exact h.current w j t k₁ k₂ hk₁ hwj hw hj
  exclusive := h.exclusive

theorem release (h : LogInv d log) (k : κ) : LogInv (d.release k) log where
  lt := fun j t k' hj => by
    rw [Desk.release_next]
    exact h.lt j t k' hj
  current := fun w j t k₁ k₂ hk₁ => h.current w j t k₁ k₂ (Desk.release_own hk₁)
  exclusive := h.exclusive

end LogInv

end Gehtp.Lib.Lease
