import Mathlib.Data.List.Nodup
import Mathlib.Data.List.Range

/-!
# Maps and memories as functions

A finite map and a memory are both functions that are changed at some of their arguments.
-/

set_option autoImplicit false

/-!
## Finite maps as functions

A map with natural-number keys is a function to `Option`; a run of insertions is
`store`. A key that is inserted once is found with its value, and a key that is
not inserted keeps what it had.
-/

namespace Gehtp.Lib

variable {β : Type}

/-- Insert the pairs one after the other. -/
def store (m : ℕ → Option β) (kvs : List (ℕ × β)) : ℕ → Option β :=
  kvs.foldl (fun m kv => Function.update m kv.1 (some kv.2)) m

@[simp] theorem store_nil (m : ℕ → Option β) : store m [] = m := rfl

theorem store_append (m : ℕ → Option β) (l l' : List (ℕ × β)) :
    store m (l ++ l') = store (store m l) l' := by
  simp [store]

theorem store_of_notMem (m : ℕ → Option β) (l : List (ℕ × β)) (k : ℕ)
    (h : k ∉ l.map Prod.fst) : store m l k = m k := by
  induction l generalizing m with
  | nil => rfl
  | cons kv l ih =>
    have hne : k ≠ kv.1 := fun he => h (by simp [he])
    have hl : k ∉ l.map Prod.fst := fun hk =>
      h (by simp only [List.map_cons, List.mem_cons, hk, or_true])
    show store (Function.update m kv.1 (some kv.2)) l k = m k
    rw [ih _ hl, Function.update_of_ne hne]

theorem store_of_mem (m : ℕ → Option β) (l : List (ℕ × β)) (hl : (l.map Prod.fst).Nodup)
    (k : ℕ) (v : β) (h : (k, v) ∈ l) : store m l k = some v := by
  induction l generalizing m with
  | nil => simp at h
  | cons kv l ih =>
    rw [List.map_cons, List.nodup_cons] at hl
    rcases List.mem_cons.mp h with rfl | h
    · show store (Function.update m k (some v)) l k = some v
      rw [store_of_notMem _ _ _ hl.1, Function.update_self]
    · exact ih _ hl.2 h

theorem mem_of_store {l : List (ℕ × β)} {k : ℕ} {v : β}
    (h : store (fun _ => none) l k = some v) : (k, v) ∈ l := by
  induction l using List.reverseRecOn with
  | nil => simp at h
  | append_singleton l kv ih =>
    rw [store_append] at h
    change Function.update (store (fun _ => none) l) kv.1 (some kv.2) k = some v at h
    by_cases hk : k = kv.1
    · subst hk
      rw [Function.update_self] at h
      simp [← Option.some.inj h]
    · rw [Function.update_of_ne hk] at h
      exact List.mem_append_left _ (ih h)

end Gehtp.Lib

/-!
## Runs of memory cells

A memory is a function from addresses to cells. `copyTo` puts a run of cells somewhere, as
`memcpy` does, and `cells` reads one. A run that was just copied is read back, and a run that
lies apart from the target of a copy is what it was.
-/

namespace Gehtp.Lib.Memory

variable {α : Type}

/-- The memory after the first `n` cells of `src` were copied to `a`. -/
def copyTo (mem : ℕ → α) (a : ℕ) (src : ℕ → α) (n : ℕ) : ℕ → α := fun x =>
  if a ≤ x ∧ x < a + n then src (x - a) else mem x

/-- The `n` cells from `a` on. -/
def cells (mem : ℕ → α) (a n : ℕ) : List α := (List.range n).map fun i => mem (a + i)

theorem cells_eq_iff {mem mem' : ℕ → α} {a b n : ℕ} :
    cells mem a n = cells mem' b n ↔ ∀ i < n, mem (a + i) = mem' (b + i) := by
  simp [cells, List.map_inj_left]

theorem copyTo_inside (mem : ℕ → α) (a : ℕ) (src : ℕ → α) {n i : ℕ} (h : i < n) :
    copyTo mem a src n (a + i) = src i := by
  have hi : a ≤ a + i ∧ a + i < a + n := by omega
  rw [copyTo, if_pos hi, Nat.add_sub_cancel_left]

theorem copyTo_outside (mem : ℕ → α) (src : ℕ → α) {a n x : ℕ} (h : x < a ∨ a + n ≤ x) :
    copyTo mem a src n x = mem x := by
  have hx : ¬ (a ≤ x ∧ x < a + n) := by omega
  rw [copyTo, if_neg hx]

theorem cells_copyTo (mem : ℕ → α) (a : ℕ) (src : ℕ → α) (n : ℕ) :
    cells (copyTo mem a src n) a n = cells src 0 n := by
  rw [cells_eq_iff]
  intro i hi
  rw [copyTo_inside mem a src hi, Nat.zero_add]

theorem cells_copyTo_apart (mem : ℕ → α) (src : ℕ → α) {a n b m : ℕ}
    (h : b + m ≤ a ∨ a + n ≤ b) : cells (copyTo mem a src n) b m = cells mem b m := by
  rw [cells_eq_iff]
  intro i hi
  apply copyTo_outside
  omega

end Gehtp.Lib.Memory
