import Mathlib.Data.Nat.ModEq

/-!
# Ring buffers

A ring has `cap` cells, a place to read from, a place to write to, and a count. Its content is the
list of the cells from the place to read from on. A write appends to the content, and a read takes
its first element.
-/

set_option autoImplicit false

namespace Gehtp.Lib

variable {α : Type}

/-- The cells, the place to read from, the place to write to, and the count. -/
structure RingBuffer (α : Type) where
  cell : ℕ → α
  head : ℕ
  tail : ℕ
  count : ℕ

namespace RingBuffer

/-- Write to the tail. -/
def push (cap : ℕ) (r : RingBuffer α) (a : α) : RingBuffer α where
  cell := Function.update r.cell r.tail a
  head := r.head
  tail := (r.tail + 1) % cap
  count := r.count + 1

/-- The cell that is read next. -/
def front (r : RingBuffer α) : α := r.cell r.head

/-- Take the cell at the head away. -/
def pop (cap : ℕ) (r : RingBuffer α) : RingBuffer α :=
  { r with head := (r.head + 1) % cap, count := r.count - 1 }

/-- The content, the oldest element first. -/
def content (cap : ℕ) (r : RingBuffer α) : List α :=
  (List.range r.count).map fun i => r.cell ((r.head + i) % cap)

/-- The places are in the ring and fit to the count. -/
structure Wf (cap : ℕ) (r : RingBuffer α) : Prop where
  head_lt : r.head < cap
  tail_eq : r.tail = (r.head + r.count) % cap
  count_le : r.count ≤ cap

variable {cap : ℕ} {r : RingBuffer α}

@[simp] theorem length_content : (r.content cap).length = r.count := by
  simp [content]

theorem content_eq_nil (h : r.count = 0) : r.content cap = [] := by
  apply List.eq_nil_of_length_eq_zero
  rw [length_content]
  exact h

theorem mod_ne {a i j : ℕ} (hij : i < j) (hj : j < i + cap) : (a + i) % cap ≠ (a + j) % cap := by
  intro h
  have hdvd : cap ∣ a + j - (a + i) := (Nat.modEq_iff_dvd' (by omega)).mp h
  have hle := Nat.le_of_dvd (by omega) hdvd
  omega

theorem window_mod_ne {q i j : ℕ} (hi : i < q) (hi' : q ≤ i + cap) (hj : j < q) (hj' : q ≤ j + cap)
    (hne : i ≠ j) : i % cap ≠ j % cap := by
  rcases Nat.lt_or_gt_of_ne hne with hlt | hlt
  · have key := mod_ne (a := 0) hlt (show j < i + cap by omega)
    simpa using key
  · have key := mod_ne (a := 0) hlt (show i < j + cap by omega)
    simpa using key.symm

theorem block_ne {a b k i j : ℕ} (hab : a ≠ b) (hi : i < k) (hj : j < k) :
    a * k + i ≠ b * k + j := by
  intro heq
  apply hab
  have hk : 0 < k := by omega
  calc a = (a * k + i) / k := by
        rw [Nat.add_comm, Nat.add_mul_div_right i a hk, Nat.div_eq_of_lt hi, Nat.zero_add]
    _ = (b * k + j) / k := by rw [heq]
    _ = b := by
        rw [Nat.add_comm, Nat.add_mul_div_right j b hk, Nat.div_eq_of_lt hj, Nat.zero_add]

theorem Wf.push (h : r.Wf cap) (hc : r.count < cap) (a : α) : (r.push cap a).Wf cap := by
  refine ⟨h.head_lt, ?_, hc⟩
  show (r.tail + 1) % cap = (r.head + (r.count + 1)) % cap
  rw [h.tail_eq, Nat.mod_add_mod, Nat.add_assoc]

theorem content_push (h : r.Wf cap) (hc : r.count < cap) (a : α) :
    (r.push cap a).content cap = r.content cap ++ [a] := by
  unfold content
  show (List.range (r.count + 1)).map _ = _
  rw [List.range_succ, List.map_append, List.map_singleton]
  have hlast : (r.push cap a).cell (((r.push cap a).head + r.count) % cap) = a := by
    show Function.update r.cell r.tail a ((r.head + r.count) % cap) = a
    rw [← h.tail_eq, Function.update_self]
  rw [hlast]
  congr 1
  apply List.map_congr_left
  intro i hi
  have hlt := List.mem_range.mp hi
  show Function.update r.cell r.tail a ((r.head + i) % cap) = r.cell ((r.head + i) % cap)
  rw [h.tail_eq]
  exact Function.update_of_ne (mod_ne hlt (by omega)) _ _

theorem Wf.pop (h : r.Wf cap) (hc : 0 < r.count) : (r.pop cap).Wf cap := by
  have hcap : 0 < cap := Nat.lt_of_lt_of_le hc h.count_le
  refine ⟨Nat.mod_lt _ hcap, ?_, ?_⟩
  · show r.tail = ((r.head + 1) % cap + (r.count - 1)) % cap
    rw [h.tail_eq, Nat.mod_add_mod]
    congr 1
    omega
  · show r.count - 1 ≤ cap
    have := h.count_le
    omega

theorem content_pop (h : r.Wf cap) (hc : 0 < r.count) :
    r.content cap = r.front :: (r.pop cap).content cap := by
  obtain ⟨n, hn⟩ : ∃ n, r.count = n + 1 := ⟨r.count - 1, by omega⟩
  unfold content
  have hpop : (r.pop cap).count = n := by
    show r.count - 1 = n
    omega
  rw [hpop, hn, List.range_succ_eq_map, List.map_cons, List.map_map]
  congr 1
  · show r.cell ((r.head + 0) % cap) = r.cell r.head
    rw [Nat.add_zero, Nat.mod_eq_of_lt h.head_lt]
  · apply List.map_congr_left
    intro i _
    show r.cell ((r.head + (i + 1)) % cap) = r.cell (((r.head + 1) % cap + i) % cap)
    rw [Nat.mod_add_mod]
    congr 2
    omega

end RingBuffer

end Gehtp.Lib
