import Mathlib.Algebra.Order.Ring.Nat
import Mathlib.Data.List.Range

/-!
# Cutting ranges into pieces

Pieces of given sizes are laid down one after the other; if none is empty every place in front of the
last end is in exactly one of them. A grid lists the cells of a table row by row.
-/

set_option autoImplicit false

namespace Gehtp.Lib.Cuts

/-- Where the piece `i` starts if the pieces have the sizes `e`. -/
def offset (e : ℕ → ℕ) : ℕ → ℕ
  | 0 => 0
  | i + 1 => offset e i + e i

section Pieces

variable {e e' : ℕ → ℕ} {i j t x : ℕ}

theorem offset_le (h : i ≤ j) : offset e i ≤ offset e j := by
  induction h with
  | refl => exact Nat.le_refl _
  | step _ ih => exact ih.trans (Nat.le_add_right _ _)

theorem offset_congr (h : ∀ i < t, e i = e' i) : offset e t = offset e' t := by
  induction t with
  | zero => rfl
  | succ t ih =>
    rw [offset, offset, ih fun i hi => h i (Nat.lt_succ_of_lt hi), h t (Nat.lt_succ_self t)]

theorem offset_const {c : ℕ} (h : ∀ i < t, e i = c) : offset e t = t * c := by
  induction t with
  | zero => exact (Nat.zero_mul c).symm
  | succ t ih =>
    rw [offset, ih fun i hi => h i (Nat.lt_succ_of_lt hi), h t (Nat.lt_succ_self t), Nat.succ_mul]

theorem end_le (hi : i < t) : offset e i + e i ≤ offset e t := offset_le (e := e) hi

theorem exists_piece (h : x < offset e t) : ∃ i < t, offset e i ≤ x ∧ x < offset e i + e i := by
  induction t with
  | zero => exact absurd h (Nat.not_lt_zero x)
  | succ t ih =>
    by_cases hx : x < offset e t
    · obtain ⟨i, hi, hin⟩ := ih hx
      exact ⟨i, Nat.lt_succ_of_lt hi, hin⟩
    · exact ⟨t, Nat.lt_succ_self t, Nat.le_of_not_lt hx, h⟩

theorem piece_unique (hi : offset e i ≤ x ∧ x < offset e i + e i)
    (hj : offset e j ≤ x ∧ x < offset e j + e j) : i = j := by
  apply Nat.le_antisymm
  · by_contra hlt
    have hend := end_le (e := e) (Nat.lt_of_not_le hlt)
    omega
  · by_contra hlt
    have hend := end_le (e := e) (Nat.lt_of_not_le hlt)
    omega

end Pieces

/-- The cells of a table, row by row. -/
def grid {α : Type} (rows cols : ℕ) (f : ℕ → ℕ → α) : List α :=
  (List.range rows).flatMap fun i => (List.range cols).map fun j => f i j

section Grid

variable {α : Type} {rows cols : ℕ} {f : ℕ → ℕ → α}

theorem grid_succ : grid (rows + 1) cols f =
    grid rows cols f ++ (List.range cols).map fun j => f rows j := by
  rw [grid, List.range_succ, List.flatMap_append, List.flatMap_singleton]
  rfl

theorem length_grid : (grid rows cols f).length = rows * cols := by
  induction rows with
  | zero => exact (Nat.zero_mul cols).symm
  | succ rows ih =>
    rw [grid_succ, List.length_append, ih, List.length_map, List.length_range, Nat.succ_mul]

theorem mem_grid {a : α} : a ∈ grid rows cols f ↔ ∃ i < rows, ∃ j < cols, f i j = a := by
  simp only [grid, List.mem_flatMap, List.mem_map, List.mem_range]

theorem grid_getElem? {i j : ℕ} (hi : i < rows) (hj : j < cols) :
    (grid rows cols f)[i * cols + j]? = some (f i j) := by
  induction rows with
  | zero => exact absurd hi (Nat.not_lt_zero i)
  | succ rows ih =>
    rw [grid_succ]
    cases Nat.lt_succ_iff_lt_or_eq.mp hi with
    | inl hlt =>
      have hin : i * cols + j < rows * cols := by
        have hle := Nat.mul_le_mul_right cols (Nat.succ_le_of_lt hlt)
        rw [Nat.succ_mul] at hle
        omega
      rw [List.getElem?_append_left (by rwa [length_grid])]
      exact ih hlt
    | inr heq =>
      rw [heq, List.getElem?_append_right (by rw [length_grid]; omega), length_grid,
        Nat.add_sub_cancel_left, List.getElem?_map, List.getElem?_range hj]
      rfl

theorem row_col {k : ℕ} (hk : k < rows * cols) :
    k / cols < rows ∧ k % cols < cols ∧ k = k / cols * cols + k % cols := by
  have hcols : 0 < cols := Nat.pos_of_mul_pos_left (Nat.zero_lt_of_lt hk)
  refine ⟨(Nat.div_lt_iff_lt_mul hcols).mpr hk, Nat.mod_lt k hcols, ?_⟩
  rw [Nat.mul_comm]
  exact (Nat.div_add_mod k cols).symm

theorem cell_row_col {i j : ℕ} (hj : j < cols) :
    (i * cols + j) / cols = i ∧ (i * cols + j) % cols = j := by
  constructor
  · rw [Nat.mul_comm, Nat.mul_add_div (by omega), Nat.div_eq_of_lt hj, Nat.add_zero]
  · rw [Nat.mul_comm, Nat.mul_add_mod, Nat.mod_eq_of_lt hj]

theorem cell_lt {i j : ℕ} (hi : i < rows) (hj : j < cols) : i * cols + j < rows * cols := by
  have hle := Nat.mul_le_mul_right cols (Nat.succ_le_of_lt hi)
  rw [Nat.succ_mul] at hle
  omega

end Grid

end Gehtp.Lib.Cuts
