import Gehtp.Lib.FillLoop

/-!
# Loops over rows that carry a value along

A kernel that goes through a buffer row by row often carries a value from one element of the row to
the next, a sum for instance, and sometimes goes through the row once more to change what it wrote.
Here are loops of both kinds, and the loop over the rows.
-/

set_option autoImplicit false

namespace Gehtp.Lib

variable {ε α ι σ : Type}

/-- Run the rounds one after the other with a value carried along; each says which cell it writes and
what. -/
def carryLoop (cell : σ → ι → Checked ε (σ × ℕ × α)) : List ι → σ → List α →
    Checked ε (σ × List α)
  | [], s, y => .ok (s, y)
  | r :: rounds, s, y => do
    let w ← cell s r
    let y' ← writeAt y w.2.1 w.2.2
    carryLoop cell rounds w.1 y'

/-- Change one cell after the other. -/
def updateLoop (g : α → α) : List ℕ → List α → Checked ε (List α)
  | [], y => .ok y
  | i :: is, y => do
    let v ← entryAt y i
    let y' ← writeAt y i (g v)
    updateLoop g is y'

/-- Going through different cells of the buffer, a loop leaves in each what its round wrote after the
rounds in front of it. -/
theorem carryLoop_eq_ok (cell : σ → ι → Checked ε (σ × ℕ × α)) {rounds : List ι} {y : List α}
    (next : σ → ι → σ) (pos : ι → ℕ) (val : σ → ι → α) (s : σ)
    (hcell : ∀ s, ∀ r ∈ rounds, cell s r = .ok (next s r, pos r, val s r))
    (hpos : ∀ r ∈ rounds, pos r < y.length) (hdiff : (rounds.map pos).Nodup) :
    ∃ y', carryLoop cell rounds s y = .ok (rounds.foldl next s, y') ∧ y'.length = y.length ∧
      (∀ done r todo, rounds = done ++ r :: todo →
        y'[pos r]? = some (val (done.foldl next s) r)) ∧
      ∀ j, j ∉ rounds.map pos → y'[j]? = y[j]? := by
  induction rounds generalizing s y with
  | nil =>
    refine ⟨y, rfl, rfl, fun done r todo h => ?_, fun j _ => rfl⟩
    exact absurd h.symm (List.append_ne_nil_of_right_ne_nil _ (List.cons_ne_nil r todo))
  | cons r rounds ih =>
    rw [List.map_cons, List.nodup_cons] at hdiff
    have hr : pos r < y.length := hpos r List.mem_cons_self
    obtain ⟨y', hrun, hlen, hval, hrest⟩ := ih (y := y.set (pos r) (val s r)) (next s r)
      (fun s q hq => hcell s q (List.mem_cons_of_mem r hq))
      (fun q hq => by
        rw [List.length_set]
        exact hpos q (List.mem_cons_of_mem r hq)) hdiff.2
    refine ⟨y', ?_, hlen.trans List.length_set, ?_, ?_⟩
    · rw [carryLoop, hcell s r List.mem_cons_self]
      show (writeAt y (pos r) (val s r) >>= fun y' => carryLoop cell rounds (next s r) y') = _
      rw [writeAt_of_lt hr]
      exact hrun
    · intro done q todo h
      cases done with
      | nil =>
        cases h
        rw [hrest (pos r) hdiff.1, List.getElem?_set_self hr]
        rfl
      | cons p done =>
        cases h
        exact hval done q todo rfl
    · intro j hj
      rw [List.map_cons, List.mem_cons, not_or] at hj
      rw [hrest j hj.2, List.getElem?_set_ne (Ne.symm hj.1)]

theorem updateLoop_eq_ok (g : α → α) (is : List ℕ) {y : List α} (hpos : ∀ i ∈ is, i < y.length)
    (hdiff : is.Nodup) :
    ∃ y', (updateLoop g is y : Checked ε (List α)) = .ok y' ∧ y'.length = y.length ∧
      (∀ i ∈ is, y'[i]? = y[i]?.map g) ∧ ∀ j, j ∉ is → y'[j]? = y[j]? := by
  induction is generalizing y with
  | nil => exact ⟨y, rfl, rfl, fun i hi => absurd hi List.not_mem_nil, fun j _ => rfl⟩
  | cons i is ih =>
    rw [List.nodup_cons] at hdiff
    have hi : i < y.length := hpos i List.mem_cons_self
    have hget : (entryAt y i : Checked ε α) = .ok y[i] := by
      rw [entryAt_eq_ok]
      exact List.getElem?_eq_getElem hi
    obtain ⟨y', hrun, hlen, hval, hrest⟩ := ih (y := y.set i (g y[i]))
      (fun j hj => by
        rw [List.length_set]
        exact hpos j (List.mem_cons_of_mem i hj)) hdiff.2
    refine ⟨y', ?_, hlen.trans List.length_set, ?_, ?_⟩
    · rw [updateLoop, hget]
      show (writeAt y i (g y[i]) >>= fun y' => updateLoop g is y') = _
      rw [writeAt_of_lt hi]
      exact hrun
    · intro j hj
      cases List.mem_cons.mp hj with
      | inl heq =>
        rw [heq, hrest i hdiff.1, List.getElem?_set_self hi, List.getElem?_eq_getElem hi]
        rfl
      | inr hmem =>
        have hne : i ≠ j := fun heq => hdiff.1 (heq ▸ hmem)
        rw [hval j hmem, List.getElem?_set_ne hne]
    · intro j hj
      rw [List.mem_cons, not_or] at hj
      rw [hrest j hj.2, List.getElem?_set_ne (Ne.symm hj.1)]

theorem rowLoop_eq_ok (step : List α → ℕ → Checked ε (List α)) {m w : ℕ} {y : List α}
    (val : ℕ → ℕ → α) (hy : m * w ≤ y.length)
    (hstep : ∀ r < m, ∀ z : List α, z.length = y.length →
      ∃ z', step z r = .ok z' ∧ z'.length = z.length ∧
        (∀ i < w, z'[r * w + i]? = some (val r i)) ∧
        ∀ j, j < r * w ∨ (r + 1) * w ≤ j → z'[j]? = z[j]?) :
    ∃ y', (List.range m).foldlM step y = .ok y' ∧ y'.length = y.length ∧
      ∀ r < m, ∀ i < w, y'[r * w + i]? = some (val r i) := by
  induction m with
  | zero => exact ⟨y, rfl, rfl, fun r hr => absurd hr (Nat.not_lt_zero r)⟩
  | succ m ih =>
    rw [Nat.succ_mul] at hy
    obtain ⟨z, hrun, hlen, hval⟩ := ih (by omega) fun r hr => hstep r (Nat.lt_succ_of_lt hr)
    obtain ⟨y', hlast, hlen', hrow, hrest⟩ := hstep m (Nat.lt_succ_self m) z hlen
    refine ⟨y', ?_, hlen'.trans hlen, ?_⟩
    · rw [List.range_succ, List.foldlM_append, hrun]
      show ([m].foldlM step z) = _
      rw [List.foldlM_cons, hlast]
      rfl
    · intro r hr i hi
      cases Nat.lt_succ_iff_lt_or_eq.mp hr with
      | inl hlt =>
        have hin : r * w + i < m * w := by
          calc r * w + i < r * w + w := Nat.add_lt_add_left hi _
            _ = (r + 1) * w := (Nat.succ_mul r w).symm
            _ ≤ m * w := Nat.mul_le_mul_right w hlt
        rw [hrest _ (.inl hin)]
        exact hval r hlt i hi
      | inr heq =>
        rw [heq]
        exact hrow i hi

/-! ### Loops that do not fail -/

theorem foldlM_of_ok {f : σ → ι → Checked ε σ} {g : σ → ι → σ} (l : List ι)
    (h : ∀ s, ∀ a ∈ l, f s a = .ok (g s a)) (s : σ) : l.foldlM f s = .ok (l.foldl g s) := by
  induction l generalizing s with
  | nil => rfl
  | cons a l ih =>
    rw [List.foldlM_cons, h s a List.mem_cons_self]
    exact ih (fun s b hb => h s b (List.mem_cons_of_mem a hb)) _

theorem grid_places (m w : ℕ) :
    ((List.range m).flatMap fun o => (List.range w).map fun i => (o, i)).map
      (fun c => c.1 * w + c.2) = List.range (m * w) := by
  induction m with
  | zero =>
    rw [Nat.zero_mul]
    rfl
  | succ m ih =>
    rw [List.range_succ, List.flatMap_append, List.map_append, ih, Nat.succ_mul, List.range_add,
      List.flatMap_singleton, List.map_map]
    rfl

theorem mem_grid {m w : ℕ} {c : ℕ × ℕ} :
    c ∈ ((List.range m).flatMap fun o => (List.range w).map fun i => (o, i)) ↔ c.1 < m ∧ c.2 < w := by
  obtain ⟨o, i⟩ := c
  simp only [List.mem_flatMap, List.mem_range, List.mem_map, Prod.mk.injEq]
  constructor
  · rintro ⟨o', ho, i', hi, rfl, rfl⟩
    exact ⟨ho, hi⟩
  · rintro ⟨ho, hi⟩
    exact ⟨o, ho, i, hi, rfl, rfl⟩

end Gehtp.Lib
