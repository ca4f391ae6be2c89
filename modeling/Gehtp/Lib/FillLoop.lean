import Mathlib.Algebra.Group.Nat.Defs
import Mathlib.Data.List.Nodup
import Gehtp.Lib.Checked

/-!
# Loops that fill a buffer

A loop whose rounds write one cell of a buffer each. If the rounds write different cells of the
buffer, then after the loop each of these cells holds what its round wrote, and every other cell
what it held before.
-/

set_option autoImplicit false

namespace Gehtp.Lib

variable {ε α ι : Type}

/-- Write one cell of a buffer; outside of it the access faults. -/
def writeAt (y : List α) (i : ℕ) (v : α) : Checked ε (List α) :=
  if i < y.length then .ok (y.set i v) else .error .fault

/-- Run the rounds one after the other; each says which cell it writes and what. -/
def fillLoop (cell : ι → Checked ε (ℕ × α)) : List ι → List α → Checked ε (List α)
  | [], y => .ok y
  | r :: rounds, y => do
    let w ← cell r
    let y' ← writeAt y w.1 w.2
    fillLoop cell rounds y'

theorem writeAt_of_lt {y : List α} {i : ℕ} (h : i < y.length) (v : α) :
    (writeAt y i v : Checked ε (List α)) = .ok (y.set i v) := if_pos h

variable {cell : ι → Checked ε (ℕ × α)} {rounds : List ι} {y y' : List α}

theorem fillLoop_cons {r : ι} {w : ℕ × α} (hcell : cell r = .ok w) (hw : w.1 < y.length) :
    fillLoop cell (r :: rounds) y = fillLoop cell rounds (y.set w.1 w.2) := by
  rw [fillLoop, hcell]
  show (writeAt y w.1 w.2 >>= fun y' => fillLoop cell rounds y') = _
  rw [writeAt_of_lt hw]
  rfl

theorem length_of_fillLoop (h : fillLoop cell rounds y = .ok y') : y'.length = y.length := by
  induction rounds generalizing y with
  | nil =>
    cases h
    rfl
  | cons r rounds ih =>
    rw [fillLoop, bind_eq_ok] at h
    obtain ⟨w, -, h⟩ := h
    rw [bind_eq_ok] at h
    obtain ⟨y₁, hy₁, h⟩ := h
    rw [ih h]
    unfold writeAt at hy₁
    split at hy₁
    · cases hy₁
      exact List.length_set
    · cases hy₁

theorem fillLoop_eq_ok (pos : ι → ℕ) (val : ι → α)
    (hcell : ∀ r ∈ rounds, cell r = .ok (pos r, val r)) (hpos : ∀ r ∈ rounds, pos r < y.length)
    (hdiff : (rounds.map pos).Nodup) :
    ∃ y', fillLoop cell rounds y = .ok y' ∧ y'.length = y.length ∧
      (∀ r ∈ rounds, y'[pos r]? = some (val r)) ∧
      ∀ j, j ∉ rounds.map pos → y'[j]? = y[j]? := by
  induction rounds generalizing y with
  | nil => exact ⟨y, rfl, rfl, fun r hr => absurd hr List.not_mem_nil, fun j _ => rfl⟩
  | cons r rounds ih =>
    rw [List.map_cons, List.nodup_cons] at hdiff
    have hr : pos r < y.length := hpos r List.mem_cons_self
    obtain ⟨y', hrun, hlen, hval, hrest⟩ := ih
      (y := y.set (pos r) (val r)) (fun q hq => hcell q (List.mem_cons_of_mem r hq))
      (fun q hq => by
        rw [List.length_set]
        exact hpos q (List.mem_cons_of_mem r hq)) hdiff.2
    refine ⟨y', ?_, hlen.trans List.length_set, fun q hq => ?_, fun j hj => ?_⟩
    · rw [fillLoop_cons (hcell r List.mem_cons_self) hr]
      exact hrun
    · rcases List.mem_cons.mp hq with rfl | hq
      · rw [hrest (pos q) hdiff.1, List.getElem?_set_self hr]
      · exact hval q hq
    · rw [List.map_cons, List.mem_cons, not_or] at hj
      rw [hrest j hj.2, List.getElem?_set_ne (Ne.symm hj.1)]

theorem fillLoop_error {s : Stop ε} (h : fillLoop cell rounds y = .error s) :
    s = .fault ∨ ∃ r ∈ rounds, cell r = .error s := by
  induction rounds generalizing y with
  | nil => cases h
  | cons r rounds ih =>
    cases hr : cell r with
    | error e =>
      rw [fillLoop, hr] at h
      cases h
      exact Or.inr ⟨r, List.mem_cons_self, hr⟩
    | ok w =>
      by_cases hw : w.1 < y.length
      · rw [fillLoop_cons hr hw] at h
        cases ih h with
        | inl hs => exact Or.inl hs
        | inr hround =>
          obtain ⟨q, hq, he⟩ := hround
          exact Or.inr ⟨q, List.mem_cons_of_mem r hq, he⟩
      · rw [fillLoop, hr] at h
        have hwrite : (writeAt y w.1 w.2 : Checked ε (List α)) = .error .fault := if_neg hw
        replace h : (writeAt y w.1 w.2 >>= fun y' => fillLoop cell rounds y') = .error s := h
        rw [hwrite] at h
        cases h
        exact Or.inl rfl

theorem cell_of_fillLoop (h : fillLoop cell rounds y = .ok y') {r : ι} (hr : r ∈ rounds) :
    ∃ w, cell r = .ok w ∧ w.1 < y.length := by
  induction rounds generalizing y with
  | nil => exact absurd hr List.not_mem_nil
  | cons q rounds ih =>
    rw [fillLoop, bind_eq_ok] at h
    obtain ⟨w, hw, h⟩ := h
    rw [bind_eq_ok] at h
    obtain ⟨y₁, hy₁, h⟩ := h
    have hlt : w.1 < y.length := by
      by_contra hge
      rw [writeAt, if_neg hge] at hy₁
      cases hy₁
    rw [writeAt_of_lt hlt] at hy₁
    cases hy₁
    cases List.mem_cons.mp hr with
    | inl heq => exact ⟨w, heq ▸ hw, hlt⟩
    | inr hmem =>
      obtain ⟨v, hv, hv'⟩ := ih h hmem
      exact ⟨v, hv, List.length_set ▸ hv'⟩

theorem fillLoop_range {n : ℕ} (cell : ℕ → Checked ε (ℕ × α)) (val : ℕ → α) {y : List α}
    (hcell : ∀ i < n, cell i = .ok (i, val i)) (hn : n ≤ y.length) :
    ∃ y', fillLoop cell (List.range n) y = .ok y' ∧ y'.length = y.length ∧
      ∀ i < n, y'[i]? = some (val i) := by
  have hdiff : ((List.range n).map fun i => i).Nodup := by
    rw [List.map_id']
    exact List.nodup_range
  obtain ⟨y', hrun, hlen, hval, -⟩ := fillLoop_eq_ok (y := y) (fun i => i) val
    (fun i hi => hcell i (List.mem_range.mp hi))
    (fun i hi => Nat.lt_of_lt_of_le (List.mem_range.mp hi) hn) hdiff
  exact ⟨y', hrun, hlen, fun i hi => hval i (List.mem_range.mpr hi)⟩

theorem fillLoop_range_inv {n : ℕ} {cell : ℕ → Checked ε (ℕ × α)} {y y' : List α}
    (hpos : ∀ i < n, ∀ w, cell i = .ok w → w.1 = i)
    (h : fillLoop cell (List.range n) y = .ok y') :
    n ≤ y.length ∧ ∀ i < n, ∃ v, cell i = .ok (i, v) ∧ y'[i]? = some v := by
  have hround : ∀ i < n, ∃ v, cell i = .ok (i, v) ∧ i < y.length := by
    intro i hi
    obtain ⟨w, hw, hlt⟩ := cell_of_fillLoop h (List.mem_range.mpr hi)
    have hwi := hpos i hi w hw
    refine ⟨w.2, ?_, by omega⟩
    rw [hw, ← hwi]
  have hlen : n ≤ y.length := by
    cases n with
    | zero => exact Nat.zero_le _
    | succ n =>
      obtain ⟨_, _, hlt⟩ := hround n (Nat.lt_succ_self n)
      exact hlt
  refine ⟨hlen, fun i hi => ?_⟩
  have : Nonempty α := (hround i hi).nonempty
  choose! val hval using hround
  obtain ⟨y₂, hrun, -, hvals⟩ := fillLoop_range cell val (fun i hi => (hval i hi).1) hlen
  rw [h] at hrun
  cases hrun
  exact ⟨val i, (hval i hi).1, hvals i hi⟩

/-! ### Carrying cells from one buffer to another -/

section Carry

variable {β : Type} {moves : List (ℕ × ℕ)} {n : ℕ}

/-- For each pair of a target and a source read the source, convert it and write the target. -/
def transfer (conv : α → β) (moves : List (ℕ × ℕ)) (src : List α) (dst : List β) :
    Checked ε (List β) :=
  fillLoop (fun m => (entryAt src m.2).map fun v => (m.1, conv v)) moves dst

/-- Every cell of two buffers of this size is the target of one move and the source of one. -/
structure Bijects (moves : List (ℕ × ℕ)) (n : ℕ) : Prop where
  targets : (moves.map Prod.fst).Perm (List.range n)
  sources : (moves.map Prod.snd).Perm (List.range n)

theorem Bijects.swap (h : Bijects moves n) : Bijects (moves.map Prod.swap) n where
  targets := by
    rw [List.map_map]
    exact h.sources
  sources := by
    rw [List.map_map]
    exact h.targets

theorem Bijects.target_lt (h : Bijects moves n) {m : ℕ × ℕ} (hm : m ∈ moves) : m.1 < n :=
  List.mem_range.mp (h.targets.mem_iff.mp (List.mem_map_of_mem hm))

theorem Bijects.source_lt (h : Bijects moves n) {m : ℕ × ℕ} (hm : m ∈ moves) : m.2 < n :=
  List.mem_range.mp (h.sources.mem_iff.mp (List.mem_map_of_mem hm))

theorem Bijects.targets_ext {γ : Type} (h : Bijects moves n) {x y : List γ} (hx : x.length = n)
    (hy : y.length = n) (heq : ∀ m ∈ moves, x[m.1]? = y[m.1]?) : x = y := by
  apply List.ext_getElem?
  intro j
  by_cases hj : j < n
  · obtain ⟨m, hm, rfl⟩ := List.mem_map.mp (h.targets.mem_iff.mpr (List.mem_range.mpr hj))
    exact heq m hm
  · rw [List.getElem?_eq_none (by omega), List.getElem?_eq_none (by omega)]

theorem transfer_eq_ok (conv : α → β) (h : Bijects moves n) {src : List α} {dst : List β}
    (hsrc : src.length = n) (hdst : dst.length = n) :
    ∃ y, (transfer conv moves src dst : Checked ε (List β)) = .ok y ∧ y.length = n ∧
      ∀ m ∈ moves, y[m.1]? = src[m.2]?.map conv := by
  have hread : ∀ m ∈ moves, ∃ v, src[m.2]? = some v := by
    intro m hm
    exact ⟨_, List.getElem?_eq_getElem (hsrc ▸ h.source_lt hm)⟩
  cases hmoves : moves with
  | nil => exact ⟨dst, rfl, hdst, fun m hm => absurd hm List.not_mem_nil⟩
  | cons m₀ rest =>
    rw [← hmoves]
    have : Nonempty α := (hread m₀ (hmoves ▸ List.mem_cons_self)).nonempty
    choose! val hval using hread
    have hcell : ∀ m ∈ moves, ((entryAt src m.2).map fun v => (m.1, conv v) :
        Checked ε (ℕ × β)) = .ok (m.1, conv (val m)) := by
      intro m hm
      simp [entryAt, hval m hm, Except.map]
    obtain ⟨y, hrun, hlen, hcells, -⟩ := fillLoop_eq_ok (y := dst) Prod.fst _ hcell
      (fun m hm => hdst ▸ h.target_lt hm) (h.targets.nodup_iff.mpr List.nodup_range)
    refine ⟨y, hrun, hlen.trans hdst, fun m hm => ?_⟩
    rw [hcells m hm, hval m hm, Option.map_some]

theorem transfer_back (h : Bijects moves n) {src dst back : List α} (hsrc : src.length = n)
    (hdst : dst.length = n) (hback : back.length = n) :
    ∃ y, (transfer id moves src dst : Checked ε (List α)) = .ok y ∧ y.length = n ∧
      (transfer id (moves.map Prod.swap) y back : Checked ε (List α)) = .ok src := by
  obtain ⟨y, hrun, hy, hcells⟩ := transfer_eq_ok (ε := ε) id h hsrc hdst
  obtain ⟨x, hrun', hx, hcells'⟩ := transfer_eq_ok (ε := ε) id h.swap hy hback
  refine ⟨y, hrun, hy, hrun'.trans (congrArg Except.ok ?_)⟩
  refine h.swap.targets_ext hx hsrc fun m hm => ?_
  obtain ⟨q, hq, rfl⟩ := List.mem_map.mp hm
  rw [hcells' q.swap hm, Option.map_id_fun, id]
  have hfirst := hcells q hq
  rw [Option.map_id_fun, id] at hfirst
  exact hfirst

theorem transfer_conv (conv : α → β) (h : Bijects moves n) {src dst : List α} {dst' : List β}
    (hsrc : src.length = n) (hdst : dst.length = n) (hdst' : dst'.length = n) :
    ∃ y, (transfer id moves src dst : Checked ε (List α)) = .ok y ∧
      (transfer conv moves src dst' : Checked ε (List β)) = .ok (y.map conv) := by
  obtain ⟨y, hrun, hy, hcells⟩ := transfer_eq_ok (ε := ε) id h hsrc hdst
  obtain ⟨x, hrun', hx, hcells'⟩ := transfer_eq_ok (ε := ε) conv h hsrc hdst'
  refine ⟨y, hrun, hrun'.trans (congrArg Except.ok ?_)⟩
  refine h.targets_ext hx (by rw [List.length_map, hy]) fun m hm => ?_
  rw [hcells' m hm, List.getElem?_map, hcells m hm, Option.map_map, Function.comp_id]

end Carry

end Gehtp.Lib
