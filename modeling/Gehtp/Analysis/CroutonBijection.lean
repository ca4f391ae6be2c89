import Mathlib.Data.List.Perm.Subperm
import Mathlib.Tactic.Ring
import Gehtp.Model.Crouton

/-!
# Crouton surfaces and matrices hold the same cells

As long as the 32-bit place in the surface does not wrap, the loops visit the places of the surface
one after the other and those of the matrix once each. Then encoding and decoding undo each other.
-/

set_option autoImplicit false

namespace Gehtp.Analysis.CroutonBijection

open Lib Model.Crouton

/-! ### The places of the surface -/

theorem pairs_targets (out k : ℕ) (f g : ℕ → ℕ) :
    ((List.range k).flatMap fun j => [(out + 2 * j, f j), (out + 2 * j + 1, g j)]).map Prod.fst =
      List.range' out (2 * k) := by
  induction k with
  | zero => rfl
  | succ k ih =>
    rw [List.range_succ, List.flatMap_append, List.map_append, ih, Nat.mul_succ,
      ← List.range'_append_1]
    simp [List.range'_succ]

theorem strip_targets (cols out kt row0 : ℕ) :
    (croutonStrip cols out kt row0).map Prod.fst = List.range' out 64 :=
  pairs_targets out 32 _ _

theorem moves_targets (cols : ℕ) {out : ℕ} {rounds : List (ℕ × ℕ)}
    (h : out + 64 * rounds.length ≤ 2 ^ 32) :
    (croutonMoves cols out rounds).map Prod.fst = List.range' out (64 * rounds.length) := by
  induction rounds generalizing out with
  | nil => rfl
  | cons r rounds ih =>
    rw [List.length_cons] at h
    have hsplit : List.range' out (64 * (r :: rounds).length) =
        List.range' out 64 ++ List.range' (out + 64) (64 * rounds.length) := by
      rw [List.range'_append_1, List.length_cons, Nat.mul_succ, Nat.add_comm 64]
    rw [croutonMoves, List.map_append, strip_targets, hsplit]
    cases rounds with
    | nil => rfl
    | cons r' rounds =>
      have hnext : (out + 64) % 2 ^ 32 = out + 64 := by
        rw [List.length_cons] at h
        exact Nat.mod_eq_of_lt (by omega)
      rw [hnext, ih (by omega)]

theorem moves_targets_lt (cols : ℕ) {out : ℕ} {rounds : List (ℕ × ℕ)} (hout : out < 2 ^ 32)
    (hdvd : 64 ∣ out) : ∀ m ∈ croutonMoves cols out rounds, m.1 < 2 ^ 32 := by
  induction rounds generalizing out with
  | nil => exact fun m hm => absurd hm List.not_mem_nil
  | cons r rounds ih =>
    intro m hm
    rw [croutonMoves, List.mem_append] at hm
    cases hm with
    | inl hstrip =>
      have htarget : m.1 ∈ (croutonStrip cols out r.1 r.2).map Prod.fst := List.mem_map_of_mem hstrip
      rw [strip_targets, List.mem_range'_1] at htarget
      omega
    | inr hrest => exact ih (Nat.mod_lt _ (by norm_num)) (by omega) m hrest

/-! ### The places of the matrix -/

theorem length_rounds (rows cols : ℕ) :
    (croutonRounds rows cols).length = 8 * (cols / 32 * (rows / 32 * 2)) := by
  simp only [croutonRounds, List.length_flatMap, List.length_map, List.length_range,
    List.map_const', List.sum_replicate_nat]

theorem mem_rounds {rows cols r c : ℕ} (hrows : 32 ∣ rows) (hcols : 32 ∣ cols) (hr : r < rows)
    (hc : c < cols) : (c / 32, r / 2 * 2) ∈ croutonRounds rows cols := by
  unfold croutonRounds
  simp only [List.mem_flatMap, List.mem_map, List.mem_range]
  refine ⟨r % 32 / 4, by omega, c / 32, by omega, r / 32, by omega, r % 4 / 2, by omega, ?_⟩
  rw [Prod.mk.injEq]
  exact ⟨rfl, by omega⟩

theorem mem_strip_sources (cols out r c : ℕ) :
    r * cols + c ∈ (croutonStrip cols out (c / 32) (r / 2 * 2)).map Prod.snd := by
  have hcol : c / 32 * 32 + c % 32 = c := by omega
  rw [croutonStrip, List.map_flatMap, List.mem_flatMap]
  refine ⟨c % 32, List.mem_range.mpr (by omega), ?_⟩
  rw [hcol]
  -- the parity of the row says which of the two it is
  cases Nat.mod_two_eq_zero_or_one r with
  | inl heven =>
    have hrow : r / 2 * 2 = r := by omega
    simp [hrow]
  | inr hodd =>
    have hrow : r / 2 * 2 + 1 = r := by omega
    simp [hrow]

theorem mem_moves_sources (cols out : ℕ) {r c : ℕ} {rounds : List (ℕ × ℕ)}
    (h : (c / 32, r / 2 * 2) ∈ rounds) :
    r * cols + c ∈ (croutonMoves cols out rounds).map Prod.snd := by
  induction rounds generalizing out with
  | nil => exact absurd h List.not_mem_nil
  | cons q rounds ih =>
    rw [croutonMoves, List.map_append, List.mem_append]
    cases List.mem_cons.mp h with
    | inl heq =>
      rw [← heq]
      exact Or.inl (mem_strip_sources cols out r c)
    | inr hrest => exact Or.inr (ih _ hrest)

/-! ### The bijection -/

theorem cells_eq {rows cols : ℕ} (hrows : 32 ∣ rows) (hcols : 32 ∣ cols) :
    64 * (croutonRounds rows cols).length = rows * cols := by
  obtain ⟨a, rfl⟩ := hrows
  obtain ⟨b, rfl⟩ := hcols
  rw [length_rounds, Nat.mul_div_cancel_left _ (by norm_num), Nat.mul_div_cancel_left _ (by norm_num)]
  ring

variable {rows cols : UInt32}

theorem places_targets (hrows : 32 ∣ rows.toNat) (hcols : 32 ∣ cols.toNat)
    (hsize : rows.toNat * cols.toNat ≤ 2 ^ 32) :
    (croutonPlaces rows cols).map Prod.fst = List.range (rows.toNat * cols.toNat) := by
  have hlen := cells_eq hrows hcols
  rw [croutonPlaces, moves_targets _ (by omega), hlen, List.range_eq_range']

theorem places_bijects (hrows : 32 ∣ rows.toNat) (hcols : 32 ∣ cols.toNat)
    (hsize : rows.toNat * cols.toNat ≤ 2 ^ 32) :
    Bijects (croutonPlaces rows cols) (rows.toNat * cols.toNat) := by
  have htargets := places_targets hrows hcols hsize
  refine ⟨htargets ▸ List.Perm.refl _, ?_⟩
  -- every place of the matrix is reached, and there are no more moves than places
  have hreached : List.range (rows.toNat * cols.toNat) ⊆ (croutonPlaces rows cols).map Prod.snd := by
    intro i hi
    have hi : i < rows.toNat * cols.toNat := List.mem_range.mp hi
    have hpos : 0 < cols.toNat := Nat.pos_of_ne_zero fun h0 => by simp [h0] at hi
    have hr : i / cols.toNat < rows.toNat := (Nat.div_lt_iff_lt_mul hpos).mpr hi
    have hmem := mem_moves_sources cols.toNat 0
      (mem_rounds hrows hcols hr (Nat.mod_lt i hpos))
    rwa [Nat.div_add_mod'] at hmem
  have hlength : ((croutonPlaces rows cols).map Prod.snd).length = rows.toNat * cols.toNat := by
    rw [List.length_map, ← List.length_map (f := Prod.fst), htargets, List.length_range]
  refine ((List.nodup_range.subperm hreached).perm_of_length_le ?_).symm
  rw [hlength, List.length_range]

/-- What makes the crouton layout of this many rows and columns one to one. -/
structure Exact (rows cols : UInt32) : Prop where
  decode_encode : ∀ x surf lin : List UInt16, x.length = rows.toNat * cols.toNat →
    surf.length = rows.toNat * cols.toNat → lin.length = rows.toNat * cols.toNat →
    ∃ s, gemmCroutonEncode x surf rows cols = .ok s ∧ s.length = rows.toNat * cols.toNat ∧
      gemmCroutonDecode s lin rows cols = .ok x
  encode_decode : ∀ s lin surf : List UInt16, s.length = rows.toNat * cols.toNat →
    lin.length = rows.toNat * cols.toNat → surf.length = rows.toNat * cols.toNat →
    ∃ x, gemmCroutonDecode s lin rows cols = .ok x ∧ x.length = rows.toNat * cols.toNat ∧
      gemmCroutonEncode x surf rows cols = .ok s
  written_once : ((croutonPlaces rows cols).map Prod.fst).Perm
    (List.range (rows.toNat * cols.toNat))
  inv_crouton : ∀ (s lin : List UInt16) (dst : List Int16), s.length = rows.toNat * cols.toNat →
    lin.length = rows.toNat * cols.toNat → dst.length = rows.toNat * cols.toNat →
    ∃ x, gemmCroutonDecode s lin rows cols = .ok x ∧
      invCrouton s dst rows cols = .ok (x.map UInt16.toInt16)

theorem Exact.size_le (h : Exact rows cols) : rows.toNat * cols.toNat ≤ 2 ^ 32 := by
  by_contra hlarge
  have hlast : 2 ^ 32 ∈ List.range (rows.toNat * cols.toNat) := by
    rw [List.mem_range]
    omega
  obtain ⟨m, hm, htarget⟩ := List.mem_map.mp (h.written_once.mem_iff.mpr hlast)
  have hlt := moves_targets_lt cols.toNat (by norm_num) (dvd_zero 64) m hm
  omega

/-- Crouton layout is one to one exactly if the surface has at most 4 Gi cells. -/
theorem crouton_exact_iff (rows cols : UInt32) (hrows : 32 ∣ rows.toNat)
    (hcols : 32 ∣ cols.toNat) : Exact rows cols ↔ rows.toNat * cols.toNat ≤ 2 ^ 32 := by
  refine ⟨Exact.size_le, fun hsize => ?_⟩
  have hbij := places_bijects hrows hcols hsize
  refine ⟨fun x surf lin hx hsurf hlin => transfer_back hbij hx hsurf hlin, ?_, hbij.targets, ?_⟩
  · intro s lin surf hs hlin hsurf
    obtain ⟨x, hdecode, hx, hencode⟩ := transfer_back (ε := Empty) hbij.swap hs hlin hsurf
    rw [List.map_map, Prod.swap_swap_eq, List.map_id] at hencode
    exact ⟨x, hdecode, hx, hencode⟩
  · intro s lin dst hs hlin hdst
    exact transfer_conv UInt16.toInt16 hbij.swap hs hlin hdst

/-- A surface of 1024 cells. -/
theorem square_exact : 32 ∣ (32 : UInt32).toNat ∧ Exact 32 32 :=
  ⟨by decide, (crouton_exact_iff 32 32 (by decide) (by decide)).mpr (by decide)⟩

/-- A surface of 65536 by 65568 cells: one of them is never written. -/
theorem wide_surface_not_exact : ¬ Exact 65536 65568 :=
  fun h => absurd h.size_le (by decide)

end Gehtp.Analysis.CroutonBijection
