import Mathlib.Algebra.Order.Ring.Nat
import Gehtp.Model.Btrack

/-!
# What a mark covers

The loop of a mark goes from word to word in 32-bit arithmetic. As long as its last word
is in the bitmap it ends, and it sets exactly the bits of its blocks; otherwise it leaves
the bitmap. The blocks themselves come from truncated arithmetic: whole blocks are counted
in 32 bits, so a partial block at the end is not among them, and the end of a range can
wrap. `Covered` says when nothing of this happens to the bytes of a write.
-/

set_option autoImplicit false

namespace Gehtp.Analysis.BtrackMark

open Model.Btrack

/-! ### One word -/

theorem getLsbD_onesBelow {n : ℕ} (hn : n < 64) (i : ℕ) :
    ((1#64 <<< n) - 1#64).getLsbD i = decide (i < n) := by
  have hpow : 2 ^ n < 2 ^ 64 := Nat.pow_lt_pow_right (by decide) hn
  have hpos : 0 < 2 ^ n := Nat.two_pow_pos n
  have hval : ((1#64 <<< n) - 1#64).toNat = 2 ^ n - 1 := by
    rw [BitVec.toNat_sub, BitVec.toNat_shiftLeft, BitVec.toNat_ofNat, Nat.shiftLeft_eq]
    simp only [Nat.one_mod_two_pow_eq_one.mpr (by decide : 0 < 64), one_mul]
    rw [Nat.mod_eq_of_lt hpow]
    omega
  rw [BitVec.getLsbD, hval, Nat.testBit_two_pow_sub_one]

theorem wordMask_getLsbD {i0 i1 i : ℕ} (h : i0 ≤ i1) (h1 : i1 < 64) (hi : i < 64) :
    (wordMask i0 i1).getLsbD i = decide (i0 ≤ i ∧ i ≤ i1) := by
  unfold wordMask
  split
  · rw [BitVec.getLsbD_shiftLeft, BitVec.getLsbD_allOnes]
    simp only [hi, decide_true, Bool.true_and]
    rw [← decide_not, ← Bool.decide_and, decide_eq_decide]
    omega
  · rw [BitVec.getLsbD_shiftLeft, getLsbD_onesBelow (by omega)]
    simp only [hi, decide_true, Bool.true_and]
    rw [← decide_not, ← Bool.decide_and, decide_eq_decide]
    omega

theorem bitOf_orWord (bits : Words) (w : ℕ) (mask : BitVec 64) (blk : ℕ) :
    bitOf (orWord bits (w, mask)) blk =
      (bitOf bits blk || (decide (blk / 64 = w) && mask.getLsbD (blk % 64))) := by
  unfold bitOf orWord
  by_cases hw : blk / 64 = w
  · simp [hw]
  · simp [hw]

theorem bitOf_round {bHi b : ℕ} (hb : b ≤ bHi) (hHi : bHi < 2 ^ 32) (bits : Words) (blk : ℕ) :
    bitOf (orWord bits (b / 64, wordMask (b % 64)
        (if (bHi + 2 ^ 32 - b / 64 * 64) % 2 ^ 32 < 63 then
          (bHi + 2 ^ 32 - b / 64 * 64) % 2 ^ 32 else 63))) blk =
      (bitOf bits blk || decide (b ≤ blk ∧ blk ≤ bHi ∧ blk < (b / 64 + 1) * 64)) := by
  have hleft : (bHi + 2 ^ 32 - b / 64 * 64) % 2 ^ 32 = bHi - b / 64 * 64 := by omega
  rw [hleft, bitOf_orWord]
  congr 1
  rw [wordMask_getLsbD (by split <;> omega) (by split <;> omega) (Nat.mod_lt _ (by decide)),
    ← Bool.decide_and, decide_eq_decide]
  split <;> omega

/-! ### The loop -/

theorem markLoop_eq_ok {alloc bHi fuel b : ℕ} {bits bits' : Words} (halloc : alloc < 2 ^ 26)
    (hHi : bHi < 2 ^ 32) (h : markLoop alloc bHi fuel b bits = .ok bits') (blk : ℕ) :
    bitOf bits' blk = (bitOf bits blk || decide (b ≤ blk ∧ blk ≤ bHi)) := by
  induction fuel generalizing b bits with
  | zero => cases h
  | succ fuel ih =>
    unfold markLoop at h
    split at h
    · rename_i hdone
      obtain rfl := Except.ok.inj h
      have hno : ¬ (b ≤ blk ∧ blk ≤ bHi) := by omega
      simp [hno]
    · rename_i hb
      dsimp only at h
      split at h
      · cases h
      · rename_i hw
        rw [not_le] at hw
        have hnext : (b / 64 + 1) * 64 % 2 ^ 32 = (b / 64 + 1) * 64 :=
          Nat.mod_eq_of_lt (by omega)
        rw [ih h, bitOf_round (not_lt.mp hb) hHi, hnext, Bool.or_assoc, ← Bool.decide_or]
        congr 1
        rw [decide_eq_decide]
        omega

theorem markLoop_ends {alloc bHi : ℕ} (halloc : alloc < 2 ^ 26) (hlast : bHi / 64 < alloc)
    (fuel b : ℕ) (hpos : 0 < fuel) (hfuel : bHi / 64 + 1 < fuel + b / 64) (bits : Words) :
    ∃ bits', markLoop alloc bHi fuel b bits = .ok bits' := by
  induction fuel generalizing b bits with
  | zero => omega
  | succ fuel ih =>
    unfold markLoop
    split
    · exact ⟨bits, rfl⟩
    · rename_i hb
      dsimp only
      rw [if_neg (by omega)]
      have hnext : (b / 64 + 1) * 64 % 2 ^ 32 = (b / 64 + 1) * 64 := Nat.mod_eq_of_lt (by omega)
      rw [hnext]
      apply ih
      · omega
      · omega

theorem markLoop_leaves {alloc bHi : ℕ} (hHi : bHi < 2 ^ 32) (hlast : alloc ≤ bHi / 64)
    (fuel b : ℕ) (hb : b ≤ bHi) (bits bits' : Words) :
    markLoop alloc bHi fuel b bits ≠ .ok bits' := by
  induction fuel generalizing b bits with
  | zero =>
    intro h
    cases h
  | succ fuel ih =>
    unfold markLoop
    rw [if_neg (by omega)]
    dsimp only
    split
    · intro h
      cases h
    · have hnext : (b / 64 + 1) * 64 % 2 ^ 32 = (b / 64 + 1) * 64 := Nat.mod_eq_of_lt (by omega)
      rw [hnext]
      apply ih
      omega

/-! ### The blocks of a range -/

theorem allocWords_lt (geo : Geometry) : geo.allocWords < 2 ^ 26 := by
  unfold Geometry.allocWords Geometry.nWords
  split <;> omega

theorem allocWords_eq (geo : Geometry) :
    geo.allocWords = if 0 < geo.nBlocks ∧ geo.nBlocks + 63 < 2 ^ 32 then (geo.nBlocks + 63) / 64
      else 1 := by
  have hlt : geo.nBlocks < 2 ^ 32 := Nat.mod_lt _ (by decide)
  unfold Geometry.allocWords Geometry.nWords
  split <;> split <;> omega

/-- The last byte of a write that is in the tracked memory. -/
def lastByte (geo : Geometry) (addr size : ℕ) : ℕ := min (addr + size) geo.memBytes - 1

/-- The write has no byte in the memory, or: the block of its last byte there is one of the
whole blocks that were counted, the bitmap was allocated for that block, and if the end of
the write wraps around then the wrapped end does not lie in an earlier block. -/
def Covered (geo : Geometry) (addr size : ℕ) : Prop :=
  geo.memBytes ≤ addr ∨ size = 0 ∨
    (lastByte geo addr size / geo.blkBytes < geo.nBlocks ∧
      (geo.nBlocks + 63 < 2 ^ 32 ∨ lastByte geo addr size / geo.blkBytes < 64) ∧
      (addr + size < 2 ^ 64 ∨ lastByte geo addr size / geo.blkBytes ≤
        (addr + size - 1) % 2 ^ 64 / geo.blkBytes % 2 ^ 32))

instance (geo : Geometry) (addr size : ℕ) : Decidable (Covered geo addr size) :=
  inferInstanceAs (Decidable (_ ∨ _ ∨ _ ∧ _ ∧ _))

/-- The bit of the byte's block is in the bitmap, and set. -/
def Dirty (geo : Geometry) (bits : Words) (x : ℕ) : Prop :=
  x / geo.blkBytes / 64 < geo.allocWords ∧ bitOf bits (x / geo.blkBytes) = true

/-- The mark ends without leaving the bitmap, and every byte of the write that is in the
memory is dirty afterwards. -/
def Marks (geo : Geometry) (addr size : ℕ) (bits : Words) : Prop :=
  ∃ fuel bits', markRange geo fuel addr size bits = .ok bits' ∧
    ∀ x, addr ≤ x → x < addr + size → x < geo.memBytes → Dirty geo bits' x

theorem blockRange_of_inside {geo : Geometry} {addr size : ℕ} (h : ¬ geo.memBytes ≤ addr)
    (hs : size ≠ 0) (haddr : addr < 2 ^ 64) (hsize : size < 2 ^ 64) :
    ∃ last, blockRange geo addr size =
        some (addr / geo.blkBytes % 2 ^ 32,
          if geo.nBlocks ≤ last then (geo.nBlocks + 2 ^ 32 - 1) % 2 ^ 32 else last) ∧
      last = (if addr + size < 2 ^ 64 then lastByte geo addr size else (addr + size - 1) % 2 ^ 64) /
        geo.blkBytes % 2 ^ 32 := by
  have hmem := geo.mem_lt
  have hpos := geo.mem_pos
  refine ⟨_, ?_, rfl⟩
  unfold blockRange lastByte
  rw [if_neg (by omega)]
  have hstop : ((if geo.memBytes < (addr + size) % 2 ^ 64 then geo.memBytes
      else (addr + size) % 2 ^ 64) + 2 ^ 64 - 1) % 2 ^ 64 =
      if addr + size < 2 ^ 64 then min (addr + size) geo.memBytes - 1
      else (addr + size - 1) % 2 ^ 64 := by
    split <;> split <;> omega
  simp only [hstop]

/-- A mark of the blocks `bLo` to `bHi` is complete if the last byte's block is among them and
the last word is in the bitmap. -/
theorem marks_iff_of_blockRange {geo : Geometry} {addr size bHi : ℕ} (h : ¬ geo.memBytes ≤ addr)
    (hs : size ≠ 0) (hHi : bHi < 2 ^ 32)
    (hrange : blockRange geo addr size = some (addr / geo.blkBytes % 2 ^ 32, bHi)) :
    (∀ bits, Marks geo addr size bits) ↔
      lastByte geo addr size / geo.blkBytes ≤ bHi ∧ bHi / 64 < geo.allocWords := by
  have halloc := allocWords_lt geo
  have hmem : addr ≤ lastByte geo addr size := by
    unfold lastByte
    omega
  have hblk := Nat.div_le_div_right hmem (c := geo.blkBytes)
  constructor
  · intro hall
    obtain ⟨fuel, bits', hrun, hdirty⟩ := hall fun _ => 0#64
    obtain ⟨hin, hbit⟩ := hdirty (lastByte geo addr size) hmem (by unfold lastByte; omega)
      (by unfold lastByte; omega)
    unfold markRange at hrun
    rw [hrange] at hrun
    dsimp only at hrun
    rw [markLoop_eq_ok halloc hHi hrun] at hbit
    have hzero : bitOf (fun _ => 0#64) (lastByte geo addr size / geo.blkBytes) = false := by
      simp [bitOf]
    rw [hzero, Bool.false_or, decide_eq_true_eq] at hbit
    refine ⟨hbit.2, ?_⟩
    by_contra hlast
    exact markLoop_leaves hHi (not_lt.mp hlast) fuel _ (hbit.1.trans hbit.2) _ _ hrun
  · rintro ⟨hle, hlast⟩ bits
    obtain ⟨bits', hrun⟩ := markLoop_ends halloc hlast (bHi / 64 + 2)
      (addr / geo.blkBytes % 2 ^ 32) (by omega) (by omega) bits
    refine ⟨bHi / 64 + 2, bits', ?_, ?_⟩
    · unfold markRange
      rw [hrange]
      exact hrun
    · intro x hx hxs hxm
      have hxl : x ≤ lastByte geo addr size := by
        unfold lastByte
        omega
      have hlo := Nat.div_le_div_right hx (c := geo.blkBytes)
      have hhi := Nat.div_le_div_right hxl (c := geo.blkBytes)
      have hblock : addr / geo.blkBytes % 2 ^ 32 ≤ x / geo.blkBytes := (Nat.mod_le _ _).trans hlo
      refine ⟨by omega, ?_⟩
      rw [markLoop_eq_ok halloc hHi hrun]
      rw [decide_eq_true ⟨hblock, hhi.trans hle⟩, Bool.or_true]

/-- For every memory and block size that `bt_create` accepts and every 64-bit address and
size: marking a write ends, stays in the bitmap and makes every byte of the write in the
memory dirty, from whatever bitmap it starts, if and only if the write is `Covered`.
SOURCE: btrack.c:39-53, 88-114 -/
theorem markRange_marks_iff (geo : Geometry) (addr size : UInt64) :
    (∀ bits, Marks geo addr.toNat size.toNat bits) ↔ Covered geo addr.toNat size.toNat := by
  have haddr := addr.toNat_lt
  have hsize := size.toNat_lt
  generalize addr.toNat = addr at *
  generalize size.toNat = size at *
  by_cases hout : geo.memBytes ≤ addr ∨ size = 0
  · have hnone : blockRange geo addr size = none := if_pos hout
    refine iff_of_true (fun bits => ⟨0, bits, ?_, ?_⟩) (or_assoc.mp (.inl hout))
    · unfold markRange
      rw [hnone]
    · intro x hx hxs hxm
      omega
  · rw [not_or] at hout
    obtain ⟨last, hrange, hlast⟩ := blockRange_of_inside hout.1 hout.2 haddr hsize
    have hn : geo.nBlocks < 2 ^ 32 := Nat.mod_lt _ (by decide)
    have hlast32 : last < 2 ^ 32 := hlast ▸ Nat.mod_lt _ (by decide)
    rw [marks_iff_of_blockRange hout.1 hout.2 (by split <;> omega) hrange, allocWords_eq]
    unfold Covered
    rw [or_iff_right hout.1, or_iff_right hout.2]
    -- the wrapped end lies before the start, so the last byte is the last one of the memory
    by_cases hwrap : addr + size < 2 ^ 64
    · rw [if_pos hwrap] at hlast
      simp only [hwrap, true_or, and_true]
      generalize lastByte geo addr size / geo.blkBytes = l at *
      split <;> split <;> omega
    · rw [if_neg hwrap] at hlast
      rw [← hlast, or_iff_right hwrap]
      have hbyte : lastByte geo addr size = geo.memBytes - 1 := by
        have := geo.mem_lt
        unfold lastByte
        omega
      have hcount : geo.nBlocks ≤ lastByte geo addr size / geo.blkBytes + 1 := by
        have hle : geo.nBlocks ≤ geo.memBytes / geo.blkBytes := Nat.mod_le _ _
        have hdiv := Nat.div_le_div_right (c := geo.blkBytes)
          (show geo.memBytes ≤ lastByte geo addr size + geo.blkBytes by
            have := geo.blk_pos
            omega)
        rw [Nat.add_div_right _ geo.blk_pos] at hdiv
        exact hle.trans hdiv
      generalize lastByte geo addr size / geo.blkBytes = l at *
      split <;> split <;> omega

/-- A memory of 100 bytes in blocks of 64: a write to the last 36 bytes ends at once and leaves
no bit behind. -/
theorem tail_not_marked :
    ∃ geo : Geometry, geo.memBytes = 100 ∧ geo.blkBytes = 64 ∧
      (∀ bits, markRange geo 1 64 36 bits = .ok bits) ∧
      ¬ ∀ bits, Marks geo 64 36 bits := by
  refine ⟨⟨100, 64, by decide, by decide, by decide, by decide⟩, rfl, rfl, fun bits => rfl, ?_⟩
  intro h
  have hrange : blockRange ⟨100, 64, by decide, by decide, by decide, by decide⟩ 64 36 =
      some (64 / 64 % 2 ^ 32, 0) := by decide
  have hle := ((marks_iff_of_blockRange (by decide) (by decide) (by decide) hrange).mp h).1
  exact absurd hle (by decide)

end Gehtp.Analysis.BtrackMark
