import Gehtp.Lib.Bytes

/-!
# Fields of a word

A word of 32 bits that is put together of a high and a low field gives both back, by a shift and by
a mask. A mask that clears the low bits rounds down, and a single bit is read as a digit.
-/

set_option autoImplicit false

namespace Gehtp.Lib.WordFields

/-- The field `hi` above the `s` bits of `lo`. -/
def pack (s hi lo : UInt32) : UInt32 := (hi <<< s) ||| lo

/-- The fields fit into the word. -/
structure Fits (s hi lo : UInt32) : Prop where
  shift : s.toNat < 32
  low : lo.toNat < 2 ^ s.toNat
  high : hi.toNat * 2 ^ s.toNat < 2 ^ 32

variable {s hi lo : UInt32}

theorem toNat_pack (h : Fits s hi lo) :
    (pack s hi lo).toNat = hi.toNat * 2 ^ s.toNat + lo.toNat := by
  have hor := lor_shiftLeft lo.toNat hi.toNat s.toNat h.low
  rw [Nat.shiftLeft_eq] at hor
  rw [pack, UInt32.toNat_or, UInt32.toNat_shiftLeft, Nat.mod_eq_of_lt h.shift, Nat.shiftLeft_eq,
    Nat.mod_eq_of_lt h.high, Nat.or_comm, hor, Nat.add_comm]

theorem toNat_shiftRight {w s : UInt32} (hs : s.toNat < 32) :
    (w >>> s).toNat = w.toNat / 2 ^ s.toNat := by
  rw [UInt32.toNat_shiftRight, Nat.mod_eq_of_lt hs, Nat.shiftRight_eq_div_pow]

theorem toNat_mask {w mask : UInt32} {k : ℕ} (hmask : mask.toNat = 2 ^ k - 1) :
    (w &&& mask).toNat = w.toNat % 2 ^ k := by
  rw [UInt32.toNat_and, hmask, Nat.and_two_pow_sub_one_eq_mod]

theorem pack_high (h : Fits s hi lo) : pack s hi lo >>> s = hi := by
  apply UInt32.toNat_inj.mp
  rw [toNat_shiftRight h.shift, toNat_pack h, Nat.mul_comm, Nat.mul_add_div (Nat.two_pow_pos _),
    Nat.div_eq_of_lt h.low, Nat.add_zero]

theorem pack_low (h : Fits s hi lo) {mask : UInt32} (hmask : mask.toNat = 2 ^ s.toNat - 1) :
    pack s hi lo &&& mask = lo := by
  apply UInt32.toNat_inj.mp
  rw [toNat_mask hmask, toNat_pack h, Nat.mul_comm, Nat.mul_add_mod, Nat.mod_eq_of_lt h.low]

theorem toNat_clear {w mask : UInt32} {k : ℕ} (hk : k ≤ 32) (hmask : mask.toNat = 2 ^ k - 1) :
    (w &&& ~~~mask).toNat = w.toNat / 2 ^ k * 2 ^ k := by
  have hpos := Nat.two_pow_pos k
  have hle : 2 ^ k ≤ 2 ^ 32 := Nat.pow_le_pow_right (by decide) hk
  have hnot : (~~~mask).toNat = 2 ^ 32 - 2 ^ k := by
    rw [UInt32.toNat_not, hmask]
    show 2 ^ 32 - 1 - (2 ^ k - 1) = _
    omega
  rw [UInt32.toNat_and, hnot, and_high_bits w.toNat_lt hk]

theorem toNat_bit {w mask : UInt32} {k : ℕ} (hmask : mask.toNat = 2 ^ k) :
    (w &&& mask).toNat = w.toNat / 2 ^ k % 2 * 2 ^ k := by
  rw [UInt32.toNat_and, hmask, Nat.and_two_pow, Nat.testBit_eq_decide_div_mod_eq]
  rcases Nat.mod_two_eq_zero_or_one (w.toNat / 2 ^ k) with h | h <;> rw [h] <;> rfl

end Gehtp.Lib.WordFields
