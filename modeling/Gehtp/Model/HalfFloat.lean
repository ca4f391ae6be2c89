import Gehtp.Lib.Bytes

/-!
# Half precision

The emitter, the device and the constant folder each convert between the 32-bit and the 16-bit
patterns of floating-point numbers by hand: `f32_to_f16_rne` and `f16_to_f32`
(`compiler/tools/wtop_ops/wtop_ops.hpp`), `f32_to_f16` and `f16_to_f32`
(`kernels/src/runtime/oplist_exec.c`), `narrow_f16` and `widen_const`
(`compiler/src/opt/pass_const_fold.cpp`). A pattern is a number below `2 ^ 32` or `2 ^ 16`. A shift of
a 32-bit word by 32 and more is undefined in the source; the conversion then has no result.
-/

set_option autoImplicit false

namespace Gehtp.Model.HalfFloat

open Lib

/-! ### Fields -/

/-- The sign of a single, at the place of a half's sign. -/
def signOf (u : ℕ) : ℕ := (u >>> 16) &&& 0x8000

def expOf (u : ℕ) : ℕ := (u >>> 23) &&& 0xFF

def mantOf (u : ℕ) : ℕ := u &&& 0x7FFFFF

/-- The cast to `uint16_t`. -/
def u16 (n : ℕ) : ℕ := n % 2 ^ 16

/-- What the bits that are shifted out add: one, if they are more than half of a unit or half of it
next to an odd number. -/
def carry (half rem mid : ℕ) : ℕ := if mid < rem ∨ rem = mid ∧ half &&& 1 ≠ 0 then 1 else 0

/-! ### From 32 to 16 bits -/

/-- The shift of a fraction with its leading one into the subnormal halves, rounded. -/
def shiftRne (mant shift : ℕ) : ℕ :=
  (mant >>> shift) +
    carry (mant >>> shift) (mant &&& ((1 <<< shift) - 1)) (1 <<< (shift - 1))

/-- SOURCE: wtop_ops.hpp:54-58 -/
def normalRne (sign mant : ℕ) (exp : ℤ) : ℕ :=
  let half := (mant >>> 13) &&& 0x3FF
  let half := half + carry half (mant &&& 0x1FFF) 0x1000
  let exp := if half = 0x400 then exp + 1 else exp
  let half := if half = 0x400 then 0 else half
  if 31 ≤ exp then sign ||| 0x7C00 else sign ||| (exp.toNat <<< 10) ||| half

/-- SOURCE: wtop_ops.hpp, f32_to_f16_rne -/
def f32ToF16Rne (u : ℕ) : ℕ :=
  let exp : ℤ := (expOf u : ℤ) - 127 + 15
  if expOf u = 0xFF then u16 (signOf u ||| 0x7C00 ||| if mantOf u ≠ 0 then 0x200 else 0)
  else if expOf u = 0 then u16 (signOf u)
  else if 31 ≤ exp then u16 (signOf u ||| 0x7C00)
  else if exp ≤ 0 then
    if exp < -10 then u16 (signOf u)
    else u16 (signOf u ||| shiftRne (mantOf u ||| 0x800000) (14 - exp).toNat)
  else u16 (normalRne (signOf u) (mantOf u) exp)

/-- SOURCE: oplist_exec.c:415-417 -/
def deviceNormal (sign man : ℕ) (exp : ℤ) : ℕ :=
  let half := sign ||| (exp.toNat <<< 10) ||| (man >>> 13)
  if (man >>> 12) &&& 1 ≠ 0 then
    half + if man &&& 0xFFF ≠ 0 ∨ half &&& 1 ≠ 0 then 1 else 0
  else half

/-- SOURCE: oplist_exec.c, f32_to_f16 -/
def deviceF32ToF16 (x : ℕ) : ℕ :=
  let exp : ℤ := (expOf x : ℤ) - 127 + 15
  if expOf x = 0xFF then u16 (signOf x ||| 0x7C00)
  else if 31 ≤ exp then u16 (signOf x ||| 0x7C00)
  else if exp ≤ 0 then
    if exp < -10 then u16 (signOf x)
    else u16 (signOf x ||| shiftRne (mantOf x ||| 0x800000) (14 - exp).toNat)
  else u16 (deviceNormal (signOf x) (mantOf x) exp)

/-- SOURCE: pass_const_fold.cpp:38-46 -/
def narrowNormal (sign mant exp : ℕ) : ℕ :=
  -- the difference wraps around and back for an exponent below 127
  let e := exp + 15 - 127
  let m := mant >>> 13
  let m' := m + carry m (mant &&& 0x1FFF) 0x1000
  let e := if m' = 0x400 then e + 1 else e
  let m' := if m' = 0x400 then 0 else m'
  sign ||| (e <<< 10) ||| m'

/-- SOURCE: pass_const_fold.cpp:49-55 -/
def narrowSubnormal (sign mant exp : ℕ) : Option ℕ :=
  let shift := 127 - 14 - exp + 1
  if 32 ≤ 13 + shift then none
  else
    let m := shiftRne (mant ||| 0x800000) (13 + shift)
    some (sign ||| if 0x400 ≤ m then 0x3FF else m)

/-- SOURCE: pass_const_fold.cpp, narrow_f16 -/
def narrowF16 (u : ℕ) : Option ℕ :=
  if expOf u = 0xFF then some (u16 (signOf u ||| 0x7C00 ||| if mantOf u ≠ 0 then 0x200 else 0))
  else if 127 + 15 < expOf u then some (u16 (signOf u ||| 0x7C00))
  else if 127 - 14 + 1 ≤ expOf u then some (u16 (narrowNormal (signOf u) (mantOf u) (expOf u)))
  else (narrowSubnormal (signOf u) (mantOf u) (expOf u)).map u16

/-! ### From 16 to 32 bits -/

/-- The loop that moves the leading one of a fraction to its place, counting the steps by `step`. -/
def normalizeMant (step : ℤ) : ℕ → ℕ → ℤ → Option (ℕ × ℤ)
  | 0, _, _ => none
  | fuel + 1, mant, e =>
    if mant &&& 0x400 ≠ 0 then some (mant, e) else normalizeMant step fuel (mant <<< 1) (e + step)

/-- The conversion to 32 bits, the exponent of a subnormal half being `field` of the counter. -/
def widen (step : ℤ) (field : ℤ → ℤ) (h : ℕ) : Option ℕ :=
  let sign := (h &&& 0x8000) <<< 16
  let exp := (h >>> 10) &&& 0x1F
  let mant := h &&& 0x3FF
  if exp = 0 then
    if mant = 0 then some sign
    else
      (normalizeMant step 11 mant (-1)).map fun r =>
        sign ||| ((field r.2).toNat <<< 23) ||| ((r.1 &&& 0x3FF) <<< 13)
  else if exp = 31 then some (sign ||| 0x7F800000 ||| (mant <<< 13))
  else some (sign ||| ((exp + 127 - 15) <<< 23) ||| (mant <<< 13))

/-- SOURCE: wtop_ops.hpp, f16_to_f32 -/
def f16ToF32 (h : ℕ) : Option ℕ := widen (-1) (fun e => 114 + e) h

/-- SOURCE: oplist_exec.c, f16_to_f32 -/
def deviceF16ToF32 (h : ℕ) : Option ℕ := widen 1 (fun e => 127 - 15 + 1 - e - 1) h

/-! ### Folding a constant -/

/-- The half at place `i` of a constant's bytes. -/
def halfAt (data : List UInt8) (i : ℕ) : ℕ :=
  (u16OfBytes (data.getD (2 * i) 0) (data.getD (2 * i + 1) 0)).toNat

/-- A constant of halves in 32 bits. SOURCE: pass_const_fold.cpp, widen_const -/
def widenConst (data : List UInt8) : Option (List ℕ) :=
  (List.range (data.length / 2)).mapM fun i => widen (-1) (fun e => 114 + e) (halfAt data i)

/-- The output in 16 bits. SOURCE: pass_const_fold.cpp:173-177 -/
def narrowOut (out : List ℕ) : Option (List UInt8) :=
  (out.mapM narrowF16).map fun hs => hs.flatMap fun h => u16le (UInt16.ofNat h)

/-- Folding an operator that moves elements: the element `i` of the output is the one at `moves[i]`
in the constant. SOURCE: pass_const_fold.cpp, rewrite -/
def foldMoved (data : List UInt8) (moves : List ℕ) : Option (List UInt8) :=
  (widenConst data).bind fun buf => narrowOut (moves.map fun i => buf.getD i 0)

end Gehtp.Model.HalfFloat
