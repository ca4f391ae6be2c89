import Gehtp.Lib.Strips

/-!
# Tiles of a convolution

`compute_conv_tiles` (`compiler/src/tiling/conv_tiling.cpp`) divides the output of a convolution into
tiles: strips of channels, of rows and of columns, one loop in the other. Each tile comes with the
window of the input that it needs, cut off at the borders of the input. The counters are 32-bit
numbers; the window is computed in signed 64-bit numbers, and an overflow of these is undefined.
-/

set_option autoImplicit false

namespace Gehtp.Model.ConvTiling

open Lib Lib.Strips

/-- The arguments. -/
structure ConvArgs where
  inH : UInt32
  inW : UInt32
  cin : UInt32
  outH : UInt32
  outW : UInt32
  cout : UInt32
  kh : UInt32
  kw : UInt32
  sh : UInt32
  sw : UInt32
  phBegin : UInt32
  pwBegin : UInt32
  tileH : UInt32
  tileW : UInt32
  coPerTile : UInt32
  deriving DecidableEq, Repr

/-- SOURCE: conv_tiling.hpp, ConvTileDesc -/
structure ConvTileDesc where
  outY0 : ℕ
  outX0 : ℕ
  outH : ℕ
  outW : ℕ
  inY0 : ℕ
  inX0 : ℕ
  inH : ℕ
  inW : ℕ
  kh : ℕ
  kw : ℕ
  sh : ℕ
  sw : ℕ
  phBegin : ℕ
  pwBegin : ℕ
  ci : ℕ
  co : ℕ
  co0 : ℕ
  coN : ℕ
  blockRef : ℕ
  deriving DecidableEq, Repr

/-- The counters of the loops are below it. -/
def W : ℕ := 2 ^ 32

def i64 (z : ℤ) : Checked String ℤ :=
  if -2 ^ 63 ≤ z ∧ z < 2 ^ 63 then .ok z else .error .fault

/-- The cast to `uint32_t`. -/
def toU32 (z : ℤ) : ℕ := (z % 2 ^ 32).toNat

/-- Start and size of the window of a strip of `size` outputs from `start`, along one axis with stride
`s`, padding `p`, kernel size `k` and input size `inD`. SOURCE: conv_tiling.cpp:34-42 -/
def halo (start size s p k inD : ℕ) : Checked String (ℕ × ℕ) := do
  let first ← i64 (start * s)
  let r0 ← i64 (first - p)
  let span ← i64 (((size - 1 : ℕ) : ℤ) * s)
  let last ← i64 (r0 + span)
  let r1 ← i64 (last + k)
  let r0 := max r0 0
  let r1 := min r1 inD
  .ok (toU32 r0, toU32 (max (r1 - r0) 0))

section

variable (a : ConvArgs)

/-- SOURCE: conv_tiling.cpp:18-22 -/
def tileRows : ℕ := if 0 < a.tileH.toNat then a.tileH.toNat else a.outH.toNat

def tileCols : ℕ := if 0 < a.tileW.toNat then a.tileW.toNat else a.outW.toNat

def strideH : ℕ := if a.sh.toNat = 0 then 1 else a.sh.toNat

def strideW : ℕ := if a.sw.toNat = 0 then 1 else a.sw.toNat

def coStep : ℕ :=
  if 0 < a.coPerTile.toNat ∧ a.coPerTile.toNat < a.cout.toNat then a.coPerTile.toNat
  else a.cout.toNat

/-- The tile of a strip of channels, of rows and of columns. SOURCE: conv_tiling.cpp:31-48 -/
def tileOf (c y x : ℕ × ℕ) : Checked String ConvTileDesc := do
  let rows ← halo y.1 y.2 (strideH a) a.phBegin.toNat a.kh.toNat a.inH.toNat
  let cols ← halo x.1 x.2 (strideW a) a.pwBegin.toNat a.kw.toNat a.inW.toNat
  .ok {
    outY0 := y.1, outX0 := x.1, outH := y.2, outW := x.2
    inY0 := rows.1, inX0 := cols.1, inH := rows.2, inW := cols.2
    kh := a.kh.toNat, kw := a.kw.toNat, sh := strideH a, sw := strideW a
    phBegin := a.phBegin.toNat, pwBegin := a.pwBegin.toNat
    ci := a.cin.toNat, co := a.cout.toNat, co0 := c.1, coN := c.2, blockRef := 0 }

/-- SOURCE: conv_tiling.cpp:30-50 -/
def columnLoop (fuel : ℕ) (c y : ℕ × ℕ) : Checked String (List ConvTileDesc) :=
  forStrips W (tileCols a) a.outW.toNat (fun x => (tileOf a c y x).map ([·])) fuel 0

/-- SOURCE: conv_tiling.cpp:28-51 -/
def rowLoop (fuel : ℕ) (c : ℕ × ℕ) : Checked String (List ConvTileDesc) :=
  forStrips W (tileRows a) a.outH.toNat (columnLoop a fuel c) fuel 0

/-- SOURCE: conv_tiling.cpp, compute_conv_tiles -/
def computeConvTiles (fuel : ℕ) : Checked String (List ConvTileDesc) :=
  if a.outH.toNat = 0 ∨ a.outW.toNat = 0 then .ok []
  else forStrips W (coStep a) a.cout.toNat (rowLoop a fuel) fuel 0

end

end Gehtp.Model.ConvTiling
