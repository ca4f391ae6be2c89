import Gehtp.Lib.Strips

/-!
# Tiles of a matrix product

`matmul_tile_shape` (`compiler/src/tiling/tiling_rule.cpp`) divides the output of a matrix product into
tiles that are to fit a budget. It makes the tiles narrower and then lower until their working set is
in the budget or they are no larger than the alignment, and then goes over the output with two loops.
Sizes and counters are 32-bit numbers, working sets 64-bit ones.
-/

set_option autoImplicit false

namespace Gehtp.Model.TilingRule

open Lib Lib.Strips

/-- SOURCE: tiling_rule.hpp, OpShape. The members of a convolution are left out. -/
structure OpShape where
  M : UInt32
  N : UInt32
  K : UInt32
  weightBits : UInt32
  deriving DecidableEq, Repr

/-- SOURCE: tiling_rule.hpp, TileBudget -/
structure TileBudget where
  vtcmTileSize : UInt64
  align : UInt32
  deriving DecidableEq, Repr

/-- SOURCE: tiling_rule.hpp, OutputTile -/
structure OutputTile where
  m0 : ℕ
  m1 : ℕ
  n0 : ℕ
  n1 : ℕ
  c0 : ℕ
  c1 : ℕ
  workingSet : ℕ
  deriving DecidableEq, Repr

/-- SOURCE: tiling_rule.hpp, TilingPlan -/
structure TilingPlan where
  op : String
  tiled : Bool
  tiles : List OutputTile
  maxWorkingSet : ℕ
  fitsBudget : Bool
  deriving DecidableEq, Repr

/-- The sizes and counters are below it. -/
def W : ℕ := 2 ^ 32

/-- The working sets are below it. -/
def V : ℕ := 2 ^ 64

/-- What a tile of `mt` rows and `nt` columns takes: its rows of the one matrix, its columns of the
other and its outputs. SOURCE: tiling_rule.cpp:12-17, matmul_ws -/
def matmulWs (mt nt k wbits : ℕ) : ℕ :=
  let a := mt * k * 2 % V
  let b := nt * k * wbits % V / 8
  let c := mt * nt * 2 % V
  (a + b + c) % V

/-- SOURCE: tiling_rule.cpp:29 -/
def down (align v : ℕ) : ℕ := if align < v then v - align else align

/-- `while (v > align && ws(v) > budget) v = down(v)` -/
def shrink (align budget : ℕ) (ws : ℕ → ℕ) : ℕ → ℕ → Checked String ℕ
  | 0, _ => .error .hang
  | fuel + 1, v =>
    if align < v ∧ budget < ws v then shrink align budget ws fuel (down align v) else .ok v

section

variable (s : OpShape) (b : TileBudget)

/-- SOURCE: tiling_rule.cpp:23 -/
def alignOf : ℕ := if 0 < b.align.toNat then b.align.toNat else 32

/-- The columns of the tiles. SOURCE: tiling_rule.cpp:27-30 -/
def tileCols (fuel : ℕ) : Checked String ℕ :=
  if 0 < b.vtcmTileSize.toNat then
    shrink (alignOf b) b.vtcmTileSize.toNat
      (fun nt => matmulWs s.M.toNat nt s.K.toNat s.weightBits.toNat) fuel s.N.toNat
  else .ok s.N.toNat

/-- The rows of the tiles. SOURCE: tiling_rule.cpp:27-31 -/
def tileRows (fuel nt : ℕ) : Checked String ℕ :=
  if 0 < b.vtcmTileSize.toNat then
    shrink (alignOf b) b.vtcmTileSize.toNat
      (fun mt => matmulWs mt nt s.K.toNat s.weightBits.toNat) fuel s.M.toNat
  else .ok s.M.toNat

/-- The tile that starts in row `m0` and column `n0`. SOURCE: tiling_rule.cpp:37-42 -/
def tileAt (mt nt m0 n0 : ℕ) : OutputTile :=
  let m1 := min s.M.toNat ((m0 + mt) % W)
  let n1 := min s.N.toNat ((n0 + nt) % W)
  { m0 := m0, m1 := m1, n0 := n0, n1 := n1, c0 := 0, c1 := 0
    workingSet := matmulWs ((W + m1 - m0) % W) ((W + n1 - n0) % W) s.K.toNat s.weightBits.toNat }

/-- SOURCE: tiling_rule.cpp:36-46 -/
def tileGrid (fuel mt nt : ℕ) : Checked String (List OutputTile) :=
  forStrips W mt s.M.toNat
    (fun m => forStrips W nt s.N.toNat (fun n => .ok [tileAt s mt nt m.1 n.1]) fuel 0) fuel 0

/-- The largest working set. SOURCE: tiling_rule.cpp:35, 43 -/
def maxWs (tiles : List OutputTile) : ℕ := tiles.foldl (fun w t => max w t.workingSet) 0

/-- SOURCE: tiling_rule.cpp, matmul_tile_shape -/
def matmulTileShape (fuel : ℕ) : Checked String TilingPlan :=
  if s.M.toNat = 0 ∨ s.N.toNat = 0 ∨ s.K.toNat = 0 then
    .ok { op := "matmul", tiled := false, tiles := [], maxWorkingSet := 0, fitsBudget := false }
  else do
    let nt ← tileCols s b fuel
    let mt ← tileRows s b fuel nt
    let tiles ← tileGrid s fuel mt nt
    .ok {
      op := "matmul", tiled := decide (1 < tiles.length), tiles := tiles
      maxWorkingSet := maxWs tiles
      fitsBudget := decide (b.vtcmTileSize.toNat = 0 ∨ maxWs tiles ≤ b.vtcmTileSize.toNat) }

end

end Gehtp.Model.TilingRule
