import Gehtp.Lib.Cuts
import Gehtp.Model.OpGraph

/-!
# The tilers of convolutions and matrix products

`ConvTiler` and `MatMulTiler` (`compiler/src/tiling/tiler.cpp`) cut two axes of an output into as many
pieces as the configuration says. All pieces of an axis have the rounded up size, except the last one,
which gets what is left. Sizes, counts and products are 32-bit numbers.
-/

set_option autoImplicit false

namespace Gehtp.Model.Tiler

open Lib.Cuts Model.OpGraph

/-- The entries of `dims` behind the rank are 0 and left out. SOURCE: tiler.hpp, TileShape -/
structure TileShape where
  dims : List ℕ
  rank : ℕ
  deriving DecidableEq, Repr

/-- SOURCE: tiler.hpp, TileInfo -/
structure TileInfo where
  shape : TileShape
  nspId : ℕ
  vtcmOffset : ℕ
  ddrOffset : ℕ
  isContiguous : Bool
  needsDma : Bool
  deriving DecidableEq, Repr

/-- The counts that the two tilers read. SOURCE: tiler.hpp, TilingConfig -/
structure TilingConfig where
  convWidthTiling : UInt32
  convHeightTiling : UInt32
  deriving DecidableEq, Repr

/-- The numbers are below it. -/
def W : ℕ := 2 ^ 32

/-- `x > 0 ? x : d` -/
def countOr (x : UInt32) (d : ℕ) : ℕ := if 0 < x.toNat then x.toNat else d

/-- The size of the pieces of an axis. SOURCE: tiler.cpp:152-153, 194-195 -/
def pieceSize (size count : ℕ) : ℕ := (size + count - 1) % W / count

/-- The size of the piece `i`. SOURCE: tiler.cpp:159-160, 200-201 -/
def extent (size count i : ℕ) : ℕ :=
  if i = count - 1 then (W + size - i * pieceSize size count % W) % W else pieceSize size count

/-- The tiles of an output of which the axes in `front` and `back` are not cut and the two in between
are. SOURCE: tiler.cpp:154-166, 196-206 -/
def tileGrid (front back : List ℕ) (rows cols ht wt : ℕ) : List TileInfo :=
  grid ht wt fun bh bw =>
    { shape := {
        dims := front ++ extent rows ht bh :: extent cols wt bw :: back
        rank := front.length + back.length + 2 }
      nspId := 0, vtcmOffset := 0, ddrOffset := 0, isContiguous := true
      needsDma := decide (1 < ht * wt % W) }

/-- `static_cast<uint32_t>(od->dims[i])` -/
def dim32 (od : OutputDef) (i : ℕ) : ℕ := od.dims.toList.getD i 0 % W

section

variable (od : Option OutputDef) (config : TilingConfig)

/-- The dimensions of the output that a convolution is assumed to have: those of its definition, if
there is one of rank 4 at least. SOURCE: tiler.cpp:139-149 -/
def convDims : ℕ × ℕ × ℕ × ℕ :=
  match od with
  | none => (1, 224, 224, 32)
  | some od =>
    if 4 ≤ od.rank then (dim32 od 0, dim32 od 1, dim32 od 2, dim32 od 3) else (1, 224, 224, 32)

def convRows : ℕ := countOr config.convHeightTiling 1

def convCols : ℕ := countOr config.convWidthTiling 1

/-- SOURCE: tiler.cpp:136-168, ConvTiler::generate_tiles. The argument stands for the output definition
of the operator, if it is a TypicalOp. -/
def convTilerGenerateTiles : List TileInfo :=
  tileGrid [(convDims od).1] [(convDims od).2.2.2] (convDims od).2.1 (convDims od).2.2.1
    (convRows config) (convCols config)

/-- SOURCE: tiler.cpp:182-190 -/
def matMulDims : ℕ × ℕ :=
  match od with
  | none => (1, 1)
  | some od => if 2 ≤ od.rank then (dim32 od 0, dim32 od 1) else (1, 1)

def matMulRows : ℕ := countOr config.convHeightTiling 2

def matMulCols : ℕ := countOr config.convWidthTiling 2

/-- SOURCE: tiler.cpp:179-208, MatMulTiler::generate_tiles -/
def matMulTilerGenerateTiles : List TileInfo :=
  tileGrid [] [] (matMulDims od).1 (matMulDims od).2 (matMulRows config) (matMulCols config)

end

end Gehtp.Model.Tiler
