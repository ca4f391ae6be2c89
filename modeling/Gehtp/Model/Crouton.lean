import Gehtp.Lib.FillLoop

/-!
# Crouton surfaces

A crouton surface holds the cells of a matrix in the order in which the matrix engine reads them:
rows in pairs, the pairs by phase, column tile and row group. `gemm_crouton_encode` and
`gemm_crouton_decode` (`kernels/src/runtime/gemm_dispatch.c:38-72`) and the executor's `inv_crouton`
(`kernels/src/runtime/oplist_exec.c:420-436`) run through the same loops. The place in the surface
is kept in a `uint32_t`, the one in the matrix is computed as a `size_t`: a natural number here,
because no product of two sizes leaves the 64 bits it has on the host, and on the device, where it
has 32, no buffer has that many cells.
-/

set_option autoImplicit false

namespace Gehtp.Model.Crouton

open Lib

/-- The rounds of the outer four loops, each with its column tile `kt` and the first of its two rows.
SOURCE: gemm_dispatch.c:40-45 -/
def croutonRounds (rows cols : ℕ) : List (ℕ × ℕ) :=
  (List.range 8).flatMap fun phase => (List.range (cols / 32)).flatMap fun kt =>
    (List.range (rows / 32)).flatMap fun g => (List.range 2).map fun rp =>
      (kt, g * 32 + phase * 4 + rp * 2)

/-- The innermost loop: a place of the surface and a place of the matrix for each of two rows and 32
columns. SOURCE: gemm_dispatch.c:46-51 -/
def croutonStrip (cols out kt row0 : ℕ) : List (ℕ × ℕ) :=
  (List.range 32).flatMap fun j =>
    [(out + 2 * j, row0 * cols + (kt * 32 + j)), (out + 2 * j + 1, (row0 + 1) * cols + (kt * 32 + j))]

/-- All rounds; `out` runs along in 32 bits. SOURCE: gemm_dispatch.c:46-53 -/
def croutonMoves (cols : ℕ) : ℕ → List (ℕ × ℕ) → List (ℕ × ℕ)
  | _, [] => []
  | out, r :: rounds =>
    croutonStrip cols out r.1 r.2 ++ croutonMoves cols ((out + 64) % 2 ^ 32) rounds

/-- The places of the surface, each with its place of the matrix, in the order of the loops. -/
def croutonPlaces (rows cols : UInt32) : List (ℕ × ℕ) :=
  croutonMoves cols.toNat 0 (croutonRounds rows.toNat cols.toNat)

/-- SOURCE: gemm_dispatch.c:38-54 -/
def gemmCroutonEncode (lin surf : List UInt16) (rows cols : UInt32) :
    Checked Empty (List UInt16) :=
  transfer id (croutonPlaces rows cols) lin surf

/-- SOURCE: gemm_dispatch.c:56-72 -/
def gemmCroutonDecode (surf lin : List UInt16) (rows cols : UInt32) :
    Checked Empty (List UInt16) :=
  transfer id ((croutonPlaces rows cols).map Prod.swap) surf lin

/-- SOURCE: oplist_exec.c:420-436 -/
def invCrouton (surf : List UInt16) (dst : List Int16) (rows cols : UInt32) :
    Checked Empty (List Int16) :=
  transfer UInt16.toInt16 ((croutonPlaces rows cols).map Prod.swap) surf dst

end Gehtp.Model.Crouton
