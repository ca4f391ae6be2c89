import Mathlib.Algebra.Order.Group.Nat
import Gehtp.Lib.Checked

/-!
# The write-tracking bitmap

`kernels/src/runtime/btrack.c` keeps one bit for each block of a memory: a write
sets the bits of the blocks it touches, a snapshot copies the words of the bitmap,
and a clear takes the bits of a snapshot away. A mark or a clear of a byte range is
a sequence of word operations; the lists below are these sequences, so that a model
of concurrent callers can interleave them.
-/

set_option autoImplicit false

namespace Gehtp.Model.Btrack

open Lib

/-- The sizes that `bt_create` accepts. SOURCE: btrack.c:39-53 -/
structure Geometry where
  memBytes : ℕ
  blkBytes : ℕ
  mem_pos : 0 < memBytes
  mem_lt : memBytes < 2 ^ 64
  blk_pos : 0 < blkBytes
  blk_lt : blkBytes < 2 ^ 32

namespace Geometry

variable (geo : Geometry)

/-- SOURCE: btrack.c:46 -/
def nBlocks : ℕ := (geo.memBytes / geo.blkBytes) % 2 ^ 32

/-- SOURCE: btrack.c:47 -/
def nWords : ℕ := ((geo.nBlocks + 63) % 2 ^ 32) / 64

end Geometry

/-- The words of a bitmap; word `w` holds the blocks from `64 * w` on. -/
abbrev Words := ℕ → BitVec 64

def bitOf (bits : Words) (blk : ℕ) : Bool := (bits (blk / 64)).getLsbD (blk % 64)

/-- A copy of the bitmap. SOURCE: btrack.h, bt_snapshot -/
structure Snapshot where
  words : Words
  nWords : ℕ

/-- The copy of the words of a tracker. SOURCE: btrack.c:173-198 -/
def snapshotOf (geo : Geometry) (bits : Words) : Snapshot := ⟨bits, geo.nWords⟩

/-- The blocks of the byte range of a mark or a clear, first and last, if there is
anything to do. SOURCE: btrack.c:89-95, 207-215 -/
def blockRange (geo : Geometry) (addr size : ℕ) : Option (ℕ × ℕ) :=
  if geo.memBytes ≤ addr ∨ size = 0 then none
  else
    let sum := (addr + size) % 2 ^ 64
    let stop := if geo.memBytes < sum then geo.memBytes else sum
    let bLo := addr / geo.blkBytes % 2 ^ 32
    let bHi := (stop + 2 ^ 64 - 1) % 2 ^ 64 / geo.blkBytes % 2 ^ 32
    some (bLo, if geo.nBlocks ≤ bHi then (geo.nBlocks + 2 ^ 32 - 1) % 2 ^ 32 else bHi)

/-- The bits `i0` to `i1` of a word. SOURCE: btrack.c:101-103 -/
def wordMask (i0 i1 : ℕ) : BitVec 64 :=
  if 63 ≤ i1 then BitVec.allOnes 64 <<< i0 else ((1#64 <<< (i1 - i0 + 1)) - 1#64) <<< i0

/-- The words of the blocks `bLo` to `bHi` with the bits of each.
SOURCE: btrack.c:98-112 -/
def wordRange (bLo bHi : ℕ) : List (ℕ × BitVec 64) :=
  (List.range' (bLo / 64) (bHi / 64 + 1 - bLo / 64)).map fun w =>
    let i0 := if w = bLo / 64 then bLo % 64 else 0
    (w, wordMask i0 (if bHi - w * 64 < 63 then bHi - w * 64 else 63))

/-- The words that a mark ORs into the bitmap, in order. SOURCE: btrack.c:89-114 -/
def setBitsRange (geo : Geometry) (addr size : ℕ) : List (ℕ × BitVec 64) :=
  match blockRange geo addr size with
  | none => []
  | some (bLo, bHi) => if bLo ≤ bHi then wordRange bLo bHi else []

/-- Who wrote. SOURCE: btrack.c:131-158 -/
inductive WriteKind where
  | cpu
  | peer
  | dma
  deriving DecidableEq, Repr

/-- The words that a write hook ORs into the bitmap: a DMA write outside the memory
is refused before it marks anything. SOURCE: btrack.c:126-158 -/
def markWords (geo : Geometry) (kind : WriteKind) (addr size : ℕ) : List (ℕ × BitVec 64) :=
  match kind with
  | .cpu | .peer => setBitsRange geo addr size
  | .dma =>
    if size = 0 ∨ geo.memBytes < (addr + size) % 2 ^ 64 then [] else setBitsRange geo addr size

/-- The words that a clear of a byte range ANDs into the bitmap: only bits of the
snapshot go. SOURCE: btrack.c:207-237 -/
def clearWords (geo : Geometry) (snap : Snapshot) (addr size : ℕ) : List (ℕ × BitVec 64) :=
  (setBitsRange geo addr size).map fun p => (p.1, ~~~(snap.words p.1 &&& p.2))

/-- The words that a clear of a whole snapshot ANDs into the bitmap.
SOURCE: btrack.c:239-251 -/
def clearAllWords (geo : Geometry) (snap : Snapshot) : List (ℕ × BitVec 64) :=
  (List.range geo.nWords).map fun w => (w, ~~~snap.words w)

def andWord (bits : Words) (p : ℕ × BitVec 64) : Words :=
  fun w => if w = p.1 then bits w &&& p.2 else bits w

def orWord (bits : Words) (p : ℕ × BitVec 64) : Words :=
  fun w => if w = p.1 then bits w ||| p.2 else bits w

/-- The clear of a snapshot with nobody else running. SOURCE: btrack.c:239-251 -/
def btClearAllFlushed (geo : Geometry) (bits : Words) (snap : Snapshot) : Words :=
  if snap.nWords = geo.nWords then (clearAllWords geo snap).foldl andWord bits else bits

/-- The words that the bitmap was allocated with. SOURCE: btrack.c:50 -/
def Geometry.allocWords (geo : Geometry) : ℕ := if geo.nWords = 0 then 1 else geo.nWords

/-- The loop of a mark over the blocks from `b` to `bHi` in 32 bits, at most `fuel` rounds of
it. A word that is not in the bitmap is a fault. SOURCE: btrack.c:98-112 -/
def markLoop (alloc bHi : ℕ) : ℕ → ℕ → Words → Checked Unit Words
  | 0, _, _ => .error .hang
  | fuel + 1, b, bits =>
    if bHi < b then .ok bits
    else
      let w := b / 64
      let left := (bHi + 2 ^ 32 - w * 64) % 2 ^ 32
      let mask := wordMask (b % 64) (if left < 63 then left else 63)
      if alloc ≤ w then .error .fault
      else markLoop alloc bHi fuel ((w + 1) * 64 % 2 ^ 32) (orWord bits (w, mask))

/-- The mark of a byte range with nobody else running. SOURCE: btrack.c:88-114 -/
def markRange (geo : Geometry) (fuel addr size : ℕ) (bits : Words) : Checked Unit Words :=
  match blockRange geo addr size with
  | none => .ok bits
  | some (bLo, bHi) => markLoop geo.allocWords bHi fuel bLo bits

end Gehtp.Model.Btrack
