import Mathlib.Data.UInt
import Gehtp.Lib.Checked
import Gehtp.Lib.Store

/-!
# The KV slot cache

`kernels/src/runtime/kvcache.c` keeps the keys and values of positions in a buffer of `nslots`
slots. A slot holds a K face and a V face of half its bytes each, and `posmap` says for which
position it was written last. `append` writes to the slot `pos % nslots`, `scatter` to a slot of
the caller, and `lookup` looks at the slot `pos % nslots` only.

The buffer is a memory by the offset from its base. A pointer to a row is the memory from that
row on. The fences of `kvc_write` move no data and are left out.
-/

set_option autoImplicit false

namespace Gehtp.Model.Kvcache

open Lib Lib.Memory

/-- The position of an empty slot. SOURCE: kvcache.h, KVC_POS_NONE -/
def posNone : UInt32 := 0xFFFFFFFF

/-- SOURCE: kvcache.h, struct kvc -/
structure Kvc where
  base : ℕ → UInt8
  slotBytes : UInt32
  nslots : UInt32
  posmap : ℕ → UInt32
  nAppend : UInt32
  nEvict : UInt32

/-- The geometry that is accepted. SOURCE: kvcache.c:9 -/
def goodGeometry (baseAddr : ℕ) (slotBytes : UInt32) : Bool :=
  decide (256 ≤ slotBytes.toNat) && decide (slotBytes.toNat % 128 = 0) &&
    decide (baseAddr % 128 = 0)

/-- Only the first `nslots` entries of the map belong to the cache.
SOURCE: kvcache.c:6-19 -/
def kvcInit (baseAddr : ℕ) (base : ℕ → UInt8) (slotBytes nslots : UInt32) (posmap : ℕ → UInt32) :
    Option Kvc :=
  if goodGeometry baseAddr slotBytes then
    some ⟨base, slotBytes, nslots, copyTo posmap 0 (fun _ => posNone) nslots.toNat, 0, 0⟩
  else none

namespace Kvc

def half (c : Kvc) : ℕ := (c.slotBytes / 2).toNat

/-- Where the K face of a slot starts. SOURCE: kvcache.c:26-28 -/
def kFace (c : Kvc) (slot : UInt32) : ℕ := slot.toNat * c.slotBytes.toNat

/-- Where the V face of a slot starts. SOURCE: kvcache.c:29-31 -/
def vFace (c : Kvc) (slot : UInt32) : ℕ := slot.toNat * c.slotBytes.toNat + c.half

/-- Whether a write puts another position into a slot. SOURCE: kvcache.c:45 -/
def evicts (c : Kvc) (slot pos : UInt32) : Bool :=
  decide (c.posmap slot.toNat ≠ posNone) && decide (c.posmap slot.toNat ≠ pos)

end Kvc

/-- SOURCE: kvcache.c:36-47 -/
def kvcWrite (c : Kvc) (slot : UInt32) (k v : ℕ → UInt8) (pos : UInt32) : Kvc :=
  { c with
    base := copyTo (copyTo c.base (c.kFace slot) k c.half) (c.vFace slot) v c.half
    nEvict := if c.evicts slot pos then c.nEvict + 1 else c.nEvict
    posmap := Function.update c.posmap slot.toNat pos }

/-- The slot of a position; without slots it is a division by zero.
SOURCE: kvcache.c:51, 66 -/
def homeSlot (c : Kvc) (pos : UInt32) : Checked Empty UInt32 :=
  if c.nslots = 0 then .error .fault else .ok (pos % c.nslots)

/-- SOURCE: kvcache.c:49-55 -/
def kvcAppend (c : Kvc) (k v : ℕ → UInt8) (pos : UInt32) : Checked Empty (Int32 × Kvc) := do
  let slot ← homeSlot c pos
  let c := kvcWrite c slot k v pos
  pure (slot.toInt32, { c with nAppend := c.nAppend + 1 })

/-- SOURCE: kvcache.c:57-62 -/
def kvcScatter (c : Kvc) (slot : UInt32) (k v : ℕ → UInt8) (pos : UInt32) : Int32 × Kvc :=
  if c.nslots ≤ slot then (-1, c) else (0, kvcWrite c slot k v pos)

/-- SOURCE: kvcache.c:64-68 -/
def kvcLookup (c : Kvc) (pos : UInt32) : Checked Empty Int32 := do
  let slot ← homeSlot c pos
  pure (if c.posmap slot.toNat = pos then slot.toInt32 else -1)

/-- SOURCE: kvcache.c:70-76 -/
def kvcRead (c : Kvc) (slot : UInt32) : Option (List UInt8 × List UInt8) :=
  if c.nslots ≤ slot then none
  else some (cells c.base (c.kFace slot) c.half, cells c.base (c.vFace slot) c.half)

/-- A call that writes. -/
inductive KvCall where
  | append (k v : ℕ → UInt8) (pos : UInt32)
  | scatter (slot : UInt32) (k v : ℕ → UInt8) (pos : UInt32)

def kvcCall (c : Kvc) : KvCall → Checked Empty Kvc
  | .append k v pos => (kvcAppend c k v pos).map Prod.snd
  | .scatter slot k v pos => .ok (kvcScatter c slot k v pos).2

def kvcRun (c : Kvc) (calls : List KvCall) : Checked Empty Kvc := calls.foldlM kvcCall c

end Gehtp.Model.Kvcache
