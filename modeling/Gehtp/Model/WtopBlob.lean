import Gehtp.Model.OplistParse

/-!
# The emitter's blob

The compiler's `Emitter` (`compiler/tools/wtop_ops/wtop_ops.hpp`) collects slots,
their bytes and ops while it walks the graph; at the end `wtop_emit` lays them
out as one blob (`compiler/tools/wtop_emit.cpp`, step 6). The state below is the
part of the emitter that ends up in the blob. Its fields carry what every slot
that `add_slot` and `add_ext_slot` push satisfies: both areas stay a multiple of
128 bytes long, an offset is a multiple of 128 that was truncated to 32 bits, and
a slot lies inside its own area.
-/

set_option autoImplicit false

namespace Gehtp.Model.WtopBlob

open Lib Model.OplistParse

/-- A slot is inside the area its address tag says its bytes are in. -/
def SlotInArea (weightLen extLen : ℕ) (s : WtSlot) : Prop :=
  s.offset.toNat % 128 = 0 ∧ s.offset.toNat < 2 ^ 32 ∧
    s.offset.toNat + s.len.toNat ≤ if s.addr = wtSlotExtWgt then extLen else weightLen

/-- The emitter state that the blob is assembled from.
SOURCE: wtop_ops.hpp:87-91, 187-188 -/
structure Emitter where
  weightArea : List UInt8
  extWeightArea : List UInt8
  slots : List WtSlot
  ops : List WtOp
  weight_aligned : weightArea.length % 128 = 0
  ext_aligned : extWeightArea.length % 128 = 0
  slots_in_area : ∀ s ∈ slots, SlotInArea weightArea.length extWeightArea.length s

/-- Append zeros up to the next multiple of 128. -/
def padTo128 (l : List UInt8) : List UInt8 :=
  l ++ List.replicate ((128 - l.length % 128) % 128) 0

theorem padTo128_length (l : List UInt8) :
    (padTo128 l).length = (l.length + 127) / 128 * 128 := by
  simp only [padTo128, List.length_append, List.length_replicate]
  omega

theorem padTo128_aligned (l : List UInt8) : (padTo128 l).length % 128 = 0 := by
  rw [padTo128_length]
  omega

theorem SlotInArea.mono {w w' e e' : ℕ} {s : WtSlot} (h : SlotInArea w e s) (hw : w ≤ w')
    (he : e ≤ e') : SlotInArea w' e' s := by
  obtain ⟨hal, hlt, hend⟩ := h
  refine ⟨hal, hlt, ?_⟩
  by_cases haddr : s.addr = wtSlotExtWgt
  · rw [if_pos haddr] at hend ⊢
    omega
  · rw [if_neg haddr] at hend ⊢
    omega

/-- The slot that is written for `len` bytes at the end of an area of `size`
bytes. -/
def slotAtEnd (size : ℕ) (len count addr : UInt32) : WtSlot :=
  ⟨len, count, size.toUInt32.toUInt64, addr⟩

theorem slotAtEnd_offset (size : ℕ) (len count addr : UInt32) :
    (slotAtEnd size len count addr).offset.toNat = size % 2 ^ 32 := by
  simp [slotAtEnd]

/-- The bytes that `len` bytes of data add to an area hold the new slot: its
truncated offset is at most the old size. -/
theorem slotAtEnd_le (area data : List UInt8) (len count addr : UInt32)
    (hdata : data.length = len.toNat) :
    (slotAtEnd area.length len count addr).offset.toNat + len.toNat ≤
      (padTo128 (area ++ data)).length := by
  rw [slotAtEnd_offset, padTo128_length, List.length_append, hdata]
  have := Nat.mod_le area.length (2 ^ 32)
  omega

theorem slotAtEnd_aligned (area : List UInt8) (len count addr : UInt32)
    (h : area.length % 128 = 0) :
    (slotAtEnd area.length len count addr).offset.toNat % 128 = 0 := by
  rw [slotAtEnd_offset]
  omega

theorem length_le_padTo128 (area data : List UInt8) :
    area.length ≤ (padTo128 (area ++ data)).length := by
  rw [padTo128_length, List.length_append]
  omega

/-- Push an inline slot with its bytes. `addr` is 0 for a weight slot; for the
input, state and temp-offset slots the caller overwrites it right after the
call. SOURCE: wtop_ops.hpp:434-445, wtop_emit.cpp:192, 266, 330, 597 -/
def addSlot (em : Emitter) (len count addr : UInt32) (data : List UInt8)
    (hdata : data.length = len.toNat) (haddr : addr ≠ wtSlotExtWgt) : Emitter where
  weightArea := padTo128 (em.weightArea ++ data)
  extWeightArea := em.extWeightArea
  slots := em.slots ++ [slotAtEnd em.weightArea.length len count addr]
  ops := em.ops
  weight_aligned := padTo128_aligned _
  ext_aligned := em.ext_aligned
  slots_in_area := by
    intro s hs
    rcases List.mem_append.mp hs with hs | hs
    · exact (em.slots_in_area s hs).mono (length_le_padTo128 _ _) le_rfl
    · rw [List.mem_singleton.mp hs]
      refine ⟨slotAtEnd_aligned _ _ _ _ em.weight_aligned, ?_, ?_⟩
      · rw [slotAtEnd_offset]
        omega
      · simpa [slotAtEnd, haddr] using slotAtEnd_le em.weightArea data len count addr hdata

/-- Push a slot whose bytes go to the external weight file.
SOURCE: wtop_ops.hpp:193-204 -/
def addExtSlot (em : Emitter) (len count : UInt32) (data : List UInt8)
    (hdata : data.length = len.toNat) : Emitter where
  weightArea := em.weightArea
  extWeightArea := padTo128 (em.extWeightArea ++ data)
  slots := em.slots ++ [slotAtEnd em.extWeightArea.length len count wtSlotExtWgt]
  ops := em.ops
  weight_aligned := em.weight_aligned
  ext_aligned := padTo128_aligned _
  slots_in_area := by
    intro s hs
    rcases List.mem_append.mp hs with hs | hs
    · exact (em.slots_in_area s hs).mono le_rfl (length_le_padTo128 _ _)
    · rw [List.mem_singleton.mp hs]
      refine ⟨slotAtEnd_aligned _ _ _ _ em.ext_aligned, ?_, ?_⟩
      · rw [slotAtEnd_offset]
        omega
      · simpa [slotAtEnd] using slotAtEnd_le em.extWeightArea data len count wtSlotExtWgt hdata

/-- Push an op. SOURCE: wtop_ops.hpp:446-463 -/
def addOp (em : Emitter) (op : WtOp) : Emitter := { em with ops := em.ops ++ [op] }

/-- The emitter before anything was pushed. -/
def emptyEmitter : Emitter where
  weightArea := []
  extWeightArea := []
  slots := []
  ops := []
  weight_aligned := rfl
  ext_aligned := rfl
  slots_in_area := by simp

/-- Version 2 is written on request and when one of the areas is close to 4 GiB.
SOURCE: wtop_emit.cpp:613-616 -/
def needV2 (em : Emitter) (forceV2 : Bool) : Bool :=
  forceV2 || decide (0xFFFFFF00 < em.weightArea.length) ||
    decide (0xFFFFFF00 < em.extWeightArea.length)

/-- The bytes of a slot record. SOURCE: wtop_emit.cpp:630-647 -/
def slotBytes (v2 : Bool) (s : WtSlot) : List UInt8 :=
  if v2 then
    u32le s.len ++ (u32le s.count ++ (u32le (u64lo s.offset) ++ (u32le (u64hi s.offset) ++
      (u32le s.addr ++ u32le 0))))
  else
    u32le s.len ++ (u32le s.count ++ (u32le s.offset.toUInt32 ++ u32le s.addr))

/-- The bytes of an op. SOURCE: wtop_emit.cpp:650-659 -/
def opBytes (op : WtOp) : List UInt8 :=
  u16le op.opcode.code ++ (u16le op.args.length.toUInt16 ++ op.args.flatMap u32le)

/-- The bytes of the header. SOURCE: wtop_emit.cpp:624-629 -/
def headerBytes (ver : UInt16) (nSlots nOps : UInt32) : List UInt8 :=
  [87, 84, 79, 80] ++ (u16le ver ++ (u16le wtEndianChk ++ (u32le nSlots ++ u32le nOps)))

def opsEnd (em : Emitter) (v2 : Bool) : ℕ :=
  16 + (em.slots.flatMap (slotBytes v2)).length + (em.ops.flatMap opBytes).length

/-- The position of the weight area. SOURCE: wtop_emit.cpp:660 -/
def weightOff (em : Emitter) (v2 : Bool) : ℕ := (opsEnd em v2 + 127) / 128 * 128

def blobVer (v2 : Bool) : UInt16 := if v2 then wtBlobVer2 else wtBlobVer

/-- The blob: header, slot table, op table, zeros up to the weight area, weight
area. SOURCE: wtop_emit.cpp:604-663 -/
def assemble (em : Emitter) (forceV2 : Bool) : List UInt8 :=
  let v2 := needV2 em forceV2
  headerBytes (blobVer v2) em.slots.length.toUInt32 em.ops.length.toUInt32 ++
    (em.slots.flatMap (slotBytes v2) ++ (em.ops.flatMap opBytes ++
      (List.replicate (weightOff em v2 - opsEnd em v2) 0 ++ em.weightArea)))

end Gehtp.Model.WtopBlob
