import Gehtp.Model.OplistParse

/-!
# What an accepted blob is worth

`wtParse` never reads outside the buffer, whatever the buffer holds. On the
other side of its bounds checks is the weight area: the end of an inline slot is
computed as a 64-bit sum, so a version 2 record whose offset is close to `2 ^ 64`
passes the check with a small, wrapped end. `SlotSumsFit` says on the bytes of
the buffer that no record does this, and an accepted blob has all of its inline
slots inside the weight area exactly when it holds.
-/

set_option autoImplicit false

namespace Gehtp.Analysis.OplistParseBounds

open Lib Model.OplistParse

/-- The byte at position `p`, as a number, 0 beyond the end. -/
def byteVal (buf : Buf) (p : ℕ) : ℕ := (buf.bytes[p]?.getD 0).toNat

/-- The little-endian 32-bit number at position `p`. -/
def wordVal (buf : Buf) (p : ℕ) : ℕ :=
  byteVal buf p + byteVal buf (p + 1) * 2 ^ 8 + byteVal buf (p + 2) * 2 ^ 16 +
    byteVal buf (p + 3) * 2 ^ 24

/-- If the blob is a version 2 one, then the offset and the length of every
record that is not an external weight add up to less than `2 ^ 64`. -/
def SlotSumsFit (buf : Buf) : Prop :=
  byteVal buf 4 + byteVal buf 5 * 2 ^ 8 = 2 →
    ∀ i < wordVal buf 8, wordVal buf (16 + i * 24 + 16) ≠ 0xFFFFFFFC →
      wordVal buf (16 + i * 24 + 8) + wordVal buf (16 + i * 24 + 12) * 2 ^ 32 +
        wordVal buf (16 + i * 24) < 2 ^ 64

variable {buf : Buf} {p : ℕ} {s : WtSlot}

theorem byteVal_of_byteAt {x : UInt8} (h : (byteAt buf p : Checked WtErr UInt8) = .ok x) :
    byteVal buf p = x.toNat := by
  rw [byteAt, entryAt_eq_ok] at h
  simp [byteVal, h]

theorem byteVal_of_rdU16 {x : UInt16} (h : (rdU16 buf p : Checked WtErr UInt16) = .ok x) :
    byteVal buf p + byteVal buf (p + 1) * 2 ^ 8 = x.toNat := by
  simp only [rdU16, bind_eq_ok] at h
  obtain ⟨b0, h0, b1, h1, hx⟩ := h
  cases hx
  rw [byteVal_of_byteAt h0, byteVal_of_byteAt h1, u16OfBytes_toNat]

theorem wordVal_of_rdU32 {x : UInt32} (h : (rdU32 buf p : Checked WtErr UInt32) = .ok x) :
    wordVal buf p = x.toNat := by
  simp only [rdU32, bind_eq_ok] at h
  obtain ⟨b0, h0, b1, h1, b2, h2, b3, h3, hx⟩ := h
  cases hx
  rw [wordVal, byteVal_of_byteAt h0, byteVal_of_byteAt h1, byteVal_of_byteAt h2,
    byteVal_of_byteAt h3, u32OfBytes_toNat]

/-! ### Reads stay inside the buffer -/

theorem safe_parseHeader (buf : Buf) : Safe (parseHeader buf) := by
  unfold parseHeader
  refine safe_bind (safe_ensure _ _) fun _ h => ?_
  have hsize : 16 ≤ buf.size := (ensure_eq_ok _ _ _).mp h
  refine safe_bind (safe_byteAt buf 0 (by omega)) fun _ _ => ?_
  refine safe_bind (safe_byteAt buf 1 (by omega)) fun _ _ => ?_
  refine safe_bind (safe_byteAt buf 2 (by omega)) fun _ _ => ?_
  refine safe_bind (safe_byteAt buf 3 (by omega)) fun _ _ => ?_
  refine safe_bind (safe_ensure _ _) fun _ _ => ?_
  refine safe_bind (safe_rdU16 buf 4 (by omega)) fun _ _ => ?_
  refine safe_bind (safe_ensure _ _) fun _ _ => ?_
  refine safe_bind (safe_rdU16 buf 6 (by omega)) fun _ _ => ?_
  refine safe_bind (safe_ensure _ _) fun _ _ => ?_
  refine safe_bind (safe_rdU32 buf 8 (by omega)) fun _ _ => ?_
  refine safe_bind (safe_rdU32 buf 12 (by omega)) fun _ _ => ?_
  refine safe_bind (safe_ensure _ _) fun _ _ => ?_
  exact safe_bind (safe_ensure _ _) fun _ _ => safe_pure _

theorem slotRec_pos (ver : UInt16) : 16 ≤ slotRec ver := by
  unfold slotRec
  split <;> omega

theorem safe_rdSlot (buf : Buf) (ver : UInt16) (s : ℕ) (h : s + slotRec ver ≤ buf.size) :
    Safe (rdSlot buf ver s) := by
  have hrec := slotRec_pos ver
  unfold rdSlot
  split
  · rename_i hver
    have hrec2 : slotRec ver = 24 := by simp [slotRec, hver]
    refine safe_bind (safe_rdU32 buf _ (by omega)) fun _ _ => ?_
    refine safe_bind (safe_rdU32 buf _ (by omega)) fun _ _ => ?_
    refine safe_bind (safe_rdU32 buf _ (by omega)) fun _ _ => ?_
    refine safe_bind (safe_rdU32 buf _ (by omega)) fun _ _ => ?_
    exact safe_bind (safe_rdU32 buf _ (by omega)) fun _ _ => safe_pure _
  · refine safe_bind (safe_rdU32 buf _ (by omega)) fun _ _ => ?_
    refine safe_bind (safe_rdU32 buf _ (by omega)) fun _ _ => ?_
    refine safe_bind (safe_rdU32 buf _ (by omega)) fun _ _ => ?_
    exact safe_bind (safe_rdU32 buf _ (by omega)) fun _ _ => safe_pure _

theorem safe_parseSlot (buf : Buf) (ver : UInt16) (i : ℕ)
    (h : 16 + (i + 1) * slotRec ver ≤ buf.size) : Safe (parseSlot buf ver i) := by
  rw [Nat.add_mul, Nat.one_mul] at h
  unfold parseSlot
  refine safe_bind (safe_rdSlot buf ver _ (by omega)) fun slot _ => ?_
  refine safe_bind (safe_ensure _ _) fun _ _ => ?_
  refine safe_bind (safe_ensure _ _) fun _ _ => ?_
  exact safe_bind (safe_ensure _ _) fun _ _ => safe_pure _

theorem safe_rdArgs (buf : Buf) (p n : ℕ) (h : p + n * 4 ≤ buf.size) :
    Safe (rdArgs buf p n) := by
  induction n generalizing p with
  | zero => exact safe_pure _
  | succ n ih =>
    rw [Nat.add_mul, Nat.one_mul] at h
    unfold rdArgs
    refine safe_bind (safe_rdU32 buf p (by omega)) fun _ _ => ?_
    exact safe_bind (ih (p + 4) (by omega)) fun _ _ => safe_pure _

theorem safe_parseOp (buf : Buf) (p : ℕ) : Safe (parseOp buf p) := by
  unfold parseOp
  refine safe_bind (safe_ensure _ _) fun _ h => ?_
  have hsize : p + 4 ≤ buf.size := (ensure_eq_ok _ _ _).mp h
  refine safe_bind (safe_rdU16 buf p (by omega)) fun code _ => ?_
  refine safe_bind (safe_rdU16 buf (p + 2) (by omega)) fun nArgs _ => ?_
  split
  · exact safe_reject _
  · refine safe_bind (safe_ensure _ _) fun _ _ => ?_
    refine safe_bind (safe_ensure _ _) fun _ h2 => ?_
    have hargs := (ensure_eq_ok _ _ _).mp h2
    exact safe_bind (safe_rdArgs buf _ _ hargs) fun _ _ => safe_pure _

theorem safe_parseOps (buf : Buf) (n p : ℕ) : Safe (parseOps buf n p) := by
  induction n generalizing p with
  | zero => exact safe_pure _
  | succ n ih =>
    unfold parseOps
    refine safe_bind (safe_parseOp buf p) fun _ _ => ?_
    exact safe_bind (ih _) fun _ _ => safe_pure _

theorem safe_checkSlotEnd (weightBytes : ℕ) (slot : WtSlot) :
    Safe (checkSlotEnd weightBytes slot) := by
  unfold checkSlotEnd
  split <;> simp

theorem safe_checkRefs (nSlots : ℕ) (op : WtOp) : Safe (checkRefs nSlots op) := by
  refine safe_forM _ _ fun arg _ => ?_
  unfold checkRef
  split
  · simp
  · split <;> simp

/-- The parser reads inside the buffer, on every buffer.
SOURCE: oplist_parse.c:86-169 -/
theorem safe_wtParse (buf : Buf) : Safe (wtParse buf) := by
  unfold wtParse
  refine safe_bind (safe_parseHeader buf) fun hdr _ => ?_
  refine safe_bind (safe_ensure _ _) fun _ h => ?_
  have hneed := (ensure_eq_ok _ _ _).mp h
  refine safe_bind (safe_mapM _ _ fun i hi => ?_) fun slots _ => ?_
  · have hlt : i + 1 ≤ hdr.nSlots.toNat := List.mem_range.mp hi
    have hmul := Nat.mul_le_mul_right (slotRec hdr.ver) hlt
    exact safe_parseSlot buf hdr.ver i (by omega)
  refine safe_bind (safe_parseOps buf _ _) fun opsEnd _ => ?_
  refine safe_bind (safe_ensure _ _) fun _ _ => ?_
  refine safe_bind (safe_forM _ _ fun slot _ => safe_checkSlotEnd _ slot) fun _ _ => ?_
  exact safe_bind (safe_forM _ _ fun op _ => safe_checkRefs _ op) fun _ _ => safe_pure _

/-! ### Inline slots and the weight area -/

/-- What acceptance says about the blob as a whole, one conjunct per stage of
the parser. -/
theorem wtParse_eq_ok {blob : WtBlob} (h : wtParse buf = .ok blob) :
    ∃ hdr opsEnd,
      parseHeader buf = .ok hdr ∧
      16 + hdr.nSlots.toNat * slotRec hdr.ver ≤ buf.size ∧
      List.Forall₂ (fun i s => parseSlot buf hdr.ver i = .ok s)
        (List.range hdr.nSlots.toNat) blob.slots ∧
      parseOps buf hdr.nOps.toNat (16 + hdr.nSlots.toNat * slotRec hdr.ver) =
        .ok (blob.ops, opsEnd) ∧
      blob.weightOff = alignUp opsEnd.toUInt32 wtWeightAlign ∧
      blob.weightOff.toNat ≤ buf.size ∧
      (∀ s ∈ blob.slots, checkSlotEnd (buf.size - blob.weightOff.toNat) s = .ok ()) ∧
      (∀ op ∈ blob.ops, checkRefs hdr.nSlots.toNat op = .ok ()) ∧
      blob.ver = hdr.ver ∧ blob.weight = buf.bytes.drop blob.weightOff.toNat := by
  simp only [wtParse, bind_eq_ok, ensure_eq_ok, mapM_eq_ok, forM_eq_ok] at h
  obtain ⟨hdr, hhdr, _, hneed, slots, hslots, ⟨ops, opsEnd⟩, hops, _, hoff, _, hends, _, hrefs,
    hblob⟩ := h
  cases hblob
  exact ⟨hdr, opsEnd, hhdr, hneed, hslots, hops, rfl, hoff, hends, hrefs, rfl, rfl⟩

theorem parseHeader_eq_ok {hdr : WtHeader} (h : parseHeader buf = .ok hdr) :
    16 ≤ buf.size ∧ (hdr.ver = wtBlobVer ∨ hdr.ver = wtBlobVer2) ∧
      byteVal buf 4 + byteVal buf 5 * 2 ^ 8 = hdr.ver.toNat ∧
      wordVal buf 8 = hdr.nSlots.toNat ∧
      hdr.nSlots ≠ 0 ∧ hdr.nSlots ≤ wtMaxSlots ∧ hdr.nOps ≠ 0 ∧ hdr.nOps ≤ wtMaxOps := by
  simp only [parseHeader, bind_eq_ok, ensure_eq_ok] at h
  obtain ⟨_, hsize, m0, -, m1, -, m2, -, m3, -, _, -, ver, hver, _, hv, eck, -, _, -,
    nSlots, hslots, nOps, -, _, hs, _, ho, hhdr⟩ := h
  cases hhdr
  exact ⟨hsize, hv, byteVal_of_rdU16 hver, wordVal_of_rdU32 hslots, hs.1, hs.2, ho.1, ho.2⟩

theorem parseSlot_v2 {ver : UInt16} {i : ℕ} (hver : wtBlobVer2 ≤ ver)
    (h : parseSlot buf ver i = .ok s) :
    s.len.toNat = wordVal buf (16 + i * 24) ∧
      s.offset.toNat = wordVal buf (16 + i * 24 + 8) + wordVal buf (16 + i * 24 + 12) * 2 ^ 32 ∧
      s.addr.toNat = wordVal buf (16 + i * 24 + 16) := by
  have hrec : slotRec ver = 24 := by simp [slotRec, hver]
  simp only [parseSlot, rdSlot, bind_eq_ok, hver, if_true, hrec] at h
  obtain ⟨slot, ⟨len, hlen, count, -, lo, hlo, hi, hhi, addr, haddr, hslot⟩, -, -, -, -, -, -,
    hs⟩ := h
  cases hslot
  cases hs
  exact ⟨(wordVal_of_rdU32 hlen).symm, by
    rw [u64OfHalves_toNat, wordVal_of_rdU32 hlo, wordVal_of_rdU32 hhi],
    (wordVal_of_rdU32 haddr).symm⟩

theorem parseSlot_v1 {ver : UInt16} {i : ℕ} (hver : ¬ wtBlobVer2 ≤ ver)
    (h : parseSlot buf ver i = .ok s) : s.offset.toNat < 2 ^ 32 := by
  simp only [parseSlot, rdSlot, bind_eq_ok, hver, if_false] at h
  obtain ⟨slot, ⟨len, -, count, -, off, -, addr, -, hslot⟩, -, -, -, -, -, -, hs⟩ := h
  cases hslot
  cases hs
  simpa using off.toNat_lt

theorem slotEnd_toNat (s : WtSlot) (h : s.offset.toNat + s.len.toNat < 2 ^ 64) :
    (s.offset + s.len.toUInt64).toNat = s.offset.toNat + s.len.toNat := by
  rw [UInt64.toNat_add, UInt32.toNat_toUInt64, Nat.mod_eq_of_lt h]

/-- A slot that passes the end check of an inline slot is inside the weight area
iff its end does not wrap. -/
theorem inline_inside_iff {n : ℕ} (hn : n < 2 ^ 64) (hs : s.addr ≠ wtSlotExtWgt)
    (h : checkSlotEnd n s = .ok ()) :
    s.offset.toNat + s.len.toNat ≤ n ↔ s.offset.toNat + s.len.toNat < 2 ^ 64 := by
  constructor
  · intro hin
    omega
  · intro hfit
    simp only [checkSlotEnd, hs, if_false, ensure_eq_ok] at h
    rwa [slotEnd_toNat s hfit] at h

theorem slotSumsFit_iff {hdr : WtHeader} {slots : List WtSlot} (hhdr : parseHeader buf = .ok hdr)
    (hslots : List.Forall₂ (fun i s => parseSlot buf hdr.ver i = .ok s)
      (List.range hdr.nSlots.toNat) slots) :
    SlotSumsFit buf ↔
      ∀ s ∈ slots, s.addr ≠ wtSlotExtWgt → s.offset.toNat + s.len.toNat < 2 ^ 64 := by
  obtain ⟨-, hver, hverVal, hnum, -⟩ := parseHeader_eq_ok hhdr
  have hlen : slots.length = hdr.nSlots.toNat := by
    rw [← hslots.length_eq, List.length_range]
  have hget : ∀ i (hi : i < slots.length), parseSlot buf hdr.ver i = .ok slots[i] := by
    intro i hi
    have := hslots.get (by simpa [hlen] using hi) hi
    simpa using this
  have haddr : ∀ s : WtSlot, s.addr ≠ wtSlotExtWgt ↔ s.addr.toNat ≠ 0xFFFFFFFC := by
    intro s
    rw [ne_eq, ne_eq, ← UInt32.toNat_inj]
    rfl
  unfold SlotSumsFit
  rcases hver with hv | hv
  · -- version 1: both fields are 32-bit numbers
    constructor
    · intro _ s hs _
      obtain ⟨i, hi, rfl⟩ := List.getElem_of_mem hs
      have hoff := parseSlot_v1 (by rw [hv]; decide) (hget i hi)
      have hl := (slots[i]).len.toNat_lt
      omega
    · intro _ h2
      rw [hverVal, hv] at h2
      exact absurd h2 (by decide)
  · have hle : wtBlobVer2 ≤ hdr.ver := by rw [hv]; decide
    constructor
    · intro h s hs hsa
      obtain ⟨i, hi, rfl⟩ := List.getElem_of_mem hs
      obtain ⟨hl, ho, ha⟩ := parseSlot_v2 hle (hget i hi)
      rw [ho, hl]
      refine h (by rw [hverVal, hv]; rfl) i (by omega) ?_
      rw [← ha]
      exact (haddr _).mp hsa
    · intro h _ i hi hia
      have hi' : i < slots.length := by omega
      obtain ⟨hl, ho, ha⟩ := parseSlot_v2 hle (hget i hi')
      rw [← ho, ← hl]
      refine h _ (List.getElem_mem hi') ((haddr _).mpr ?_)
      rw [ha]
      exact hia

/-- Whatever the bytes, no read of the parser leaves the buffer; and an accepted
blob has every inline slot inside its weight area, as numbers, exactly when no
version 2 record of the buffer has an offset and a length whose sum reaches
`2 ^ 64`. SOURCE: oplist_parse.c:86-169 -/
theorem wtParse_inline_slots_inside_iff (buf : Buf) :
    Safe (wtParse buf) ∧ ∀ blob, wtParse buf = .ok blob →
      ((∀ s ∈ blob.slots, s.addr ≠ wtSlotExtWgt →
          s.offset.toNat + s.len.toNat ≤ blob.weight.length) ↔ SlotSumsFit buf) := by
  refine ⟨safe_wtParse buf, fun blob h => ?_⟩
  obtain ⟨hdr, opsEnd, hhdr, -, hslots, -, -, hoff, hends, -, -, hweight⟩ := wtParse_eq_ok h
  have hlen : blob.weight.length = buf.size - blob.weightOff.toNat := by
    rw [hweight, List.length_drop]
    rfl
  have hsize : buf.size < 2 ^ 64 := buf.size_lt
  rw [slotSumsFit_iff hhdr hslots, hlen]
  refine forall₂_congr fun s hs => forall_congr' fun hsa => ?_
  exact inline_inside_iff (by omega) hsa (hends s hs)

/-- A blob of 256 bytes with one `OP_NOP` and one version 2 slot record of the
given length and offset; its weight area has 128 bytes. -/
def oneSlotBlob (len offLo offHi : UInt32) : Buf where
  bytes := [87, 84, 79, 80, 2, 0, 0x34, 0x12, 1, 0, 0, 0, 1, 0, 0, 0] ++
    (u32le len ++ u32le 0 ++ u32le offLo ++ u32le offHi ++ u32le 0 ++ u32le 0) ++
    [0, 0, 0, 0] ++ List.replicate 212 0
  size_lt := by
    simp only [List.length_append, List.length_replicate, u32le_length, List.length_cons,
      List.length_nil]
    omega

/-- The blob whose only slot has offset `2 ^ 64 - 128` and length 256 is accepted,
and the slot ends far outside the 128 bytes of the weight area. -/
theorem wrapped_slot_accepted :
    ¬ ∀ (buf : Buf) (blob : WtBlob), wtParse buf = .ok blob →
      ∀ s ∈ blob.slots, s.addr ≠ wtSlotExtWgt →
        s.offset.toNat + s.len.toNat ≤ blob.weight.length := by
  intro h
  have hparse : wtParse (oneSlotBlob 256 0xFFFFFF80 0xFFFFFFFF) =
      .ok ⟨2, [⟨256, 0, 0xFFFFFFFFFFFFFF80, 0⟩], [⟨.nop, [], rfl⟩], 128,
        List.replicate 128 0⟩ := by
    decide +kernel
  have hin := h _ _ hparse ⟨256, 0, 0xFFFFFFFFFFFFFF80, 0⟩ (by simp) (by decide)
  rw [List.length_replicate] at hin
  exact absurd hin (by decide)

/-- At offset 0 and length 128 the same blob is accepted, its sum fits and its
slot fills the weight area. -/
theorem fitting_slot_inside :
    ∃ blob, wtParse (oneSlotBlob 128 0 0) = .ok blob ∧
      ((∀ s ∈ blob.slots, s.addr ≠ wtSlotExtWgt →
        s.offset.toNat + s.len.toNat ≤ blob.weight.length) ↔ SlotSumsFit (oneSlotBlob 128 0 0)) := by
  have hparse : wtParse (oneSlotBlob 128 0 0) =
      .ok ⟨2, [⟨128, 0, 0, 0⟩], [⟨.nop, [], rfl⟩], 128, List.replicate 128 0⟩ := by
    decide +kernel
  exact ⟨_, hparse, (wtParse_inline_slots_inside_iff (oneSlotBlob 128 0 0)).2 _ hparse⟩

end Gehtp.Analysis.OplistParseBounds
