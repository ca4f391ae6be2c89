import Gehtp.Model.WtopBlob
import Gehtp.Analysis.OplistParseBounds

/-!
# Emit, then parse

The compiler's writer and the device's reader are two implementations of one
format. The proof walks the blob from the front: `StandsAt` places each piece
that the writer lays down at its position, and one lemma per reader function says
that it returns the piece that stands where it reads. The parser then accepts the
blob and returns the emitter's slots, ops and weight area, in both versions,
provided no slot is empty and every flagged slot reference names a slot of the
table; the parser rejects the blob otherwise.
-/

set_option autoImplicit false

namespace Gehtp.Analysis.WtopRoundTrip

open Lib Model.OplistParse Model.WtopBlob

/-- The flagged values at the slot positions of an op name slots below `n`. -/
def RefsBelow (n : ℕ) (op : WtOp) : Prop :=
  ∀ v a, (v, a) ∈ op.args.zipIdx → argIsSlot op.opcode a = true →
    ¬ (op.opcode = .dma ∧ v &&& 0xC000 = 0xC000) → v &&& 0x8000 ≠ 0 →
      (v &&& 0x7FFF).toNat < n

theorem checkRefs_of_refsBelow {n : ℕ} {op : WtOp} (h : RefsBelow n op) :
    checkRefs n op = .ok () := by
  rw [checkRefs, forM_eq_ok]
  rintro ⟨v, a⟩ hmem
  unfold checkRef
  split
  · rfl
  · rename_i hslot
    split
    · rfl
    · rename_i hdma
      rw [ensure_eq_ok]
      rintro ⟨hflag, hge⟩
      have hlt := h v a hmem (by simpa using hslot) hdma hflag
      exact absurd hge (not_le.mpr hlt)

/-! ### Pieces of equal size -/

theorem slotBytes_length (v2 : Bool) (s : WtSlot) :
    (slotBytes v2 s).length = slotRec (blobVer v2) := by
  cases v2 <;> rfl

theorem flatMap_length_const {α : Type} (f : α → List UInt8) (k : ℕ) (l : List α)
    (h : ∀ x, (f x).length = k) : (l.flatMap f).length = l.length * k := by
  induction l with
  | nil => simp
  | cons x l ih =>
    rw [List.flatMap_cons, List.length_append, h, ih, List.length_cons, Nat.add_mul, Nat.one_mul,
      Nat.add_comm]

theorem standsAt_flatMap {α : Type} (buf : Buf) (f : α → List UInt8) (k : ℕ)
    (h : ∀ x, (f x).length = k) (l : List α) (p : ℕ) (hp : StandsAt buf p (l.flatMap f))
    (i : ℕ) (hi : i < l.length) : StandsAt buf (p + i * k) (f l[i]) := by
  induction l generalizing p i with
  | nil => simp at hi
  | cons x l ih =>
    rw [List.flatMap_cons, standsAt_append, h] at hp
    cases i with
    | zero => simpa using hp.1
    | succ i =>
      have hstep := ih (p + k) hp.2 i (by simpa using hi)
      rw [Nat.add_mul, Nat.one_mul, List.getElem_cons_succ]
      rwa [Nat.add_assoc, Nat.add_comm k] at hstep

/-! ### One reader, one piece -/

/-- A slot record is read back as the slot, whenever its offset fits in the
width the version writes. SOURCE: wtop_emit.cpp:630-647 -/
theorem rdSlot_slotBytes (buf : Buf) (v2 : Bool) (s : WtSlot) (p : ℕ)
    (hoff : s.offset.toNat < 2 ^ 32) (h : StandsAt buf p (slotBytes v2 s)) :
    rdSlot buf (blobVer v2) p = .ok s := by
  cases v2 with
  | false =>
    simp only [slotBytes, Bool.false_eq_true, if_false, standsAt_append, u32le_length] at h
    obtain ⟨hlen, hcount, ho, ha⟩ := h
    have hback : s.offset.toUInt32.toUInt64 = s.offset := by
      apply UInt64.toNat_inj.mp
      rw [UInt32.toNat_toUInt64, UInt64.toNat_toUInt32, Nat.mod_eq_of_lt hoff]
    have hver : ¬ wtBlobVer2 ≤ blobVer false := by decide
    simp only [rdSlot, hver, if_false, bind_eq_ok]
    refine ⟨s.len, rdU32_standsAt buf p _ hlen, s.count, rdU32_standsAt buf _ _ hcount,
      s.offset.toUInt32, rdU32_standsAt buf _ _ ho, s.addr, rdU32_standsAt buf _ _ ha, ?_⟩
    rw [hback]
    rfl
  | true =>
    simp only [slotBytes, if_true, standsAt_append, u32le_length] at h
    obtain ⟨hlen, hcount, hlo, hhi, ha, -⟩ := h
    have hver : wtBlobVer2 ≤ blobVer true := by decide
    simp only [rdSlot, hver, if_true, bind_eq_ok]
    refine ⟨s.len, rdU32_standsAt buf p _ hlen, s.count, rdU32_standsAt buf _ _ hcount,
      u64lo s.offset, rdU32_standsAt buf _ _ hlo, u64hi s.offset, rdU32_standsAt buf _ _ hhi,
      s.addr, rdU32_standsAt buf _ _ ha, ?_⟩
    rw [u64OfHalves_lo_hi]
    rfl

theorem rdArgs_flatMap (buf : Buf) (args : List UInt32) (p n : ℕ) (hn : args.length = n)
    (h : StandsAt buf p (args.flatMap u32le)) : rdArgs buf p n = .ok ⟨args, hn⟩ := by
  induction args generalizing p n with
  | nil =>
    subst hn
    rfl
  | cons x args ih =>
    subst hn
    rw [List.flatMap_cons, standsAt_append, u32le_length] at h
    simp only [List.length_cons, rdArgs, bind_eq_ok]
    exact ⟨x, rdU32_standsAt buf p x h.1, _, ih (p + 4) args.length rfl h.2, rfl⟩

theorem arityOf_le (o : Opcode) : arityOf o ≤ 16 := by
  cases o <;> decide

theorem opBytes_length (op : WtOp) : (opBytes op).length = 4 + op.args.length * 4 := by
  simp only [opBytes, List.length_append, u16le_length,
    flatMap_length_const u32le 4 op.args u32le_length]
  omega

/-- An op is read back where it stands. SOURCE: wtop_emit.cpp:650-659 -/
theorem parseOp_opBytes (buf : Buf) (op : WtOp) (p : ℕ) (h : StandsAt buf p (opBytes op)) :
    parseOp buf p = .ok op := by
  have hne : opBytes op ≠ [] := by
    intro hnil
    have hlen := opBytes_length op
    rw [hnil, List.length_nil] at hlen
    omega
  have hsize := standsAt_length buf p _ h hne
  rw [opBytes_length] at hsize
  simp only [opBytes, standsAt_append, u16le_length] at h
  obtain ⟨hcode, hnum, hargs⟩ := h
  have harity := op.arity
  have hnArgs : op.args.length.toUInt16.toNat = arityOf op.opcode := by
    have hle := arityOf_le op.opcode
    rw [harity, Nat.toUInt16, UInt16.toNat_ofNat', Nat.mod_eq_of_lt (by omega)]
  simp only [parseOp, bind_eq_ok, ensure_eq_ok]
  refine ⟨(), by omega, op.opcode.code, rdU16_standsAt buf p _ hcode, _,
    rdU16_standsAt buf (p + 2) _ hnum, ?_⟩
  rw [Opcode.ofCode_code]
  simp only [bind_eq_ok, ensure_eq_ok]
  exact ⟨(), hnArgs, (), by omega, _, rdArgs_flatMap buf op.args (p + 4) _ op.arity hargs, rfl⟩

/-- The op table is read back. SOURCE: wtop_emit.cpp:650-659 -/
theorem parseOps_flatMap (buf : Buf) (ops : List WtOp) (p : ℕ)
    (h : StandsAt buf p (ops.flatMap opBytes)) :
    parseOps buf ops.length p = .ok (ops, p + (ops.flatMap opBytes).length) := by
  induction ops generalizing p with
  | nil => rfl
  | cons op ops ih =>
    rw [List.flatMap_cons, standsAt_append, opBytes_length] at h
    simp only [List.length_cons, parseOps, bind_eq_ok]
    refine ⟨op, parseOp_opBytes buf op p h.1, _, ih _ h.2, ?_⟩
    rw [List.flatMap_cons, List.length_append, opBytes_length, Nat.add_assoc p]
    rfl

/-! ### The whole blob -/

theorem blobVer_eq (v2 : Bool) : blobVer v2 = wtBlobVer ∨ blobVer v2 = wtBlobVer2 := by
  cases v2
  · exact .inl rfl
  · exact .inr rfl

/-- The header is read back. SOURCE: wtop_emit.cpp:624-629 -/
theorem parseHeader_headerBytes (buf : Buf) (v2 : Bool) (nSlots nOps : UInt32)
    (hs : nSlots ≠ 0 ∧ nSlots ≤ wtMaxSlots) (ho : nOps ≠ 0 ∧ nOps ≤ wtMaxOps)
    (h : StandsAt buf 0 (headerBytes (blobVer v2) nSlots nOps)) :
    parseHeader buf = .ok ⟨blobVer v2, nSlots, nOps⟩ := by
  have hsize : 16 ≤ buf.size := standsAt_length buf 0 _ h (by simp [headerBytes])
  simp only [headerBytes, standsAt_append, u16le_length, u32le_length, List.length_cons,
    List.length_nil] at h
  obtain ⟨hmagic, hver, heck, hslots, hops⟩ := h
  simp only [parseHeader, bind_eq_ok, ensure_eq_ok]
  exact ⟨(), hsize, 87, byteAt_standsAt buf 0 0 _ _ hmagic rfl,
    84, byteAt_standsAt buf 0 1 _ _ hmagic rfl, 79, byteAt_standsAt buf 0 2 _ _ hmagic rfl,
    80, byteAt_standsAt buf 0 3 _ _ hmagic rfl, (), by decide,
    _, rdU16_standsAt buf 4 _ hver, (), blobVer_eq v2, _, rdU16_standsAt buf 6 _ heck, (), rfl,
    _, rdU32_standsAt buf 8 _ hslots, _, rdU32_standsAt buf 12 _ hops, (), hs, (), ho, rfl⟩

/-- A non-empty slot of the emitter passes the parser's own check of its record.
The version 1 limit holds because version 1 is only written for areas below it. -/
theorem parseSlot_emitted (em : Emitter) (buf : Buf) (forceV2 : Bool) (s : WtSlot) (i : ℕ)
    (hs : s ∈ em.slots) (hlen : s.len ≠ 0)
    (h : StandsAt buf (16 + i * slotRec (blobVer (needV2 em forceV2)))
      (slotBytes (needV2 em forceV2) s)) :
    parseSlot buf (blobVer (needV2 em forceV2)) i = .ok s := by
  obtain ⟨hal, hoff, hend⟩ := em.slots_in_area s hs
  have hl := s.len.toNat_lt
  simp only [parseSlot, bind_eq_ok, ensure_eq_ok]
  refine ⟨s, rdSlot_slotBytes buf _ s _ hoff h, (), hlen, (), ?_, (), ?_, rfl⟩
  · apply UInt64.toNat_inj.mp
    rw [UInt64.toNat_mod]
    exact hal
  · rintro ⟨hver, hbig⟩
    have hv1 : needV2 em forceV2 = false := by
      cases hv : needV2 em forceV2 with
      | false => rfl
      | true =>
        rw [hv] at hver
        exact absurd hver (by decide)
    simp only [needV2, Bool.or_eq_false_iff, decide_eq_false_iff_not, not_lt] at hv1
    have hbig' := UInt64.lt_iff_toNat_lt.mp hbig
    rw [OplistParseBounds.slotEnd_toNat s (by omega),
      show (0xFFFFFFFF : UInt64).toNat = 0xFFFFFFFF from rfl] at hbig'
    split at hend <;> omega

theorem checkSlotEnd_emitted (em : Emitter) (s : WtSlot) (hs : s ∈ em.slots) :
    checkSlotEnd em.weightArea.length s = .ok () := by
  obtain ⟨-, hoff, hend⟩ := em.slots_in_area s hs
  have hl := s.len.toNat_lt
  unfold checkSlotEnd
  split
  · rfl
  · rename_i haddr
    rw [if_neg haddr] at hend
    rw [ensure_eq_ok, OplistParseBounds.slotEnd_toNat s (by omega)]
    exact hend

theorem opsEnd_le (em : Emitter) (v2 : Bool) (hslots : em.slots.length ≤ 4096)
    (hops : em.ops.length ≤ 65536) : opsEnd em v2 ≤ 16 + 4096 * 24 + 65536 * 68 := by
  have hs : (em.slots.flatMap (slotBytes v2)).length ≤ 4096 * 24 := by
    rw [flatMap_length_const _ _ _ (slotBytes_length v2)]
    have hrec : slotRec (blobVer v2) ≤ 24 := by cases v2 <;> decide
    exact Nat.mul_le_mul hslots hrec
  have ho : (em.ops.flatMap opBytes).length ≤ em.ops.length * 68 := by
    induction em.ops with
    | nil => simp
    | cons op ops ih =>
      have harity := arityOf_le op.opcode
      rw [List.flatMap_cons, List.length_append, opBytes_length, op.arity, List.length_cons]
      omega
  unfold opsEnd
  omega

theorem alignUp_opsEnd (p : ℕ) (h : p ≤ 16 + 4096 * 24 + 65536 * 68) :
    (alignUp p.toUInt32 wtWeightAlign).toNat = (p + 127) / 128 * 128 := by
  have hp : p.toUInt32.toNat = p := by
    rw [Nat.toUInt32, UInt32.toNat_ofNat', Nat.mod_eq_of_lt (by omega)]
  have hadd : (p.toUInt32 + wtWeightAlign - 1).toNat = p + 127 := by
    rw [UInt32.toNat_sub, UInt32.toNat_add, hp]
    simp only [wtWeightAlign, UInt32.reduceToNat]
    omega
  rw [alignUp, UInt32.toNat_mul, UInt32.toNat_div, hadd]
  simp only [wtWeightAlign, UInt32.reduceToNat]
  omega

theorem opsEnd_le_weightOff (em : Emitter) (v2 : Bool) : opsEnd em v2 ≤ weightOff em v2 := by
  unfold weightOff
  omega

theorem assemble_eq_append (em : Emitter) (forceV2 : Bool) :
    ∃ front, assemble em forceV2 = front ++ em.weightArea ∧
      front.length = weightOff em (needV2 em forceV2) := by
  have hle := opsEnd_le_weightOff em (needV2 em forceV2)
  refine ⟨headerBytes (blobVer (needV2 em forceV2)) em.slots.length.toUInt32
    em.ops.length.toUInt32 ++ (em.slots.flatMap (slotBytes (needV2 em forceV2)) ++
      (em.ops.flatMap opBytes ++
        List.replicate (weightOff em (needV2 em forceV2) - opsEnd em (needV2 em forceV2)) 0)),
    by simp only [assemble, List.append_assoc], ?_⟩
  have hhead (ver : UInt16) (m n : UInt32) : (headerBytes ver m n).length = 16 := rfl
  simp only [List.length_append, List.length_replicate, hhead]
  simp only [opsEnd] at hle ⊢
  omega

theorem toUInt32_toNat (n : ℕ) (h : n < 2 ^ 32) : n.toUInt32.toNat = n := by
  rw [Nat.toUInt32, UInt32.toNat_ofNat', Nat.mod_eq_of_lt h]

theorem toUInt32_in_range (n : ℕ) (m : UInt32) (h1 : 1 ≤ n) (hm : n ≤ m.toNat) :
    n.toUInt32 ≠ 0 ∧ n.toUInt32 ≤ m := by
  have hlt := m.toNat_lt
  have hn := toUInt32_toNat n (by omega)
  constructor
  · intro h0
    rw [h0] at hn
    exact absurd hn (by rw [UInt32.toNat_zero]; omega)
  · rw [UInt32.le_iff_toNat_le, hn]
    exact hm

/-- Parsing an assembled blob gives back what it was assembled from, in version 1
and in version 2, for 1 to 4096 non-empty slots and 1 to 65536 ops whose flagged
slot references name slots of the table.
SOURCE: wtop_emit.cpp:604-663, oplist_parse.c:86-169 -/
theorem wtParse_assemble (em : Emitter) (forceV2 : Bool)
    (hslots : 1 ≤ em.slots.length ∧ em.slots.length ≤ 4096)
    (hops : 1 ≤ em.ops.length ∧ em.ops.length ≤ 65536)
    (hlen : ∀ s ∈ em.slots, s.len ≠ 0)
    (hrefs : ∀ op ∈ em.ops, RefsBelow em.slots.length op)
    (hsize : (assemble em forceV2).length < 2 ^ 64) :
    ∃ blob, wtParse ⟨assemble em forceV2, hsize⟩ = .ok blob ∧
      blob.slots = em.slots ∧ blob.ops = em.ops ∧ blob.weight = em.weightArea ∧
      blob.ver = blobVer (needV2 em forceV2) := by
  set buf : Buf := ⟨assemble em forceV2, hsize⟩ with hbuf
  set v2 := needV2 em forceV2 with hv2
  have hall : StandsAt buf 0 (assemble em forceV2) := by
    simp [StandsAt, hbuf]
  simp only [assemble, standsAt_append, ← hv2] at hall
  obtain ⟨hhead, htable, hcode, -⟩ := hall
  have hheadLen : (headerBytes (blobVer v2) em.slots.length.toUInt32
      em.ops.length.toUInt32).length = 16 := rfl
  have htableLen : (em.slots.flatMap (slotBytes v2)).length =
      em.slots.length * slotRec (blobVer v2) :=
    flatMap_length_const _ _ _ (slotBytes_length v2)
  rw [hheadLen, Nat.zero_add] at htable hcode
  rw [htableLen] at hcode
  have hnSlots := toUInt32_toNat em.slots.length (by omega)
  have hnOps := toUInt32_toNat em.ops.length (by omega)
  have hoff : (alignUp (opsEnd em v2).toUInt32 wtWeightAlign).toNat = weightOff em v2 :=
    alignUp_opsEnd (opsEnd em v2) (opsEnd_le em v2 hslots.2 hops.2)
  obtain ⟨front, hfront, hfrontLen⟩ := assemble_eq_append em forceV2
  rw [← hv2] at hfrontLen
  have hbytes : buf.bytes = front ++ em.weightArea := hfront
  have htotal : buf.size = weightOff em v2 + em.weightArea.length := by
    rw [Buf.size, hbytes, List.length_append, hfrontLen]
  have hdrop : buf.bytes.drop (weightOff em v2) = em.weightArea := by
    rw [hbytes, ← hfrontLen, List.drop_left]
  refine ⟨⟨blobVer v2, em.slots, em.ops, alignUp (opsEnd em v2).toUInt32 wtWeightAlign,
    em.weightArea⟩, ?_, rfl, rfl, rfl, rfl⟩
  simp only [wtParse, bind_eq_ok, ensure_eq_ok, mapM_eq_ok, forM_eq_ok]
  refine ⟨⟨blobVer v2, em.slots.length.toUInt32, em.ops.length.toUInt32⟩,
    parseHeader_headerBytes buf v2 _ _ (toUInt32_in_range _ _ hslots.1 hslots.2)
      (toUInt32_in_range _ _ hops.1 hops.2) hhead, (), ?_, em.slots, ?_,
    (em.ops, opsEnd em v2), ?_, (), ?_, (), ?_, (), ?_, ?_⟩
  · have hle := opsEnd_le_weightOff em v2
    rw [opsEnd, htableLen] at hle
    show 16 + em.slots.length.toUInt32.toNat * slotRec (blobVer v2) ≤ buf.size
    rw [hnSlots]
    omega
  · rw [hnSlots]
    refine List.forall₂_iff_get.mpr ⟨by simp, fun i h1 h2 => ?_⟩
    simp only [List.get_eq_getElem, List.getElem_range]
    refine parseSlot_emitted em buf forceV2 _ i (List.getElem_mem h2) (hlen _ (List.getElem_mem h2))
      ?_
    exact standsAt_flatMap buf _ _ (slotBytes_length v2) em.slots 16 htable i h2
  · rw [hnSlots, hnOps, parseOps_flatMap buf em.ops _ hcode, opsEnd, htableLen]
  · rw [hoff]
    omega
  · intro s hs
    rw [hoff, htotal, Nat.add_sub_cancel_left]
    exact checkSlotEnd_emitted em s hs
  · intro op hop
    rw [hnSlots]
    exact checkRefs_of_refsBelow (hrefs op hop)
  · rw [hoff, hdrop]
    rfl

/-- An emitter with one slot of 128 zero bytes and one `OP_PIN` of it. -/
def pinEmitter : Emitter :=
  addOp (addSlot emptyEmitter 128 64 0 (List.replicate 128 0) (by rw [List.length_replicate]; rfl)
    (by decide)) ⟨.pin, [0x8000], rfl⟩

/-- The one-slot emitter goes through the blob and back in version 2. -/
theorem wtParse_assemble_pinEmitter :
    ∃ hsize : (assemble pinEmitter true).length < 2 ^ 64,
      ∃ blob, wtParse ⟨assemble pinEmitter true, hsize⟩ = .ok blob ∧
        blob.slots = pinEmitter.slots ∧ blob.ops = pinEmitter.ops ∧
        blob.weight = pinEmitter.weightArea ∧ blob.ver = blobVer (needV2 pinEmitter true) :=
  ⟨by decide +kernel, wtParse_assemble pinEmitter true (by decide +kernel) (by decide +kernel)
    (by decide) (by
      intro op hop v a hmem _ _ _
      rw [pinEmitter, addOp, addSlot, emptyEmitter] at hop
      simp only [List.nil_append, List.mem_singleton] at hop
      subst hop
      simp only [List.zipIdx_cons, List.zipIdx_nil, List.mem_singleton, Prod.mk.injEq] at hmem
      rw [hmem.1]
      decide +kernel) (by decide +kernel)⟩

/-- The same emitter with an empty slot, or with an op that refers to slot 1. -/
def emptySlotEmitter : Emitter :=
  addOp (addSlot emptyEmitter 0 0 0 [] rfl (by decide)) ⟨.pin, [0x8000], rfl⟩

def danglingRefEmitter : Emitter :=
  addOp (addSlot emptyEmitter 128 64 0 (List.replicate 128 0) (by rw [List.length_replicate]; rfl)
    (by decide)) ⟨.pin, [0x8001], rfl⟩

/-- Neither an empty slot nor a reference to a slot that does not exist survives
the parser, although both emitters have one slot and one op of the right arity. -/
theorem assemble_rejected :
    (∃ hsize, wtParse ⟨assemble emptySlotEmitter false, hsize⟩ =
        .error (.reject .weightOverrun)) ∧
      ∃ hsize, wtParse ⟨assemble danglingRefEmitter false, hsize⟩ = .error (.reject .badRef) :=
  ⟨⟨by decide +kernel, by decide +kernel⟩, ⟨by decide +kernel, by decide +kernel⟩⟩

end Gehtp.Analysis.WtopRoundTrip
