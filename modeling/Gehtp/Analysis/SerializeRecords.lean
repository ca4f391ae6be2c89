import Gehtp.Model.Serialize
import Gehtp.Analysis.WtopRoundTrip
import Gehtp.Analysis.DeserializeState
import Mathlib.Data.List.TakeWhile
import Mathlib.Tactic.IntervalCases

/-!
# What is written is read back, record by record

The writer pads the data of a record to whole words before it, the reader after it; as long as
every record is a number of whole words there is nothing to pad, and the buffer is the bytes of
the records one after the other. `Decodes` says of a list of such records that the walk of the
deserializer reads them, wherever they stand.
-/

set_option autoImplicit false

namespace Gehtp.Analysis.SerializeRecords

open Lib Model.OpExtra Model.GraphBin Model.Deserialize Model.Serialize Analysis.WtopRoundTrip
  Analysis.DeserializeBounds Analysis.DeserializeState

/-! ### The writer -/

/-- The bytes of a record of whole words. -/
def itemBytes : Item → List UInt8
  | .record tag data _ => u32le (encodeBinTag tag) ++ (u32le (wordCount data.length) ++
      (u32le (wordCount data.length) ++ data))
  | .word val => u32le val
  | .mode _ => []

/-- The item writes whole words, and all of its data. -/
def Whole : Item → Prop
  | .record _ data size => size = data.length ∧ data.length % 4 = 0
  | .word _ => True
  | .mode _ => False

def put (ser : Serializer) (l : List UInt8) : Serializer :=
  if ser.measureOnly = true ∨ ser.prescan = true then
    { ser with bytesFilled := ser.bytesFilled + l.length }
  else { ser with written := ser.written ++ l }

theorem put_nil (ser : Serializer) : put ser [] = ser := by
  unfold put
  split
  · rfl
  · rw [List.append_nil]

theorem put_put (ser : Serializer) (l m : List UInt8) : put (put ser l) m = put ser (l ++ m) := by
  unfold put
  by_cases h : ser.measureOnly = true ∨ ser.prescan = true
  · rw [if_pos h, if_pos h, if_pos h, List.length_append, Nat.add_assoc]
  · rw [if_neg h, if_neg h, if_neg h, List.append_assoc]

theorem currentPosition_put (ser : Serializer) (l : List UInt8) :
    (put ser l).currentPosition = ser.currentPosition + l.length := by
  unfold put Serializer.currentPosition
  split
  · simp only
    omega
  · simp only [List.length_append]
    omega

theorem serializeFwrite_unaligned (ser : Serializer) (l : List UInt8) :
    serializeFwrite ser l l.length false = .ok (put ser l) := by
  unfold serializeFwrite put
  by_cases h : ser.measureOnly = true ∨ ser.prescan = true
  · rw [if_pos h, if_pos h]
    rfl
  · rw [if_neg h, if_neg h, if_neg (by omega), List.take_length]
    rfl

variable {ser : Serializer} {items : List Item} {n fin : ℕ} {tag : UInt32} {data s : List UInt8}

theorem serializeFwrite_aligned (h : ser.currentPosition % 4 = 0) (l : List UInt8) :
    serializeFwrite ser l l.length true = .ok (put ser l) := by
  rw [← serializeFwrite_unaligned]
  unfold serializeFwrite alignPad
  rw [if_pos h]
  rfl

theorem serializeUint32_eq (ser : Serializer) (a b c : UInt32) :
    serializeUint32 ser a b c = .ok (put ser (u32le a ++ (u32le b ++ u32le c))) := by
  unfold serializeUint32
  rw [show (4 : ℕ) = (u32le a).length from rfl, serializeFwrite_unaligned]
  show serializeFwrite (put ser (u32le a)) (u32le b) (u32le b).length false >>= _ = _
  rw [serializeFwrite_unaligned]
  show serializeFwrite _ (u32le c) (u32le c).length false = _
  rw [serializeFwrite_unaligned, put_put, put_put]

theorem write_eq (h : ser.currentPosition % 4 = 0) {item : Item} (hitem : Whole item) :
    item.write ser = .ok (put ser (itemBytes item)) := by
  cases item with
  | record tag data size =>
    obtain ⟨rfl, hdata⟩ := hitem
    show writeTaggedRecord ser tag data data.length = _
    unfold writeTaggedRecord
    rw [serializeUint32_eq]
    show (if data.length = 0 then _ else _) = _
    by_cases hnil : data.length = 0
    · obtain rfl := List.length_eq_zero_iff.mp hnil
      rw [if_pos hnil]
      rfl
    · have hpos : (put ser (u32le (encodeBinTag tag) ++ (u32le (wordCount data.length) ++
          u32le (wordCount data.length)))).currentPosition % 4 = 0 := by
        rw [currentPosition_put]
        simp only [List.length_append, u32le_length]
        omega
      rw [if_neg hnil, serializeFwrite_aligned hpos, put_put]
      simp only [itemBytes, List.append_assoc]
  | word val => exact serializeFwrite_unaligned ser (u32le val)
  | mode prescan => exact hitem.elim

theorem itemBytes_words {item : Item} (hitem : Whole item) : (itemBytes item).length % 4 = 0 := by
  cases item with
  | record tag data size =>
    have hdata := hitem.2
    simp only [itemBytes, List.length_append, u32le_length]
    omega
  | word val => simp [itemBytes]
  | mode prescan => simp [itemBytes]

theorem foldlM_write (hitems : ∀ item ∈ items, Whole item) (h : ser.currentPosition % 4 = 0) :
    items.foldlM Item.write ser = .ok (put ser (items.flatMap itemBytes)) ∧
      (put ser (items.flatMap itemBytes)).currentPosition % 4 = 0 := by
  induction items generalizing ser with
  | nil =>
    rw [List.flatMap_nil, put_nil]
    exact ⟨rfl, h⟩
  | cons item items ih =>
    have hitem := hitems item List.mem_cons_self
    have hpos : (put ser (itemBytes item)).currentPosition % 4 = 0 := by
      have := itemBytes_words hitem
      rw [currentPosition_put]
      omega
    rw [List.foldlM_cons, write_eq h hitem, List.flatMap_cons, ← put_put]
    exact ih (fun i hi => hitems i (List.mem_cons_of_mem item hi)) hpos

/-! ### The walk -/

theorem u32At_standsAt {b : Buf} {p : ℕ} {x : UInt32} (h : StandsAt b p (u32le x)) :
    u32At b p = x := by
  have hle := standsAt_length b p (u32le x) h (by simp [u32le])
  have hread : (rdU32 b p : Checked Unit UInt32) = .ok (u32At b p) :=
    (reads_rdU32 b p).ok (by simpa using hle)
  rw [rdU32_standsAt b p x h] at hread
  exact (Except.ok.inj hread).symm

/-- Wherever the items stand, the walk reads the records and goes on after them. -/
def Decodes (items : List Item) (records : List Record) : Prop :=
  ∀ (b : Buf) (p fuel : ℕ), StandsAt b p (items.flatMap itemBytes) →
    rdRecords b (items.length + fuel) p =
      (rdRecords b fuel (p + (items.flatMap itemBytes).length) >>= fun rest =>
        pure (records ++ rest))

/-- A tag is decoded, and its header is no separator. -/
structure GoodTag (tag : UInt32) : Prop where
  tagOf_encode : tagOf (encodeBinTag tag) = tag
  normal : encodeBinTag tag ≠ separatorNormal
  aux : encodeBinTag tag ≠ separatorAux
  stop : encodeBinTag tag ≠ separatorEnd

theorem dataSize_wordCount (h4 : n % 4 = 0) (h : n < 2 ^ 34) : dataSize (wordCount n) = n := by
  unfold dataSize wordCount
  rw [Nat.mod_eq_of_lt (show n + 3 < 2 ^ 64 by omega), UInt32.toNat_ofNat']
  omega

theorem decodes_record (htag : GoodTag tag) {size : ℕ} (h4 : data.length % 4 = 0)
    (hlen : data.length < 2 ^ 34) {r : Record}
    (hr : ∀ b rec, rec + data.length ≤ b.size → StandsAt b rec data →
      rdRecord b tag rec data.length = .ok r) :
    Decodes [.record tag data size] [r] := by
  intro b p fuel h
  rw [List.flatMap_cons, List.flatMap_nil, List.append_nil] at h ⊢
  have hfits := standsAt_length b p _ h (by simp [itemBytes, u32le])
  simp only [itemBytes, standsAt_append, u32le_length, List.length_append] at h hfits
  obtain ⟨hword, hcount, -, hdata⟩ := h
  have hsize : sizeAt b p = data.length := by
    unfold sizeAt
    rw [u32At_standsAt hcount, dataSize_wordCount h4 hlen]
  have hhead : HeaderAt b p := by
    unfold HeaderAt SeparatorAt
    rw [u32At_standsAt hword]
    exact ⟨by simp [htag.normal, htag.aux], htag.stop⟩
  rw [List.length_singleton, Nat.add_comm 1, rdRecords_record fuel (by omega) hhead, hsize,
    u32At_standsAt hword, htag.tagOf_encode, hr b (p + 12) (by omega)
      (by rwa [Nat.add_assoc, Nat.add_assoc] at hdata)]
  simp only [itemBytes, List.length_append, u32le_length]
  rw [show p + (4 + (4 + (4 + data.length))) = p + 12 + data.length by omega]
  rfl

/-! ### One reader, one piece -/

theorem standsAt_cast {b : Buf} {p q : ℕ} {l : List UInt8} (h : StandsAt b p l) (hpq : p = q) :
    StandsAt b q l := hpq ▸ h

theorem rdBytes_standsAt {b : Buf} {p : ℕ} {l : List UInt8} (h : StandsAt b p l) :
    (rdBytes b p l.length : Checked Unit (List UInt8)) = .ok l := by
  unfold rdBytes
  rw [bytesAt_standsAt h]
  by_cases hnil : l = []
  · rw [if_pos (.inl (by rw [hnil]; rfl))]
  · rw [if_pos (.inr (standsAt_length b p l h hnil))]

section Tables

variable {α β : Type} {b : Buf} {f : ℕ → Checked Unit β} {stride : ℕ} {enc : α → List UInt8}
  {g : α → β} (hlen : ∀ a, (enc a).length = stride)
  (hf : ∀ p a, StandsAt b p (enc a) → f p = .ok (g a))

include hlen hf

theorem rdChecked_standsAt {l : List α} {p : ℕ} (hfin : p + l.length * stride ≤ fin)
    (h : StandsAt b p (l.flatMap enc)) :
    rdChecked f stride fin l.length p = .ok (some (l.map g)) := by
  induction l generalizing p with
  | nil => rfl
  | cons a l ih =>
    rw [List.flatMap_cons, standsAt_append, hlen] at h
    rw [List.length_cons, Nat.succ_mul] at hfin
    rw [List.length_cons, rdChecked, remaining_of_le (by omega), if_neg (by omega)]
    simp only [bind_eq_ok]
    exact ⟨g a, hf p a h.1, some (l.map g), ih (by omega) h.2, rfl⟩

end Tables

/-- The entry that the plan of 32-bit numbers gives back. -/
def narrowEntry (e : MemPlanEntry) : MemPlanEntry where
  opId := e.opId.toUInt32.toUInt64
  outIdx := e.outIdx
  offset := e.offset.toUInt32.toUInt64
  size := e.size.toUInt32.toUInt64
  inVtcm := e.inVtcm

/-- The spill that the plan of 32-bit numbers gives back. -/
def narrowSpill (s : MemPlanSpill) : MemPlanSpill where
  opId := s.opId.toUInt32.toUInt64
  offset := s.offset.toUInt32.toUInt64
  size := s.size.toUInt32.toUInt64

def narrowPlan (mp : MemPlan) : MemPlan where
  ddrCap := mp.ddrCap.toUInt32.toUInt64
  vtcmCap := mp.vtcmCap.toUInt32.toUInt64
  bumpReserve := mp.bumpReserve.toUInt32.toUInt64
  entries := mp.entries.map narrowEntry
  spills := mp.spills.map narrowSpill

theorem rdPlanEntry_standsAt {b : Buf} {p : ℕ} {e : MemPlanEntry}
    (h : StandsAt b p (planEntryBytes e)) : rdPlanEntry b p = .ok (narrowEntry e) := by
  simp only [planEntryBytes, standsAt_append, u32le_length, Nat.add_assoc, Nat.reduceAdd] at h
  simp only [rdPlanEntry, bind_eq_ok]
  refine ⟨_, rdU32_standsAt b _ _ h.1, _, rdU32_standsAt b _ _ h.2.1,
    _, rdU32_standsAt b _ _ h.2.2.1, _, rdU32_standsAt b _ _ h.2.2.2.1,
    _, rdU32_standsAt b _ _ h.2.2.2.2, ?_⟩
  cases hv : e.inVtcm <;> simp [narrowEntry, hv, pure, Except.pure]

theorem rdPlanSpill_standsAt {b : Buf} {p : ℕ} {s : MemPlanSpill}
    (h : StandsAt b p (planSpillBytes s)) : rdPlanSpill b p = .ok (narrowSpill s) := by
  simp only [planSpillBytes, standsAt_append, u32le_length, Nat.add_assoc, Nat.reduceAdd] at h
  simp only [rdPlanSpill, bind_eq_ok]
  exact ⟨_, rdU32_standsAt b _ _ h.1, _, rdU32_standsAt b _ _ h.2.1,
    _, rdU32_standsAt b _ _ h.2.2.1, _, rdU32_standsAt b _ _ h.2.2.2, rfl⟩

/-! ### The memory plan -/

theorem toNat_ofNat_of_lt (h : n < 2 ^ 31) : (UInt32.ofNat n).toNat = n := by
  rw [UInt32.toNat_ofNat']
  omega

theorem planEntryBytes_length (e : MemPlanEntry) : (planEntryBytes e).length = 20 := rfl

theorem planSpillBytes_length (s : MemPlanSpill) : (planSpillBytes s).length = 16 := rfl

def memPlanSize (mp : MemPlan) : ℕ := 24 + mp.entries.length * 20 + mp.spills.length * 16

theorem memPlanBytes_length (mp : MemPlan) : (memPlanBytes mp).length = memPlanSize mp := by
  simp only [memPlanBytes, List.length_append, u32le_length,
    flatMap_length_const planEntryBytes 20 _ planEntryBytes_length,
    flatMap_length_const planSpillBytes 16 _ planSpillBytes_length]
  unfold memPlanSize
  omega

theorem rdMemPlan_standsAt {b : Buf} {rec : ℕ} {mp : MemPlan} (hsize : memPlanSize mp < 2 ^ 31)
    (h : StandsAt b rec (memPlanBytes mp)) :
    rdMemPlan b rec (memPlanSize mp) = .ok (some (narrowPlan mp)) := by
  have hend := memPlanSize.eq_def mp
  have hne : (UInt32.ofNat mp.entries.length).toNat = mp.entries.length :=
    toNat_ofNat_of_lt (by omega)
  have hns : (UInt32.ofNat mp.spills.length).toNat = mp.spills.length :=
    toNat_ofNat_of_lt (by omega)
  simp only [memPlanBytes, standsAt_append, u32le_length, Nat.add_assoc, Nat.reduceAdd,
    flatMap_length_const planEntryBytes 20 _ planEntryBytes_length] at h
  obtain ⟨h0, h1, h2, h3, h4, h5, h6, h7⟩ := h
  have hentries : rdChecked (rdPlanEntry b) 20 (rec + memPlanSize mp) mp.entries.length (rec + 20) =
      .ok (some (mp.entries.map narrowEntry)) :=
    rdChecked_standsAt planEntryBytes_length (fun _ _ => rdPlanEntry_standsAt) (by omega) h5
  have hspills : rdChecked (rdPlanSpill b) 16 (rec + memPlanSize mp) mp.spills.length
      (rec + 20 + mp.entries.length * 20 + 4) = .ok (some (mp.spills.map narrowSpill)) :=
    rdChecked_standsAt planSpillBytes_length (fun _ _ => rdPlanSpill_standsAt) (by omega)
      (standsAt_cast h7 (by omega))
  unfold rdMemPlan
  rw [if_neg (by omega), bind_eq_ok]
  refine ⟨1, rdU32_standsAt b _ _ h0, ?_⟩
  rw [if_neg (by decide)]
  simp only [bind_eq_ok]
  refine ⟨_, rdU32_standsAt b _ _ h1, _, rdU32_standsAt b _ _ h2, _, rdU32_standsAt b _ _ h3,
    _, rdU32_standsAt b _ _ h4, some (mp.entries.map narrowEntry), ?_, ?_⟩
  · rw [hne]
    exact hentries
  · rw [hne]
    simp only
    rw [remaining_of_le (by omega), if_neg (by omega)]
    simp only [bind_eq_ok]
    refine ⟨UInt32.ofNat mp.spills.length, rdU32_standsAt b _ _ (standsAt_cast h6 (by omega)),
      some (mp.spills.map narrowSpill), ?_, rfl⟩
    rw [hns]
    exact hspills

/-! ### The items of the serializer -/

/-- Items of whole words that are read back as the records. -/
structure Codes (items : List Item) (records : List Record) : Prop where
  whole : ∀ item ∈ items, Whole item
  decodes : Decodes items records

theorem codes_fixed (htag : GoodTag tag) (h4 : data.length % 4 = 0) (hlen : data.length < 2 ^ 34)
    {r : Record}
    (hr : ∀ b rec, rec + data.length ≤ b.size → StandsAt b rec data →
      rdRecord b tag rec data.length = .ok r) :
    Codes [.fixed tag data] [r] where
  whole := by
    intro item hitem
    obtain rfl := List.mem_singleton.mp hitem
    exact ⟨rfl, h4⟩
  decodes := decodes_record htag h4 hlen hr

theorem intSize_of_lt (h : n < 2 ^ 31) : intSize n = n := by
  unfold intSize
  rw [if_pos (by omega)]
  omega

theorem table_eq_fixed (h : data.length < 2 ^ 31) : Item.table tag data = Item.fixed tag data := by
  unfold Item.table Item.fixed
  rw [intSize_of_lt h]

theorem codes_memPlan {mp : MemPlan} (hlt : memPlanSize mp < 2 ^ 31) :
    Codes [.table tagMemPlan (memPlanBytes mp)] [.memPlan (narrowPlan mp)] := by
  have hlen := memPlanBytes_length mp
  have hwords : memPlanSize mp % 4 = 0 := by
    unfold memPlanSize
    omega
  rw [table_eq_fixed (by omega)]
  apply codes_fixed ⟨by decide, by decide, by decide, by decide⟩ (by omega) (by omega)
  intro b rec _ h
  rw [hlen, rdRecord_memPlan, rdMemPlan_standsAt hlt h]
  rfl

end Gehtp.Analysis.SerializeRecords
