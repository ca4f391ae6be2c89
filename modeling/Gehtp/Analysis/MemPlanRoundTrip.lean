import Gehtp.Analysis.SerializeRecords

/-!
# The memory plan through its record

The planner computes offsets, sizes and capacities in 64 bits, and the writer stores the low 32
bits of each of them. What is read back is always a plan of 32-bit numbers, whose record is at
most as long as the one it was read from; so the plan that comes back is the plan that was
written exactly if its numbers have 32 bits and its record has a size that an `int` can hold.
-/

set_option autoImplicit false

namespace Gehtp.Analysis.MemPlanRoundTrip

open Lib Model.GraphBin Model.Deserialize Model.Serialize Analysis.DeserializeBounds
  Analysis.DeserializeState Analysis.SerializeRecords

/-! ### Numbers of 32 bits -/

def Narrow (x : UInt64) : Prop := x.toNat < 2 ^ 32

instance (x : UInt64) : Decidable (Narrow x) := inferInstanceAs (Decidable (_ < _))

theorem narrow_iff (x : UInt64) : x.toUInt32.toUInt64 = x ↔ Narrow x := by
  unfold Narrow
  rw [← UInt64.toNat_inj, UInt32.toNat_toUInt64, UInt64.toNat_toUInt32]
  constructor
  · intro h
    rw [← h]
    exact Nat.mod_lt _ (by decide)
  · exact Nat.mod_eq_of_lt

theorem narrow_toUInt64 (x : UInt32) : Narrow x.toUInt64 := by
  unfold Narrow
  rw [UInt32.toNat_toUInt64]
  exact x.toNat_lt

structure Entry32 (e : MemPlanEntry) : Prop where
  opId : Narrow e.opId
  offset : Narrow e.offset
  size : Narrow e.size

structure Spill32 (s : MemPlanSpill) : Prop where
  opId : Narrow s.opId
  offset : Narrow s.offset
  size : Narrow s.size

/-- Every number of the plan has 32 bits. -/
structure Plan32 (mp : MemPlan) : Prop where
  ddrCap : Narrow mp.ddrCap
  vtcmCap : Narrow mp.vtcmCap
  bumpReserve : Narrow mp.bumpReserve
  entries : ∀ e ∈ mp.entries, Entry32 e
  spills : ∀ s ∈ mp.spills, Spill32 s

theorem narrowEntry_eq {e : MemPlanEntry} (h : Entry32 e) : narrowEntry e = e := by
  unfold narrowEntry
  rw [(narrow_iff _).mpr h.opId, (narrow_iff _).mpr h.offset, (narrow_iff _).mpr h.size]

theorem narrowSpill_eq {s : MemPlanSpill} (h : Spill32 s) : narrowSpill s = s := by
  unfold narrowSpill
  rw [(narrow_iff _).mpr h.opId, (narrow_iff _).mpr h.offset, (narrow_iff _).mpr h.size]

variable {mp : MemPlan} {b : Buf} {p : ℕ}

theorem narrowPlan_eq (h : Plan32 mp) : narrowPlan mp = mp := by
  have hentries : mp.entries.map narrowEntry = mp.entries := by
    apply (List.map_congr_left fun e he => narrowEntry_eq (h.entries e he)).trans
    exact List.map_id _
  have hspills : mp.spills.map narrowSpill = mp.spills := by
    apply (List.map_congr_left fun s hs => narrowSpill_eq (h.spills s hs)).trans
    exact List.map_id _
  unfold narrowPlan
  rw [(narrow_iff _).mpr h.ddrCap, (narrow_iff _).mpr h.vtcmCap, (narrow_iff _).mpr h.bumpReserve,
    hentries, hspills]

/-! ### What a record gives back -/

theorem narrowEntry_of_read {e : MemPlanEntry} (h : rdPlanEntry b p = .ok e) : Entry32 e := by
  simp only [rdPlanEntry, bind_eq_ok] at h
  obtain ⟨opId, -, outIdx, -, offset, -, size, -, flags, -, h⟩ := h
  cases h
  exact ⟨narrow_toUInt64 opId, narrow_toUInt64 offset, narrow_toUInt64 size⟩

theorem narrowSpill_of_read {s : MemPlanSpill} (h : rdPlanSpill b p = .ok s) : Spill32 s := by
  simp only [rdPlanSpill, bind_eq_ok] at h
  obtain ⟨opId, -, offset, -, size, -, pad, -, h⟩ := h
  cases h
  exact ⟨narrow_toUInt64 opId, narrow_toUInt64 offset, narrow_toUInt64 size⟩

theorem mem_rdChecked {α : Type} {f : ℕ → Checked Unit α} {stride fin n : ℕ} {l : List α}
    (h : rdChecked f stride fin n p = .ok (some l)) : l.length = n ∧ ∀ a ∈ l, ∃ q, f q = .ok a := by
  induction n generalizing p l with
  | zero =>
    cases h
    exact ⟨rfl, fun a ha => absurd ha List.not_mem_nil⟩
  | succ n ih =>
    unfold rdChecked at h
    split at h
    · cases h
    · obtain ⟨a, ha, h⟩ := (bind_eq_ok _ _ _).mp h
      obtain ⟨rest, hrest, h⟩ := (bind_eq_ok _ _ _).mp h
      cases rest with
      | none => cases h
      | some rest =>
        obtain ⟨hlen, hmem⟩ := ih hrest
        cases h
        refine ⟨by rw [List.length_cons, hlen], ?_⟩
        intro x hx
        cases hx with
        | head => exact ⟨p, ha⟩
        | tail _ hx => exact hmem x hx

theorem plan_of_read {rec size : ℕ} (h : rdMemPlan b rec size = .ok (some mp)) :
    Plan32 mp ∧ memPlanSize mp ≤ size := by
  unfold rdMemPlan at h
  split at h
  · cases h
  obtain ⟨ver, -, h⟩ := (bind_eq_ok _ _ _).mp h
  split at h
  · cases h
  obtain ⟨ddrCap, -, h⟩ := (bind_eq_ok _ _ _).mp h
  obtain ⟨vtcmCap, -, h⟩ := (bind_eq_ok _ _ _).mp h
  obtain ⟨bumpReserve, -, h⟩ := (bind_eq_ok _ _ _).mp h
  obtain ⟨ne, -, h⟩ := (bind_eq_ok _ _ _).mp h
  obtain ⟨entries, hentries, h⟩ := (bind_eq_ok _ _ _).mp h
  cases entries with
  | none => cases h
  | some entries =>
    have hle := rdChecked_le (by omega) hentries
    obtain ⟨hne, hread⟩ := mem_rdChecked hentries
    simp only [remaining_of_le hle] at h
    split at h
    · cases h
    obtain ⟨ns, -, h⟩ := (bind_eq_ok _ _ _).mp h
    obtain ⟨spills, hspills, h⟩ := (bind_eq_ok _ _ _).mp h
    cases spills with
    | none => cases h
    | some spills =>
      have hle' := rdChecked_le (by omega) hspills
      obtain ⟨hns, hread'⟩ := mem_rdChecked hspills
      cases h
      refine ⟨⟨narrow_toUInt64 ddrCap, narrow_toUInt64 vtcmCap, narrow_toUInt64 bumpReserve,
        ?_, ?_⟩, ?_⟩
      · intro e he
        obtain ⟨q, hq⟩ := hread e he
        exact narrowEntry_of_read hq
      · intro s hs
        obtain ⟨q, hq⟩ := hread' s hs
        exact narrowSpill_of_read hq
      · unfold memPlanSize
        rw [hne, hns]
        omega

theorem dataSize_lt (wordCount : UInt32) : dataSize wordCount < 2 ^ 34 := by
  have := wordCount.toNat_lt
  unfold dataSize
  omega

theorem plan_of_walk {fuel : ℕ} {records : List Record} (h : rdRecords b fuel p = .ok records)
    (hmp : Record.memPlan mp ∈ records) :
    Plan32 mp ∧ memPlanSize mp < 2 ^ 34 ∧ 12 + memPlanSize mp ≤ b.size := by
  induction fuel generalizing p records with
  | zero => cases h
  | succ fuel ih =>
    obtain ⟨-, rfl⟩ | ⟨-, -, hrest⟩ | ⟨-, -, rfl⟩ |
      ⟨hin, -, r, rest, hr, hrest, rfl⟩ := rdRecords_cases h
    · cases hmp
    · exact ih hrest hmp
    · cases hmp
    · cases hmp with
      | tail _ hmp => exact ih hrest hmp
      | head =>
        rw [tag_of_rdRecord hr _ rfl, rdRecord_memPlan] at hr
        obtain ⟨o, ho, hr⟩ := (bind_eq_ok _ _ _).mp hr
        cases o with
        | none => cases hr
        | some mp' =>
          cases hr
          obtain ⟨hnarrow, hsize⟩ := plan_of_read ho
          have hlt : sizeAt b p < 2 ^ 34 := dataSize_lt _
          exact ⟨hnarrow, by omega, by omega⟩

/-! ### The record alone -/

/-- The record of a memory plan. SOURCE: graph_prepare.cpp:1738-1765 -/
def memPlanItem (mp : MemPlan) : Item := .table tagMemPlan (memPlanBytes mp)

/-- The plan is written, and it is the plan of the object that reads what was written. -/
def PlanKept (mp : MemPlan) : Prop :=
  ∃ (ser : Serializer) (hsize : ser.written.length < 2 ^ 64) (gp : GraphPrepare),
    (memPlanItem mp).write Serializer.start = .ok ser ∧
      deserialize ⟨ser.written, hsize⟩ GraphPrepare.new = .ok gp ∧ memPart gp = (true, mp)

/-- The condition: numbers of 32 bits, and a record whose size is an `int`. -/
structure PlanFits32 (mp : MemPlan) : Prop where
  numbers : Plan32 mp
  size : memPlanSize mp < 2 ^ 31

theorem rebuild_memPart (gp : GraphPrepare) (records : List Record) :
    memPart (rebuild gp records) = memPart (records.foldl Record.apply (reset gp)) := rfl

theorem written_of_write {tag : UInt32} {data : List UInt8} {size : ℕ} {ser : Serializer}
    (h : writeTaggedRecord Serializer.start tag data size = .ok ser) :
    size ≤ data.length ∧ ser.written.length = 12 + size := by
  unfold writeTaggedRecord at h
  rw [serializeUint32_eq] at h
  change (if size = 0 then _ else _) = _ at h
  split at h
  · rename_i hzero
    cases h
    exact ⟨by omega, by rw [hzero]; rfl⟩
  · change (if data.length < size then _ else _) = _ at h
    split at h
    · cases h
    · rename_i hlen
      obtain rfl := Except.ok.inj h
      refine ⟨not_lt.mp hlen, ?_⟩
      have hhead (a b c : UInt32) :
          (put Serializer.start (u32le a ++ (u32le b ++ u32le c))).written.length = 12 := rfl
      have hpad (a b c : UInt32) : alignPad
          (put Serializer.start (u32le a ++ (u32le b ++ u32le c))).currentPosition = 0 := by
        rw [currentPosition_put]
        exact if_pos (show 12 % 4 = 0 by decide)
      rw [List.length_append, List.length_append, List.length_take_of_le (not_lt.mp hlen), hhead,
        List.length_replicate, if_pos rfl, hpad, Nat.zero_add]

theorem mem_of_memPart {records : List Record}
    (h : memPart (rebuild GraphPrepare.new records) = (true, mp)) :
    Record.memPlan mp ∈ records := by
  rw [rebuild_memPart, memPart_foldl] at h
  cases hlast : (records.filterMap memPlanOf).getLast? with
  | none =>
    rw [hlast] at h
    cases h
  | some mp' =>
    rw [hlast] at h
    cases h
    obtain ⟨r, hr, hplan⟩ := List.mem_filterMap.mp (List.mem_of_getLast? hlast)
    cases r with
    | memPlan mp' =>
      cases hplan
      exact hr
    | _ => cases hplan

theorem fits_of_kept (h : PlanKept mp) : PlanFits32 mp := by
  obtain ⟨ser, hsize, gp, hwrite, hread, hpart⟩ := h
  obtain ⟨hle, hlen⟩ := written_of_write hwrite
  unfold deserialize at hread
  obtain ⟨_, -, hread⟩ := (bind_eq_ok _ _ _).mp hread
  obtain ⟨records, hrecords, hread⟩ := (bind_eq_ok _ _ _).mp hread
  obtain rfl := Except.ok.inj hread
  obtain ⟨hnumbers, hlt, hend⟩ := plan_of_walk hrecords (mem_of_memPart hpart)
  refine ⟨hnumbers, ?_⟩
  -- the record that was read has the size of the record that was written
  change 12 + memPlanSize mp ≤ ser.written.length at hend
  rw [memPlanBytes_length] at hle hlen
  have heq : intSize (memPlanSize mp) = memPlanSize mp := by omega
  unfold intSize at heq
  split at heq <;> omega

theorem memPlanItem_length (h : memPlanSize mp < 2 ^ 31) :
    (itemBytes (memPlanItem mp)).length = 12 + memPlanSize mp := by
  have hlen := memPlanBytes_length mp
  unfold memPlanItem
  rw [table_eq_fixed (by omega)]
  simp only [Item.fixed, itemBytes, List.length_append, u32le_length, hlen]
  omega

theorem rdRecords_single {item : Item} {r : Record} (h : Codes [item] [r])
    (hb : b.bytes = itemBytes item) (hpos : 0 < b.size) : rdRecords b (b.size + 1) 0 = .ok [r] := by
  have hstands : StandsAt b 0 ([item].flatMap itemBytes) := by
    unfold StandsAt
    rw [List.drop_zero, hb, List.flatMap_singleton]
  have hwalk := h.decodes b 0 b.size hstands
  rw [List.flatMap_singleton, Nat.zero_add, List.length_singleton, Nat.add_comm 1] at hwalk
  obtain ⟨fuel, hfuel⟩ := Nat.exists_eq_succ_of_ne_zero hpos.ne'
  rw [hwalk, hfuel, rdRecords_done fuel (by unfold Buf.size; rw [hb])]
  rfl

theorem kept_of_fits (h : PlanFits32 mp) : PlanKept mp := by
  have hcodes := codes_memPlan h.size
  have hlen := memPlanItem_length h.size
  have hsize := h.size
  have hwrite := write_eq (show Serializer.start.currentPosition % 4 = 0 from rfl)
    (hcodes.whole _ List.mem_cons_self)
  obtain ⟨l, hl⟩ : ∃ l, l = itemBytes (memPlanItem mp) := ⟨_, rfl⟩
  change (memPlanItem mp).write Serializer.start =
    .ok (put _ (itemBytes (memPlanItem mp))) at hwrite
  rw [← hl] at hlen hwrite
  have hlt : l.length < 2 ^ 64 := by omega
  have hread := rdRecords_single hcodes (b := ⟨l, hlt⟩) hl (show 0 < l.length by omega)
  rw [narrowPlan_eq h.numbers] at hread
  have hfour : 4 ≤ Buf.size ⟨l, hlt⟩ := show 4 ≤ l.length by omega
  refine ⟨put Serializer.start l, hlt, rebuild GraphPrepare.new [.memPlan mp], hwrite, ?_, rfl⟩
  simp only [deserialize, bind_eq_ok]
  exact ⟨(), ensure_of _ _ hfour, [.memPlan mp], hread, rfl⟩

/-- A tensor that lies behind the first four gigabytes of the pool. -/
def farEntry : MemPlanEntry := ⟨1, 0, 0x100000000, 4096, false⟩

/-- A pool of eight gigabytes with one tensor. -/
def largePool : MemPlan := ⟨0x200000000, 0x800000, 0, [farEntry], []⟩

/-- The tensor's offset does not fit the word it is written to. -/
theorem largePool_not_kept : ¬ PlanKept largePool := by
  intro h
  have hfar := (fits_of_kept h).numbers.entries farEntry List.mem_cons_self
  exact absurd hfar.offset (by decide)

/-- The memory plan that is read back is the one that was written exactly if its numbers have 32
bits and the size of its record is an `int`. SOURCE: graph_prepare.cpp:1734-1766, 2650-2689 -/
theorem memPlan_kept_iff (mp : MemPlan) : PlanKept mp ↔ PlanFits32 mp :=
  ⟨fits_of_kept, kept_of_fits⟩

end Gehtp.Analysis.MemPlanRoundTrip
