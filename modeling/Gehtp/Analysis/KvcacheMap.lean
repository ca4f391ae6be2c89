import Gehtp.Model.Kvcache

/-!
# The KV slot cache as a map

Each slot holds the rows of the last write that went to it, and `posmap` the position of that
write. So a lookup finds a position exactly when the last write to the slot `pos % nslots` was
for it. A write for the position that `scatter` put into another slot is not found.
-/

set_option autoImplicit false

namespace Gehtp.Analysis.KvcacheMap

open Lib.Memory Model.Kvcache

/-! ### The writes of a history -/

/-- A write that was made: its slot, its position and the rows. -/
structure KvWrite where
  slot : UInt32
  pos : UInt32
  k : ℕ → UInt8
  v : ℕ → UInt8

/-- The write of a call; `scatter` refuses a slot that the cache does not have. -/
def writeOf (nslots : UInt32) : KvCall → Option KvWrite
  | .append k v pos => some ⟨pos % nslots, pos, k, v⟩
  | .scatter slot k v pos => if nslots ≤ slot then none else some ⟨slot, pos, k, v⟩

/-- The writes of the calls, in their order. -/
def writes (nslots : UInt32) (calls : List KvCall) : List KvWrite :=
  calls.filterMap (writeOf nslots)

def lastTo (ws : List KvWrite) (slot : UInt32) : Option KvWrite :=
  (ws.filter fun w => w.slot = slot).getLast?

def lastFor (ws : List KvWrite) (pos : UInt32) : Option KvWrite :=
  (ws.filter fun w => w.pos = pos).getLast?

/-- The slot currently holds what was written for the position. -/
def HoldsFor (ws : List KvWrite) (slot pos : UInt32) : Prop :=
  ∃ w, lastTo ws slot = some w ∧ w.pos = pos

theorem lastTo_concat (ws : List KvWrite) (w : KvWrite) (slot : UInt32) :
    lastTo (ws ++ [w]) slot = if w.slot = slot then some w else lastTo ws slot := by
  unfold lastTo
  by_cases h : w.slot = slot
  · simp [List.filter_append, h]
  · simp [List.filter_append, h]

variable {ws : List KvWrite} {slot slotBytes nslots : UInt32} {c : Kvc}

theorem lastFor_of_lastTo {w : KvWrite} (h : lastTo ws slot = some w) :
    lastFor (ws.filter fun w => w.slot = slot) w.pos = some w := by
  unfold lastTo at h
  unfold lastFor
  generalize ws.filter (fun w => w.slot = slot) = l at h
  obtain ⟨init, rfl⟩ := List.getLast?_eq_some_iff.mp h
  simp [List.filter_append]

theorem lastFor_filter {pos : UInt32} (h : ∀ w ∈ ws, w.pos = pos → w.slot = slot) :
    lastFor (ws.filter fun w => w.slot = slot) pos = lastFor ws pos := by
  unfold lastFor
  rw [List.filter_filter]
  congr 1
  apply List.filter_congr
  intro w hw
  by_cases hp : w.pos = pos
  · simp [hp, h w hw hp]
  · simp [hp]

/-! ### What the cache holds -/

/-- The cache after the writes `ws`. -/
structure Tracks (slotBytes nslots : UInt32) (ws : List KvWrite) (c : Kvc) : Prop where
  slotBytes_eq : c.slotBytes = slotBytes
  nslots_eq : c.nslots = nslots
  posmap : ∀ slot < nslots, c.posmap slot.toNat = ((lastTo ws slot).map (·.pos)).getD posNone
  kFace : ∀ slot w, lastTo ws slot = some w →
    cells c.base (c.kFace slot) c.half = cells w.k 0 c.half
  vFace : ∀ slot w, lastTo ws slot = some w →
    cells c.base (c.vFace slot) c.half = cells w.v 0 c.half

theorem kvcInit_tracks {addr : ℕ} {base : ℕ → UInt8} {posmap : ℕ → UInt32}
    (h : kvcInit addr base slotBytes nslots posmap = some c) : Tracks slotBytes nslots [] c := by
  unfold kvcInit at h
  split at h
  · cases h
    constructor
    · rfl
    · rfl
    · intro slot hslot
      have hlt : slot.toNat < nslots.toNat := hslot
      have hread := copyTo_inside posmap 0 (fun _ => posNone) hlt
      rw [Nat.zero_add] at hread
      exact hread
    · intro slot w hw
      cases hw
    · intro slot w hw
      cases hw
  · cases h

theorem two_half_le (c : Kvc) : c.half + c.half ≤ c.slotBytes.toNat := by
  unfold Kvc.half
  have hdiv : (c.slotBytes / 2).toNat = c.slotBytes.toNat / 2 := UInt32.toNat_div _ _
  omega

theorem slot_apart {i j sb : ℕ} (h : i ≠ j) : i * sb + sb ≤ j * sb ∨ j * sb + sb ≤ i * sb := by
  rcases Nat.lt_or_gt_of_ne h with hlt | hlt
  · left
    rw [← Nat.succ_mul]
    exact Nat.mul_le_mul_right sb hlt
  · right
    rw [← Nat.succ_mul]
    exact Nat.mul_le_mul_right sb hlt

theorem kvcWrite_other (c : Kvc) {s : UInt32} (k v : ℕ → UInt8) (pos : UInt32) (h : slot ≠ s) :
    cells (kvcWrite c slot k v pos).base (c.kFace s) c.half = cells c.base (c.kFace s) c.half ∧
    cells (kvcWrite c slot k v pos).base (c.vFace s) c.half = cells c.base (c.vFace s) c.half := by
  have hhalf := two_half_le c
  have hne : slot.toNat ≠ s.toNat := fun he => h (UInt32.toNat_inj.mp he)
  have hapart := @slot_apart _ _ c.slotBytes.toNat hne
  constructor
  · apply (cells_copyTo_apart _ _ _).trans (cells_copyTo_apart _ _ _)
    · unfold Kvc.vFace Kvc.kFace
      omega
    · unfold Kvc.kFace
      omega
  · apply (cells_copyTo_apart _ _ _).trans (cells_copyTo_apart _ _ _)
    · unfold Kvc.vFace
      omega
    · unfold Kvc.vFace Kvc.kFace
      omega

theorem kvcWrite_self (c : Kvc) (slot : UInt32) (k v : ℕ → UInt8) (pos : UInt32) :
    cells (kvcWrite c slot k v pos).base (c.kFace slot) c.half = cells k 0 c.half ∧
    cells (kvcWrite c slot k v pos).base (c.vFace slot) c.half = cells v 0 c.half := by
  constructor
  · apply (cells_copyTo_apart _ _ _).trans (cells_copyTo _ _ _ _)
    unfold Kvc.vFace Kvc.kFace
    omega
  · exact cells_copyTo _ _ _ _

theorem kvcWrite_tracks (h : Tracks slotBytes nslots ws c) (w : KvWrite) :
    Tracks slotBytes nslots (ws ++ [w]) (kvcWrite c w.slot w.k w.v w.pos) where
  slotBytes_eq := h.slotBytes_eq
  nslots_eq := h.nslots_eq
  posmap := by
    intro s hs
    rw [lastTo_concat]
    by_cases hw : w.slot = s
    · subst hw
      simp [kvcWrite]
    · have hne : s.toNat ≠ w.slot.toNat := fun he => hw (UInt32.toNat_inj.mp he.symm)
      rw [if_neg hw, ← h.posmap s hs]
      exact Function.update_of_ne hne _ _
  kFace := by
    intro s u hu
    rw [lastTo_concat] at hu
    by_cases hw : w.slot = s
    · rw [if_pos hw] at hu
      cases hu
      subst hw
      exact (kvcWrite_self c w.slot w.k w.v w.pos).1
    · rw [if_neg hw] at hu
      exact (kvcWrite_other c w.k w.v w.pos hw).1.trans (h.kFace s u hu)
  vFace := by
    intro s u hu
    rw [lastTo_concat] at hu
    by_cases hw : w.slot = s
    · rw [if_pos hw] at hu
      cases hu
      subst hw
      exact (kvcWrite_self c w.slot w.k w.v w.pos).2
    · rw [if_neg hw] at hu
      exact (kvcWrite_other c w.k w.v w.pos hw).2.trans (h.vFace s u hu)

theorem homeSlot_eq (h : c.nslots ≠ 0) (pos : UInt32) :
    homeSlot c pos = .ok (pos % c.nslots) := if_neg h

theorem kvcAppend_tracks (hn : nslots ≠ 0) (h : Tracks slotBytes nslots ws c) (k v : ℕ → UInt8)
    (pos : UInt32) :
    ∃ c', kvcAppend c k v pos = .ok ((pos % nslots).toInt32, c') ∧
      Tracks slotBytes nslots (ws ++ [⟨pos % nslots, pos, k, v⟩]) c' := by
  unfold kvcAppend
  rw [homeSlot_eq (h.nslots_eq ▸ hn), h.nslots_eq]
  refine ⟨_, rfl, ?_⟩
  exact { kvcWrite_tracks h ⟨pos % nslots, pos, k, v⟩ with }

theorem kvcCall_tracks (hn : nslots ≠ 0) (h : Tracks slotBytes nslots ws c) (call : KvCall) :
    ∃ c', kvcCall c call = .ok c' ∧
      Tracks slotBytes nslots (ws ++ (writeOf nslots call).toList) c' := by
  cases call with
  | append k v pos =>
    obtain ⟨c', happ, htracks⟩ := kvcAppend_tracks hn h k v pos
    refine ⟨c', ?_, htracks⟩
    rw [kvcCall, happ]
    rfl
  | scatter slot k v pos =>
    refine ⟨_, rfl, ?_⟩
    unfold writeOf kvcScatter
    rw [h.nslots_eq]
    by_cases hslot : nslots ≤ slot
    · simpa [hslot] using h
    · simpa [hslot] using kvcWrite_tracks h ⟨slot, pos, k, v⟩

theorem kvcRun_tracks (hn : nslots ≠ 0) (calls : List KvCall) (h : Tracks slotBytes nslots ws c) :
    ∃ c', kvcRun c calls = .ok c' ∧ Tracks slotBytes nslots (ws ++ writes nslots calls) c' := by
  induction calls generalizing ws c with
  | nil => exact ⟨c, rfl, by simpa [writes] using h⟩
  | cons call calls ih =>
    obtain ⟨mid, hcall, hmid⟩ := kvcCall_tracks hn h call
    obtain ⟨c', hrun, hc'⟩ := ih hmid
    refine ⟨c', ?_, ?_⟩
    · show (kvcCall c call >>= fun c => kvcRun c calls) = .ok c'
      rw [hcall]
      exact hrun
    · have hws : (writeOf nslots call).toList ++ writes nslots calls =
          writes nslots (call :: calls) := by
        unfold writes
        cases hw : writeOf nslots call with
        | none => simp [hw]
        | some w => simp [hw]
      rw [List.append_assoc, hws] at hc'
      exact hc'

/-! ### Lookups -/

theorem toInt32_ne_neg_one (h : slot < nslots) : slot.toInt32 ≠ -1 := by
  intro he
  have hslot : slot = 0xFFFFFFFF := by
    have hback := congrArg Int32.toUInt32 he
    rw [UInt32.toUInt32_toInt32] at hback
    exact hback
  have hlt : slot.toNat < nslots.toNat := h
  have hval : slot.toNat = 2 ^ 32 - 1 := by
    rw [hslot]
    rfl
  have hmax := nslots.toNat_lt
  omega

/-- After any calls a lookup of a position returns its slot exactly when the slot holds what was
written for the position, and a read of the slot then returns the rows of the last write for the
position that went there, which is the last write for it unless some went to other slots. -/
theorem lookup_finds_home {addr : ℕ} {base : ℕ → UInt8} {slotBytes nslots : UInt32}
    {posmap : ℕ → UInt32} {c₀ : Kvc} (hinit : kvcInit addr base slotBytes nslots posmap = some c₀)
    (hn : nslots ≠ 0) (calls : List KvCall) (pos : UInt32) (hpos : pos ≠ posNone) :
    ∃ c r, kvcRun c₀ calls = .ok c ∧ kvcLookup c pos = .ok r ∧
      (r ≠ -1 ↔ HoldsFor (writes nslots calls) (pos % nslots) pos) ∧
      (r ≠ -1 → r = (pos % nslots).toInt32 ∧ ∃ w,
        lastFor ((writes nslots calls).filter fun w => w.slot = pos % nslots) pos = some w ∧
        ((∀ w ∈ writes nslots calls, w.pos = pos → w.slot = pos % nslots) →
          lastFor (writes nslots calls) pos = some w) ∧
        kvcRead c (pos % nslots) =
          some (cells w.k 0 (slotBytes / 2).toNat, cells w.v 0 (slotBytes / 2).toNat)) := by
  obtain ⟨c, hrun, htracks⟩ := kvcRun_tracks hn calls (kvcInit_tracks hinit)
  rw [List.nil_append] at htracks
  have hlt : pos % nslots < nslots := by
    apply UInt32.mod_lt
    exact UInt32.pos_iff_ne_zero.mpr hn
  have hne := toInt32_ne_neg_one hlt
  have hlookup : kvcLookup c pos =
      .ok (if c.posmap (pos % nslots).toNat = pos then (pos % nslots).toInt32 else -1) := by
    unfold kvcLookup
    rw [homeSlot_eq (htracks.nslots_eq ▸ hn), htracks.nslots_eq]
    rfl
  have hholds : c.posmap (pos % nslots).toNat = pos ↔
      HoldsFor (writes nslots calls) (pos % nslots) pos := by
    rw [htracks.posmap _ hlt]
    unfold HoldsFor
    cases lastTo (writes nslots calls) (pos % nslots) with
    | none => simp [hpos.symm]
    | some w => simp
  refine ⟨c, _, hrun, hlookup, ?_, ?_⟩
  · rw [← hholds]
    by_cases hp : c.posmap (pos % nslots).toNat = pos
    · rw [if_pos hp]
      exact iff_of_true hne hp
    · rw [if_neg hp]
      exact iff_of_false (fun hr => hr rfl) hp
  · intro hr
    have hp : c.posmap (pos % nslots).toNat = pos := by
      by_contra hp
      rw [if_neg hp] at hr
      exact hr rfl
    obtain ⟨w, hw, rfl⟩ := hholds.mp hp
    have hlast := lastFor_of_lastTo hw
    refine ⟨if_pos hp, w, hlast, ?_, ?_⟩
    · intro hhome
      rw [← lastFor_filter hhome]
      exact hlast
    · have hin : ¬ c.nslots ≤ w.pos % nslots := by
        rw [htracks.nslots_eq]
        exact UInt32.not_le.mpr hlt
      have hhalf : c.half = (slotBytes / 2).toNat := by
        unfold Kvc.half
        rw [htracks.slotBytes_eq]
      unfold kvcRead
      rw [if_neg hin, htracks.kFace _ w hw, htracks.vFace _ w hw, hhalf]

def twoSlots : Kvc := ⟨fun _ => 0, 256, 2, copyTo (fun _ => 0) 0 (fun _ => posNone) 2, 0, 0⟩

theorem twoSlots_init : kvcInit 0 (fun _ => 0) 256 2 (fun _ => 0) = some twoSlots := rfl

/-- Two rows for the positions 5 and 7, which share a slot. -/
def wrapCalls : List KvCall :=
  [.append (fun _ => 1) (fun _ => 2) 5, .append (fun _ => 3) (fun _ => 4) 7]

/-- The position 7 is found with its rows. -/
theorem wrapCalls_found :
    ∃ c r, kvcRun twoSlots wrapCalls = .ok c ∧ kvcLookup c 7 = .ok r ∧
      (r ≠ -1 ↔ HoldsFor (writes 2 wrapCalls) (7 % 2) 7) ∧
      (r ≠ -1 → r = (7 % 2 : UInt32).toInt32 ∧ ∃ w,
        lastFor ((writes 2 wrapCalls).filter fun w => w.slot = 7 % 2) 7 = some w ∧
        ((∀ w ∈ writes 2 wrapCalls, w.pos = 7 → w.slot = 7 % 2) →
          lastFor (writes 2 wrapCalls) 7 = some w) ∧
        kvcRead c (7 % 2) =
          some (cells w.k 0 (256 / 2 : UInt32).toNat, cells w.v 0 (256 / 2 : UInt32).toNat)) :=
  lookup_finds_home twoSlots_init (by decide) wrapCalls 7 (by decide)

/-- A position that was scattered to another slot is held there and not found. -/
theorem scattered_not_found :
    ¬ ∀ (addr : ℕ) (base : ℕ → UInt8) (slotBytes nslots : UInt32) (posmap : ℕ → UInt32) (c₀ c : Kvc)
      (calls : List KvCall) (pos : UInt32) (r : Int32),
      kvcInit addr base slotBytes nslots posmap = some c₀ → kvcRun c₀ calls = .ok c →
      kvcLookup c pos = .ok r →
        (r ≠ -1 ↔ ∃ slot, HoldsFor (writes nslots calls) slot pos) := by
  intro h
  have hlookup : kvcLookup (kvcWrite twoSlots 1 (fun _ => 1) (fun _ => 2) 0) 0 = .ok (-1) := rfl
  have hnot := h 0 (fun _ => 0) 256 2 (fun _ => 0) twoSlots _ [.scatter 1 (fun _ => 1) (fun _ => 2) 0] 0
    (-1) twoSlots_init rfl hlookup
  exact hnot.mpr ⟨1, ⟨1, 0, fun _ => 1, fun _ => 2⟩, rfl, rfl⟩ rfl

end Gehtp.Analysis.KvcacheMap
