import Gehtp.Lib.Runs
import Gehtp.Lib.SlotTable
import Gehtp.Model.Dcache

/-!
# The books of the cache of derived formats

Whatever the calls find and whenever buffers are written, the cache knows how many bytes its entries
take, keeps below its limit and has no two entries for the same key. A call that fails leaves the
entries alone unless it has a conversion that is larger than the limit: it drops every entry before it
gives up.
-/

set_option autoImplicit false

namespace Gehtp.Analysis.DcacheLedger

open Lib.Runs Lib.SlotTable Model.Dcache

section Definitions

def keyOf (e : DcEntry) : UInt32 × UInt64 × UInt32 := (e.bufId, e.ver, e.fmtId)

/-- The sum of the sizes of the valid entries. -/
def usedBytes (l : List DcEntry) : ℕ := used DcEntry.valid (fun e => e.size.toNat) l

/-- The count of the bytes is right and in the limit, and no two valid entries have the same key. -/
structure Kept (s : DcacheCtx) : Prop where
  used : s.bytesUsed.toNat = usedBytes s.ent
  bounded : s.bytesUsed.toNat ≤ s.maxTotalBytes.toNat
  keys : KeysOnce DcEntry.valid keyOf s.ent

/-- The valid entries are the same ones. -/
def SameEntries (s s' : DcacheCtx) : Prop :=
  ∀ (i : ℕ) (e : DcEntry), e.valid = true → (s'.ent[i]? = some e ↔ s.ent[i]? = some e)

/-- The call returns and leaves the books right, and if it fails the entries are as they were. -/
def Right (c : DcCall) (s : DcacheCtx) : Prop :=
  ∃ s' r, call c s = some (s', r) ∧ Kept s' ∧ (r.code = -1 → SameEntries s s')

/-- The books are right at first and after every call of the run. -/
def RunRight (s : DcacheCtx) (calls : List DcCall) : Prop := Kept s ∧ Along step Right calls s

/-- What the call converts, if it does, is no larger than the limit, or there is no entry. -/
def Fits (c : DcCall) (s : DcacheCtx) : Prop :=
  ∀ g a size data, c = .get g → prepare s g = .converted a size data →
    size.toNat ≤ s.maxTotalBytes.toNat ∨ ∀ e ∈ s.ent, e.valid = false

/-- The entries have seen no tick that is still to come. -/
structure Tidy (s : DcacheCtx) : Prop where
  kept : Kept s
  young : ∀ e ∈ s.ent, e.valid = true → e.lru.toNat ≤ s.lruTick.toNat
  pos : 0 < s.ent.length

end Definitions

/-! ### Sums of sizes -/

section Sums

variable {l : List DcEntry} {i : ℕ} {e : DcEntry}

def bytesOf (e : DcEntry) : ℕ := cost DcEntry.valid (fun e => e.size.toNat) e

theorem bytesOf_valid (h : e.valid = true) : bytesOf e = e.size.toNat := if_pos h

theorem usedBytes_set (h : l[i]? = some e) (b : DcEntry) :
    usedBytes (l.set i b) + bytesOf e = usedBytes l + bytesOf b := used_set h

theorem bytesOf_le (h : l[i]? = some e) : bytesOf e ≤ usedBytes l := cost_le_used h

end Sums

/-! ### Victims -/

section Victims

variable {vers : Versions} {l : List DcEntry}

theorem pickLoop_spec (vers : Versions) (l : List DcEntry) (i : ℕ) (best : UInt64) (lruI : ℕ) :
    (∃ k e, l[k]? = some e ∧ e.valid = true ∧ pickLoop vers l i best lruI = i + k) ∨
      pickLoop vers l i best lruI = lruI ∧ ∀ e ∈ l, e.valid = true → ¬e.lru < best := by
  induction l generalizing i best lruI with
  | nil => exact .inr ⟨rfl, fun e he => absurd he List.not_mem_nil⟩
  | cons e l ih =>
    have hnext {best' : UInt64} {lruI' : ℕ}
        (h : pickLoop vers (e :: l) i best lruI = pickLoop vers l (i + 1) best' lruI') :
        (∃ k e', (e :: l)[k]? = some e' ∧ e'.valid = true ∧
          pickLoop vers (e :: l) i best lruI = i + k) ∨
        pickLoop vers (e :: l) i best lruI = lruI' ∧
          ∀ e' ∈ l, e'.valid = true → ¬e'.lru < best' := by
      rw [h]
      cases ih (i + 1) best' lruI' with
      | inl hfound =>
        obtain ⟨k, e', hk, hvalid, hv⟩ := hfound
        exact .inl ⟨k + 1, e', hk, hvalid, by omega⟩
      | inr hnone => exact .inr hnone
    by_cases hfree : e.valid = false
    · cases hnext (by rw [pickLoop, if_pos hfree]) with
      | inl hfound => exact .inl hfound
      | inr hnone =>
        refine .inr ⟨hnone.1, List.forall_mem_cons.mpr ⟨fun hvalid => ?_, hnone.2⟩⟩
        rw [hfree] at hvalid
        exact absurd hvalid Bool.false_ne_true
    have hvalid : e.valid = true := Bool.eq_true_of_not_eq_false hfree
    by_cases hstale : e.ver ≠ vers e.bufId
    · refine .inl ⟨0, e, rfl, hvalid, ?_⟩
      rw [pickLoop, if_neg hfree, if_pos hstale, Nat.add_zero]
    by_cases hold : e.lru < best
    · cases hnext (by rw [pickLoop, if_neg hfree, if_neg hstale, if_pos hold]) with
      | inl hfound => exact .inl hfound
      | inr hnone => exact .inl ⟨0, e, rfl, hvalid, hnone.1⟩
    · cases hnext (by rw [pickLoop, if_neg hfree, if_neg hstale, if_neg hold]) with
      | inl hfound => exact .inl hfound
      | inr hnone =>
        exact .inr ⟨hnone.1, List.forall_mem_cons.mpr ⟨fun _ => hold, hnone.2⟩⟩

theorem pickVictim_spec (vers : Versions) (hyoung : ∀ e ∈ l, e.valid = true → e.lru.toNat < 2 ^ 64 - 1) :
    (∃ e, l[pickVictim vers l]? = some e ∧ e.valid = true) ∨
      pickVictim vers l = l.length ∧ ∀ e ∈ l, e.valid = false := by
  cases pickLoop_spec vers l 0 0xFFFFFFFFFFFFFFFF l.length with
  | inl hfound =>
    obtain ⟨k, e, hk, hvalid, hv⟩ := hfound
    rw [Nat.zero_add] at hv
    refine .inl ⟨e, ?_, hvalid⟩
    rw [pickVictim, hv]
    exact hk
  | inr hnone =>
    refine .inr ⟨hnone.1, fun e he => ?_⟩
    by_contra hfree
    have hvalid := Bool.eq_true_of_not_eq_false hfree
    apply hnone.2 e he hvalid
    rw [UInt64.lt_iff_toNat_lt]
    exact hyoung e he hvalid

end Victims

/-! ### Dropping entries -/

section Drops

variable {s s' : DcacheCtx} {i : ℕ} {e : DcEntry}

/-- One valid entry is dropped. -/
def Drops (s s' : DcacheCtx) : Prop :=
  ∃ (i : ℕ) (e : DcEntry), s.ent[i]? = some e ∧ e.valid = true ∧ s' = dropEntry s i

/-- Any number of valid entries are dropped. -/
def Dropped : DcacheCtx → DcacheCtx → Prop := Relation.ReflTransGen Drops

theorem dropEntry_of_valid (h : s.ent[i]? = some e) (hvalid : e.valid = true) :
    dropEntry s i =
      { s with bytesUsed := s.bytesUsed - e.size, ent := s.ent.set i DcEntry.zero } := by
  rw [dropEntry, h]
  exact if_pos hvalid

theorem dropEntry_of_free (h : s.ent[i]? = some e) (hfree : e.valid = false) :
    dropEntry s i = s := by
  rw [dropEntry, h]
  exact if_neg (by rw [hfree]; exact Bool.false_ne_true)

theorem dropEntry_spec (hi : i < s.ent.length) :
    Dropped s (dropEntry s i) ∧ ∃ e, (dropEntry s i).ent[i]? = some e ∧ e.valid = false := by
  have hget : s.ent[i]? = some s.ent[i] := List.getElem?_eq_getElem hi
  by_cases hfree : s.ent[i].valid = false
  · rw [dropEntry_of_free hget hfree]
    exact ⟨Relation.ReflTransGen.refl, _, hget, hfree⟩
  · have hvalid := Bool.eq_true_of_not_eq_false hfree
    refine ⟨Relation.ReflTransGen.single ⟨i, _, hget, hvalid, rfl⟩, DcEntry.zero, ?_, rfl⟩
    rw [dropEntry_of_valid hget hvalid]
    exact List.getElem?_set_self hi

/-- What stays the same when entries are dropped. -/
structure Frame (s s' : DcacheCtx) : Prop where
  maxTotalBytes : s'.maxTotalBytes = s.maxTotalBytes
  direct : s'.direct = s.direct
  lruTick : s'.lruTick = s.lruTick
  length : s'.ent.length = s.ent.length
  left : ∀ (j : ℕ) (c : DcEntry), s'.ent[j]? = some c → c.valid = true → s.ent[j]? = some c
  free : ∀ (j : ℕ) (c : DcEntry), s.ent[j]? = some c → c.valid = false →
    ∃ c', s'.ent[j]? = some c' ∧ c'.valid = false

theorem Frame.refl (s : DcacheCtx) : Frame s s :=
  ⟨rfl, rfl, rfl, rfl, fun _ _ h _ => h, fun _ c h hc => ⟨c, h, hc⟩⟩

theorem Frame.drop (h : Frame s s') {i : ℕ} {e : DcEntry} (he : s'.ent[i]? = some e)
    (hvalid : e.valid = true) : Frame s (dropEntry s' i) := by
  have hi := (List.getElem?_eq_some_iff.mp he).1
  rw [dropEntry_of_valid he hvalid]
  refine ⟨h.maxTotalBytes, h.direct, h.lruTick, ?_, fun j c hj hc => ?_, fun j c hj hc => ?_⟩
  · rw [List.length_set]
    exact h.length
  · by_cases hji : j = i
    · rw [hji, List.getElem?_set_self hi] at hj
      cases hj
      exact absurd hc Bool.false_ne_true
    · rw [List.getElem?_set_ne (Ne.symm hji)] at hj
      exact h.left j c hj hc
  · by_cases hji : j = i
    · exact ⟨DcEntry.zero, by rw [hji]; exact List.getElem?_set_self hi, rfl⟩
    · obtain ⟨c', hc', hfree⟩ := h.free j c hj hc
      exact ⟨c', by rw [List.getElem?_set_ne (Ne.symm hji)]; exact hc', hfree⟩

theorem Dropped.frame (h : Dropped s s') : Frame s s' := by
  induction h with
  | refl => exact Frame.refl s
  | tail _ hdrop ih =>
    obtain ⟨i, e, he, hvalid, rfl⟩ := hdrop
    exact ih.drop he hvalid

theorem Kept.drop (h : Kept s) (he : s.ent[i]? = some e) (hvalid : e.valid = true) :
    Kept (dropEntry s i) := by
  have hi := (List.getElem?_eq_some_iff.mp he).1
  have hset := usedBytes_set he DcEntry.zero
  have hle := bytesOf_le he
  have hzero : bytesOf DcEntry.zero = 0 := rfl
  rw [bytesOf_valid hvalid] at hset hle
  have hused := h.used
  have hsub : (s.bytesUsed - e.size).toNat = s.bytesUsed.toNat - e.size.toNat :=
    UInt64.toNat_sub_of_le _ _ (UInt64.le_iff_toNat_le.mpr (by omega))
  rw [dropEntry_of_valid he hvalid]
  refine ⟨?_, ?_, h.keys.set hi fun hnot => absurd hnot Bool.false_ne_true⟩
  · show (s.bytesUsed - e.size).toNat = usedBytes (s.ent.set i DcEntry.zero)
    omega
  · show (s.bytesUsed - e.size).toNat ≤ s.maxTotalBytes.toNat
    have hbounded := h.bounded
    omega

theorem Kept.of_dropped (h : Kept s) (hdropped : Dropped s s') : Kept s' := by
  induction hdropped with
  | refl => exact h
  | tail _ hdrop ih =>
    obtain ⟨i, e, he, hvalid, rfl⟩ := hdrop
    exact ih.drop he hvalid

theorem Dropped.eq_self (h : Dropped s s') (hnone : ∀ e ∈ s.ent, e.valid = false) : s' = s := by
  induction h with
  | refl => rfl
  | tail _ hdrop ih =>
    obtain ⟨i, e, he, hvalid, -⟩ := hdrop
    rw [ih] at he
    rw [hnone e (List.mem_of_getElem? he)] at hvalid
    exact absurd hvalid Bool.false_ne_true

theorem Frame.mem_left (h : Frame s s') (he : e ∈ s'.ent) (hvalid : e.valid = true) : e ∈ s.ent := by
  obtain ⟨j, hj⟩ := List.getElem?_of_mem he
  exact List.mem_of_getElem? (h.left j e hj hvalid)

end Drops

/-! ### Publishing -/

section Publish

variable {s s' : DcacheCtx} {bufId fmtId : UInt32} {a : Attempt} {size : UInt64} {data : List UInt8}

/-- No valid entry has the start value of the search for a victim. -/
def Young (s : DcacheCtx) : Prop := ∀ e ∈ s.ent, e.valid = true → e.lru.toNat < 2 ^ 64 - 1

theorem Young.of_dropped (h : Young s) (hdropped : Dropped s s') : Young s' :=
  fun e he hvalid => h e (hdropped.frame.mem_left he hvalid) hvalid

theorem makeRoom_spec (size : UInt64) (room : ℕ → Versions) {fuel : ℕ} (k : ℕ)
    (hfuel : s.ent.countP DcEntry.valid < fuel) (hyoung : Young s) :
    ∃ s', makeRoom size room fuel k s = some s' ∧ Dropped s s' ∧
      (exceeds s' size → ∀ e ∈ s'.ent, e.valid = false) := by
  induction fuel generalizing k s with
  | zero => exact absurd hfuel (Nat.not_lt_zero _)
  | succ fuel ih =>
    by_cases hover : exceeds s size
    · rw [makeRoom, if_pos hover]
      cases pickVictim_spec (room k) hyoung with
      | inl hfound =>
        obtain ⟨e, he, hvalid⟩ := hfound
        have hi := (List.getElem?_eq_some_iff.mp he).1
        have hdrops : Drops s (dropEntry s (pickVictim (room k) s.ent)) := ⟨_, e, he, hvalid, rfl⟩
        have hless : (dropEntry s (pickVictim (room k) s.ent)).ent.countP DcEntry.valid <
            s.ent.countP DcEntry.valid := by
          rw [dropEntry_of_valid he hvalid]
          exact countP_set_lt he hvalid rfl
        obtain ⟨s', hrun, hdropped, hroom⟩ := ih (k + 1) (hless.trans_le (by omega))
          (hyoung.of_dropped (Relation.ReflTransGen.single hdrops))
        refine ⟨s', ?_, Relation.ReflTransGen.head hdrops hdropped, hroom⟩
        rw [if_neg (Nat.not_le.mpr hi)]
        exact hrun
      | inr hnone =>
        refine ⟨s, ?_, Relation.ReflTransGen.refl, fun _ => hnone.2⟩
        exact if_pos hnone.1.ge
    · refine ⟨s, ?_, Relation.ReflTransGen.refl, fun h => absurd h hover⟩
      rw [makeRoom, if_neg hover]

theorem firstFree_spec {l : List DcEntry} {i : ℕ} (h : firstFree l = some i) :
    ∃ e, l[i]? = some e ∧ e.valid = false := by
  obtain ⟨hi, hfree, -⟩ := List.findIdx?_eq_some_iff_getElem.mp h
  refine ⟨l[i], List.getElem?_eq_getElem hi, ?_⟩
  rwa [Bool.not_eq_true'] at hfree

theorem valid_of_full {l : List DcEntry} (h : firstFree l = none) : ∀ e ∈ l, e.valid = true := by
  intro e he
  have hnot := List.findIdx?_eq_none_iff.mp h e he
  rwa [Bool.not_eq_false'] at hnot

theorem chooseSlot_spec (bufId fmtId : UInt32) (a : Attempt) (hpos : 0 < s.ent.length)
    (hyoung : Young s) :
    Dropped s (chooseSlot s bufId fmtId a).1 ∧
      ∃ e, (chooseSlot s bufId fmtId a).1.ent[(chooseSlot s bufId fmtId a).2]? = some e ∧
        e.valid = false := by
  unfold chooseSlot
  cases hfree : firstFree s.ent with
  | some i => exact ⟨Relation.ReflTransGen.refl, firstFree_spec hfree⟩
  | none =>
    have hfull := valid_of_full hfree
    dsimp only
    cases hstale : s.ent.findIdx? fun e => e.valid && decide (e.bufId = bufId) &&
        decide (e.fmtId = fmtId) && decide (e.ver ≠ a.v0) with
    | some i =>
      obtain ⟨hi, -⟩ := List.findIdx?_eq_some_iff_getElem.mp hstale
      exact dropEntry_spec hi
    | none =>
      have hlt : (if s.direct = true then slotOf s bufId fmtId a.v0
          else pickVictim a.first s.ent) < s.ent.length := by
        by_cases hdirect : s.direct = true
        · rw [if_pos hdirect]
          exact Nat.mod_lt _ hpos
        · rw [if_neg hdirect]
          cases pickVictim_spec a.first hyoung with
          | inl hfound =>
            obtain ⟨e, he, -⟩ := hfound
            exact (List.getElem?_eq_some_iff.mp he).1
          | inr hnone =>
            have hmem := List.getElem_mem hpos
            have hvalid := hfull _ hmem
            rw [hnone.2 _ hmem] at hvalid
            exact absurd hvalid Bool.false_ne_true
      dsimp only
      rw [if_neg (Nat.not_le.mpr hlt)]
      exact dropEntry_spec hlt

theorem publish_eq (bufId fmtId : UInt32) (a : Attempt) (size : UInt64) (data : List UInt8)
    (hpos : 0 < s.ent.length) (hyoung : Young s) :
    ∃ s' i e, Dropped s s' ∧ s'.ent[i]? = some e ∧ e.valid = false ∧
      (exceeds s' size → ∀ e ∈ s'.ent, e.valid = false) ∧
      publish s bufId fmtId a size data =
        some (if exceeds s' size then (s', DcResult.fail) else put s' i bufId fmtId a size data) := by
  obtain ⟨hchosen, e, he, hfree⟩ := chooseSlot_spec bufId fmtId a hpos hyoung
  have hfuel : (chooseSlot s bufId fmtId a).1.ent.countP DcEntry.valid <
      (chooseSlot s bufId fmtId a).1.ent.length + 1 := Nat.lt_succ_of_le List.countP_le_length
  obtain ⟨s', hroom, hdropped, hnone⟩ := makeRoom_spec size a.room 0 hfuel
    (hyoung.of_dropped hchosen)
  obtain ⟨e', he', hfree'⟩ := hdropped.frame.free _ e he hfree
  have hi := (List.getElem?_eq_some_iff.mp he').1
  refine ⟨s', _, e', hchosen.trans hdropped, he', hfree', hnone, ?_⟩
  show (makeRoom size a.room _ 0 _ >>= _) = _
  rw [hroom]
  show (if exceeds s' size then _ else _) = _
  by_cases hover : exceeds s' size
  · rw [if_pos hover, if_pos hover]
  · rw [if_neg hover, if_neg hover, if_neg hi.ne, if_neg hi.ne]

theorem put_of_free {i : ℕ} {e : DcEntry} (he : s.ent[i]? = some e) (hfree : e.valid = false) :
    put s i bufId fmtId a size data =
      ({ s with
          ent := s.ent.set i ⟨true, bufId, a.v0, fmtId, data, size, s.lruTick + 1⟩
          lruTick := s.lruTick + 1
          bytesUsed := s.bytesUsed + size }, ⟨0, some (data, size)⟩) := by
  unfold put
  rw [dropEntry_of_free he hfree]

theorem sum_of_not_exceeds (h : Kept s) (hsize : size.toNat ≤ s.maxTotalBytes.toNat)
    (hover : ¬exceeds s size) :
    (s.bytesUsed + size).toNat = s.bytesUsed.toNat + size.toNat ∧
      s.bytesUsed.toNat + size.toNat ≤ s.maxTotalBytes.toNat := by
  have hmax := s.maxTotalBytes.toNat_lt
  have hbounded := h.bounded
  have hsum : (s.bytesUsed + size).toNat = s.bytesUsed.toNat + size.toNat := by
    rw [UInt64.toNat_add]
    exact Nat.mod_eq_of_lt (by omega)
  unfold exceeds at hover
  rw [UInt64.lt_iff_toNat_lt, hsum, UInt32.toNat_toUInt64] at hover
  exact ⟨hsum, by omega⟩

theorem Kept.put (h : Kept s) {i : ℕ} {e : DcEntry} (he : s.ent[i]? = some e)
    (hfree : e.valid = false)
    (habsent : ∀ c ∈ s.ent, c.valid = true → keyOf c ≠ (bufId, a.v0, fmtId))
    (hsize : size.toNat ≤ s.maxTotalBytes.toNat) (hover : ¬exceeds s size) :
    Kept (put s i bufId fmtId a size data).1 := by
  have hi := (List.getElem?_eq_some_iff.mp he).1
  obtain ⟨hsum, hle⟩ := sum_of_not_exceeds h hsize hover
  have hset := usedBytes_set he ⟨true, bufId, a.v0, fmtId, data, size, s.lruTick + 1⟩
  have hold : bytesOf e = 0 := if_neg (by rw [hfree]; exact Bool.false_ne_true)
  have hnew : bytesOf ⟨true, bufId, a.v0, fmtId, data, size, s.lruTick + 1⟩ = size.toNat := rfl
  rw [hnew, hold, Nat.add_zero] at hset
  rw [put_of_free he hfree]
  refine ⟨?_, ?_, h.keys.set hi fun _ j c _ hj hc => habsent c (List.mem_of_getElem? hj) hc⟩
  · show (s.bytesUsed + size).toNat = usedBytes (s.ent.set i _)
    rw [hsum, hset, h.used]
  · show (s.bytesUsed + size).toNat ≤ s.maxTotalBytes.toNat
    rw [hsum]
    exact hle

theorem not_kept_put {i : ℕ} {e : DcEntry} (he : s.ent[i]? = some e) (hfree : e.valid = false)
    (hsize : s.maxTotalBytes.toNat < size.toNat) :
    ¬Kept (put s i bufId fmtId a size data).1 := by
  intro h
  have hi := (List.getElem?_eq_some_iff.mp he).1
  have hset := usedBytes_set he ⟨true, bufId, a.v0, fmtId, data, size, s.lruTick + 1⟩
  have hold : bytesOf e = 0 := if_neg (by rw [hfree]; exact Bool.false_ne_true)
  have hnew : bytesOf ⟨true, bufId, a.v0, fmtId, data, size, s.lruTick + 1⟩ = size.toNat := rfl
  rw [hnew, hold, Nat.add_zero] at hset
  rw [put_of_free he hfree] at h
  have hused : (s.bytesUsed + size).toNat = usedBytes (s.ent.set i _) := h.used
  have hbounded : (s.bytesUsed + size).toNat ≤ s.maxTotalBytes.toNat := h.bounded
  omega

end Publish

/-! ### The calls -/

section Calls

variable {s : DcacheCtx} {bufId fmtId : UInt32}

theorem isHit_of_key {v0 : UInt64} {e : DcEntry} (hvalid : e.valid = true)
    (hkey : keyOf e = (bufId, v0, fmtId)) : isHit s bufId fmtId v0 e = true := by
  unfold keyOf at hkey
  rw [Prod.mk.injEq, Prod.mk.injEq] at hkey
  obtain ⟨hbuf, hver, hfmt⟩ := hkey
  simp [isHit, hvalid, hbuf, hver, hfmt]

theorem attemptLoop_hit {f : DcFormat} {src : List UInt8} {l : List Attempt} {i : ℕ}
    (h : attemptLoop s f bufId fmtId src l = .hit i) : ∃ e, s.ent[i]? = some e ∧ e.valid = true := by
  induction l with
  | nil => cases h
  | cons a rest ih =>
    rw [attemptLoop] at h
    cases hfind : s.ent.findIdx? (isHit s bufId fmtId a.v0) with
    | none =>
      rw [hfind] at h
      dsimp only at h
      split_ifs at h
    | some k =>
      rw [hfind] at h
      dsimp only at h
      split_ifs at h with hagain
      · exact ih h
      · cases h
        obtain ⟨hi, hhit, -⟩ := List.findIdx?_eq_some_iff_getElem.mp hfind
        refine ⟨s.ent[i], List.getElem?_eq_getElem hi, ?_⟩
        unfold isHit at hhit
        simp only [Bool.and_eq_true] at hhit
        exact hhit.1.1.1.1

theorem attemptLoop_converted {f : DcFormat} {src : List UInt8} {l : List Attempt} {a : Attempt}
    {size : UInt64} {data : List UInt8}
    (h : attemptLoop s f bufId fmtId src l = .converted a size data) :
    ∀ e ∈ s.ent, e.valid = true → keyOf e ≠ (bufId, a.v0, fmtId) := by
  induction l with
  | nil => cases h
  | cons a' rest ih =>
    rw [attemptLoop] at h
    cases hfind : s.ent.findIdx? (isHit s bufId fmtId a'.v0) with
    | none =>
      rw [hfind] at h
      dsimp only at h
      have ha : a' = a := by
        split_ifs at h
        · cases h
          rfl
        · cases h
          rfl
      intro e he hvalid hkey
      rw [← ha] at hkey
      have hnot := List.findIdx?_eq_none_iff.mp hfind e he
      rw [isHit_of_key hvalid hkey] at hnot
      cases hnot
    | some k =>
      rw [hfind] at h
      dsimp only at h
      split_ifs at h with hagain
      exact ih h

theorem prepare_cases (s : DcacheCtx) (g : GetArgs) : prepare s g = .failed ∨
    ∃ f src l, prepare s g = attemptLoop s f g.bufId g.fmtId src l := by
  unfold prepare
  cases g.src with
  | none => exact .inl rfl
  | some src =>
    dsimp only
    split_ifs
    · exact .inl rfl
    · cases findFmt s g.fmtId with
      | none => exact .inl rfl
      | some f => exact .inr ⟨f, src, _, rfl⟩

theorem prepare_hit {g : GetArgs} {i : ℕ} (h : prepare s g = .hit i) :
    ∃ e, s.ent[i]? = some e ∧ e.valid = true := by
  obtain hfailed | ⟨f, src, l, heq⟩ := prepare_cases s g
  · rw [hfailed] at h
    cases h
  · rw [heq] at h
    exact attemptLoop_hit h

theorem prepare_converted {g : GetArgs} {a : Attempt} {size : UInt64} {data : List UInt8}
    (h : prepare s g = .converted a size data) :
    ∀ e ∈ s.ent, e.valid = true → keyOf e ≠ (g.bufId, a.v0, g.fmtId) := by
  obtain hfailed | ⟨f, src, l, heq⟩ := prepare_cases s g
  · rw [hfailed] at h
    cases h
  · rw [heq] at h
    exact attemptLoop_converted h

theorem Kept.touch (h : Kept s) {i : ℕ} {e : DcEntry} (he : s.ent[i]? = some e)
    (hvalid : e.valid = true) : Kept (touch s i).1 ∧ (touch s i).2.code = 1 := by
  have hi := (List.getElem?_eq_some_iff.mp he).1
  have hset := usedBytes_set he { e with lru := s.lruTick + 1 }
  have hsame : bytesOf { e with lru := s.lruTick + 1 } = bytesOf e := rfl
  have htouch : Model.Dcache.touch s i =
      ({ s with ent := s.ent.set i { e with lru := s.lruTick + 1 }, lruTick := s.lruTick + 1 },
        ⟨1, some (e.data, e.size)⟩) := by
    rw [Model.Dcache.touch, he]
  rw [htouch]
  refine ⟨⟨?_, h.bounded, h.keys.set hi fun _ j c hji hj hc hkey => ?_⟩, rfl⟩
  · show s.bytesUsed.toNat = usedBytes (s.ent.set i { e with lru := s.lruTick + 1 })
    rw [hsame] at hset
    rw [Nat.add_right_cancel hset]
    exact h.used
  · exact hji (h.keys j i c e hj he hc hvalid hkey)

theorem dcacheInvalidate_dropped (s : DcacheCtx) (b : UInt32) :
    Dropped s (dcacheInvalidate s b).1 := by
  unfold dcacheInvalidate
  generalize List.range s.ent.length = l
  induction l generalizing s with
  | nil => exact Relation.ReflTransGen.refl
  | cons i l ih =>
    rw [List.foldl_cons]
    refine Relation.ReflTransGen.trans ?_ (ih _)
    cases he : s.ent[i]? with
    | none => exact Relation.ReflTransGen.refl
    | some e =>
      dsimp only
      split_ifs
      · exact (dropEntry_spec (List.getElem?_eq_some_iff.mp he).1).1
      · exact Relation.ReflTransGen.refl

theorem Tidy.isYoung (h : Tidy s) (htick : s.lruTick.toNat < 2 ^ 64 - 1) : Young s :=
  fun e he hvalid => (h.young e he hvalid).trans_lt htick

theorem exceeds_iff_of_none (h : Kept s) (hnone : ∀ e ∈ s.ent, e.valid = false) (size : UInt64) :
    exceeds s size ↔ s.maxTotalBytes.toNat < size.toNat := by
  have hzero : s.bytesUsed.toNat = 0 := by
    rw [h.used]
    exact used_eq_zero hnone
  rw [exceeds, UInt64.lt_iff_toNat_lt, UInt64.toNat_add, hzero, Nat.zero_add,
    Nat.mod_eq_of_lt size.toNat_lt, UInt32.toNat_toUInt64]

variable {g : GetArgs}

theorem right_of_failed (h : Tidy s) (hprep : prepare s g = .failed) : Right (.get g) s := by
  refine ⟨s, DcResult.fail, ?_, h.kept, fun _ i e _ => Iff.rfl⟩
  show dcGetOrConvert s g = _
  rw [dcGetOrConvert, hprep]

theorem right_of_hit {i : ℕ} (h : Tidy s) (hprep : prepare s g = .hit i) : Right (.get g) s := by
  obtain ⟨e, he, hvalid⟩ := prepare_hit hprep
  obtain ⟨hkept, hcode⟩ := h.kept.touch he hvalid
  refine ⟨(touch s i).1, (touch s i).2, ?_, hkept, fun hfail => ?_⟩
  · show dcGetOrConvert s g = _
    rw [dcGetOrConvert, hprep]
  · rw [hcode] at hfail
    exact absurd hfail (by decide)

theorem right_of_converted {a : Attempt} {size : UInt64} {data : List UInt8} (h : Tidy s)
    (htick : s.lruTick.toNat < 2 ^ 64 - 1) (hprep : prepare s g = .converted a size data) :
    Right (.get g) s ↔
      size.toNat ≤ s.maxTotalBytes.toNat ∨ ∀ e ∈ s.ent, e.valid = false := by
  obtain ⟨s', i, e, hdropped, he, hfree, hnone, hrun⟩ :=
    publish_eq g.bufId g.fmtId a size data h.pos (h.isYoung htick)
  have hkept' := h.kept.of_dropped hdropped
  have hmax := hdropped.frame.maxTotalBytes
  have hcall : call (.get g) s =
      some (if exceeds s' size then (s', DcResult.fail) else put s' i g.bufId g.fmtId a size data) := by
    show dcGetOrConvert s g = _
    rw [dcGetOrConvert, hprep]
    exact hrun
  constructor
  · rintro ⟨s₁, r, hcall₁, hkept₁, hsame⟩
    by_contra hnot
    rw [not_or, Nat.not_le] at hnot
    rw [hcall] at hcall₁
    by_cases hover : exceeds s' size
    · -- every entry is gone
      rw [if_pos hover] at hcall₁
      cases hcall₁
      apply hnot.2
      intro c hc
      by_contra hfreeC
      have hvalid := Bool.eq_true_of_not_eq_false hfreeC
      obtain ⟨j, hj⟩ := List.getElem?_of_mem hc
      have hstill := (hsame rfl j c hvalid).mpr hj
      exact hfreeC (hnone hover c (List.mem_of_getElem? hstill))
    · rw [if_neg hover] at hcall₁
      have hput : s₁ = (put s' i g.bufId g.fmtId a size data).1 :=
        congrArg Prod.fst (Option.some.inj hcall₁).symm
      rw [hput] at hkept₁
      exact not_kept_put he hfree (by rw [hmax]; exact hnot.1) hkept₁
  · intro hfits
    by_cases hsize : size.toNat ≤ s.maxTotalBytes.toNat
    · rw [← hmax] at hsize
      have hover : ¬exceeds s' size := by
        intro hover
        rw [exceeds_iff_of_none hkept' (hnone hover)] at hover
        omega
      rw [if_neg hover] at hcall
      refine ⟨_, _, hcall, hkept'.put he hfree ?_ hsize hover, fun hfail => ?_⟩
      · intro c hc hvalid
        exact prepare_converted hprep c (hdropped.frame.mem_left hc hvalid) hvalid
      · exact absurd hfail (by show (0 : ℤ) ≠ -1; decide)
    · have hempty := hfits.resolve_left hsize
      rw [hdropped.eq_self hempty] at hcall
      have hover : exceeds s size :=
        (exceeds_iff_of_none h.kept hempty size).mpr (Nat.lt_of_not_le hsize)
      rw [if_pos hover] at hcall
      exact ⟨s, DcResult.fail, hcall, h.kept, fun _ i e _ => Iff.rfl⟩

theorem right_iff (h : Tidy s) (htick : s.lruTick.toNat < 2 ^ 64 - 1) (c : DcCall) :
    Right c s ↔ Fits c s := by
  cases c with
  | invalidate b =>
    constructor
    · intro _ g a size data hc
      cases hc
    · intro _
      refine ⟨_, _, rfl, h.kept.of_dropped (dcacheInvalidate_dropped s b), fun hcode => ?_⟩
      exact absurd hcode (by show (0 : ℤ) ≠ -1; decide)
  | get g =>
    have hfits : Fits (.get g) s ↔ ∀ a size data, prepare s g = .converted a size data →
        size.toNat ≤ s.maxTotalBytes.toNat ∨ ∀ e ∈ s.ent, e.valid = false := by
      constructor
      · intro hall a size data
        exact hall g a size data rfl
      · intro hall g' a size data hc
        cases hc
        exact hall a size data
    rw [hfits]
    cases hprep : prepare s g with
    | failed => exact iff_of_true (right_of_failed h hprep) fun a size data hc => by cases hc
    | hit i => exact iff_of_true (right_of_hit h hprep) fun a size data hc => by cases hc
    | converted a size data =>
      rw [right_of_converted h htick hprep]
      constructor
      · intro hok a' size' data' hc
        cases hc
        exact hok
      · intro hall
        exact hall a size data rfl

end Calls

/-! ### Runs -/

section Runs

variable {s s' : DcacheCtx}

/-- What a call does to the ticks and to the number of slots. -/
structure Ticks (s s' : DcacheCtx) : Prop where
  young : ∀ e ∈ s'.ent, e.valid = true → e.lru.toNat ≤ s'.lruTick.toNat
  length : s'.ent.length = s.ent.length
  next : s'.lruTick.toNat ≤ s.lruTick.toNat + 1

theorem Ticks.of_dropped (h : Tidy s) (hdropped : Dropped s s') : Ticks s s' := by
  have hframe := hdropped.frame
  refine ⟨fun e he hvalid => ?_, hframe.length, ?_⟩
  · rw [hframe.lruTick]
    exact h.young e (hframe.mem_left he hvalid) hvalid
  · rw [hframe.lruTick]
    exact Nat.le_succ _

theorem toNat_tick (htick : s.lruTick.toNat < 2 ^ 64 - 1) :
    (s.lruTick + 1).toNat = s.lruTick.toNat + 1 := by
  rw [UInt64.toNat_add]
  exact Nat.mod_eq_of_lt (by show s.lruTick.toNat + 1 < 2 ^ 64; omega)

theorem Ticks.set (htick : s.lruTick.toNat < 2 ^ 64 - 1)
    (hyoung : ∀ e ∈ s.ent, e.valid = true → e.lru.toNat ≤ s.lruTick.toNat) {i : ℕ} {e : DcEntry}
    (he : e.lru = s.lruTick + 1) (hent : s'.ent = s.ent.set i e)
    (hlru : s'.lruTick = s.lruTick + 1) : Ticks s s' := by
  have hnext := toNat_tick htick
  refine ⟨fun c hc hvalid => ?_, ?_, ?_⟩
  · rw [hlru, hnext]
    rw [hent] at hc
    cases List.mem_or_eq_of_mem_set hc with
    | inl hold => exact (hyoung c hold hvalid).trans (Nat.le_succ _)
    | inr hnew =>
      rw [hnew, he, hnext]
  · rw [hent, List.length_set]
  · rw [hlru, hnext]

theorem ticks_call (h : Tidy s) (htick : s.lruTick.toNat < 2 ^ 64 - 1) {c : DcCall} {r : DcResult}
    (hcall : call c s = some (s', r)) : Ticks s s' := by
  cases c with
  | invalidate b =>
    cases hcall
    exact Ticks.of_dropped h (dcacheInvalidate_dropped s b)
  | get g =>
    have hrun : dcGetOrConvert s g = some (s', r) := hcall
    rw [dcGetOrConvert] at hrun
    cases hprep : prepare s g with
    | failed =>
      rw [hprep] at hrun
      cases hrun
      exact Ticks.of_dropped h Relation.ReflTransGen.refl
    | hit i =>
      obtain ⟨e, he, -⟩ := prepare_hit hprep
      rw [hprep] at hrun
      dsimp only at hrun
      rw [touch, he] at hrun
      cases hrun
      exact Ticks.set htick h.young rfl rfl rfl
    | converted a size data =>
      rw [hprep] at hrun
      obtain ⟨s₁, i, e, hdropped, he, hfree, -, hpub⟩ :=
        publish_eq g.bufId g.fmtId a size data h.pos (h.isYoung htick)
      have hticks := Ticks.of_dropped h hdropped
      have htick₁ := hdropped.frame.lruTick
      dsimp only at hrun
      rw [hpub, put_of_free he hfree] at hrun
      split_ifs at hrun
      · cases hrun
        exact hticks
      · cases hrun
        have hset : Ticks s₁ { s₁ with
            ent := s₁.ent.set i ⟨true, g.bufId, a.v0, g.fmtId, data, size, s₁.lruTick + 1⟩
            lruTick := s₁.lruTick + 1
            bytesUsed := s₁.bytesUsed + size } :=
          Ticks.set (by rw [htick₁]; exact htick) hticks.young rfl rfl rfl
        refine ⟨hset.young, hset.length.trans hticks.length, ?_⟩
        exact hset.next.trans_eq (congrArg (fun t : UInt64 => t.toNat + 1) htick₁)

theorem Tidy.step (h : Tidy s) (htick : s.lruTick.toNat < 2 ^ 64 - 1) {c : DcCall}
    (hright : Right c s) :
    Tidy (step c s) ∧ (Model.Dcache.step c s).lruTick.toNat ≤ s.lruTick.toNat + 1 := by
  obtain ⟨s', r, hcall, hkept, -⟩ := hright
  have hstep : Model.Dcache.step c s = s' := by
    rw [Model.Dcache.step, hcall]
    rfl
  have hticks := ticks_call h htick hcall
  rw [hstep]
  exact ⟨⟨hkept, hticks.young, by rw [hticks.length]; exact h.pos⟩, hticks.next⟩

theorem along_right_iff {calls : List DcCall} (h : Tidy s)
    (hlen : s.lruTick.toNat + calls.length < 2 ^ 64) :
    Along step Right calls s ↔ Along step Fits calls s := by
  induction calls generalizing s with
  | nil => exact Iff.rfl
  | cons c calls ih =>
    rw [List.length_cons] at hlen
    have htick : s.lruTick.toNat < 2 ^ 64 - 1 := by omega
    have hiff := right_iff h htick c
    constructor
    · rintro ⟨hright, hrest⟩
      obtain ⟨htidy, hnext⟩ := h.step htick hright
      exact ⟨hiff.mp hright, (ih htidy (by omega)).mp hrest⟩
    · rintro ⟨hfits, hrest⟩
      have hright := hiff.mpr hfits
      obtain ⟨htidy, hnext⟩ := h.step htick hright
      exact ⟨hright, (ih htidy (by omega)).mpr hrest⟩

theorem tidy_create (fmt : List DcFormat) {maxEntries : UInt32} (hpos : 0 < maxEntries.toNat)
    (maxTotalBytes verBits : UInt32) (direct : Bool) :
    Tidy (dcCreate fmt maxEntries maxTotalBytes verBits direct) := by
  have hfree (e : DcEntry) (he : e ∈ List.replicate maxEntries.toNat DcEntry.zero) :
      e.valid = false := by
    rw [List.eq_of_mem_replicate he]
    rfl
  refine ⟨⟨?_, Nat.zero_le _, ?_⟩, fun e he hvalid => ?_, ?_⟩
  · exact (used_eq_zero hfree).symm
  · intro i j e e' he _ hvalid
    rw [hfree e (List.mem_of_getElem? he)] at hvalid
    exact absurd hvalid Bool.false_ne_true
  · rw [hfree e he] at hvalid
    exact absurd hvalid Bool.false_ne_true
  · show 0 < (List.replicate maxEntries.toNat DcEntry.zero).length
    rw [List.length_replicate]
    exact hpos

/-- For every cache and every sequence of less than `2 ^ 64` calls, whatever they find: the books are
right after every call and a call that fails leaves the entries as they were, exactly if no call has a
conversion above the limit while there are entries. -/
theorem books_right_iff (fmt : List DcFormat) {maxEntries : UInt32} (hpos : 0 < maxEntries.toNat)
    (maxTotalBytes verBits : UInt32) (direct : Bool) {calls : List DcCall}
    (hlen : calls.length < 2 ^ 64) :
    RunRight (dcCreate fmt maxEntries maxTotalBytes verBits direct) calls ↔
      Along step Fits calls (dcCreate fmt maxEntries maxTotalBytes verBits direct) := by
  have htidy := tidy_create fmt hpos maxTotalBytes verBits direct
  have hzero : (dcCreate fmt maxEntries maxTotalBytes verBits direct).lruTick.toNat = 0 := rfl
  rw [RunRight, and_iff_right htidy.kept]
  exact along_right_iff htidy (by rw [hzero, Nat.zero_add]; exact hlen)

def copyFormat : DcFormat where
  fmtId := 1
  dstCapPerSrcByte := 1
  convert := fun src cap => ⟨0, cap, src⟩

def quiet : Attempt where
  v0 := 1
  recheck := 1
  alloc := true
  after := 1
  first := fun _ => 1
  room := fun _ _ => 1
  last := fun _ => 1

def getCopy (bufId : UInt32) (src : List UInt8) : DcCall :=
  .get ⟨bufId, some src, 1, true, fun _ => quiet⟩

/-- A cache of two entries and four bytes: the third conversion evicts both others, and its entry is
invalidated. -/
theorem small_copy_right :
    RunRight (dcCreate [copyFormat] 2 4 64 false)
      [getCopy 1 [7], getCopy 2 [8, 9, 9], getCopy 3 [5, 5], .invalidate 3] := by
  refine (books_right_iff [copyFormat] (by decide) 4 64 false (by decide)).mpr ⟨?_, ?_, ?_, ?_,
    trivial⟩
  · intro g a size data _ _
    exact .inr (by decide)
  · intro g a size data hc hconv
    cases hc
    have hprepare : Outcome.converted quiet 3 [8, 9, 9] = .converted a size data := hconv
    cases hprepare
    exact .inl (by decide)
  · intro g a size data hc hconv
    cases hc
    have hprepare : Outcome.converted quiet 2 [5, 5] = .converted a size data := hconv
    cases hprepare
    exact .inl (by decide)
  · intro g a size data hc
    cases hc

/-- Five bytes in a cache of four: the entry of the other buffer is gone, and the call fails. -/
theorem large_copy_not_right :
    ¬RunRight (dcCreate [copyFormat] 2 4 64 false) [getCopy 1 [7], getCopy 2 [1, 2, 3, 4, 5]] := by
  rintro ⟨-, hright⟩
  have hpos : 0 < (2 : UInt32).toNat := by decide
  have htidy := tidy_create [copyFormat] hpos 4 64 false
  obtain ⟨-, hfits, -⟩ := (along_right_iff htidy (by decide)).mp hright
  obtain hsize | hnone := hfits _ quiet 5 [1, 2, 3, 4, 5] rfl rfl
  · exact absurd hsize (by decide)
  · exact absurd hnone (by decide)

end Runs

end Gehtp.Analysis.DcacheLedger
