import Mathlib.Algebra.Order.Ring.Nat
import Gehtp.Lib.Runs
import Gehtp.Model.BtrackTables

/-!
# Registered buffers and DMA tokens

The overlap test and the bounds of the tracker's tables add 64-bit numbers without looking for a
carry. As long as no sum wraps, the registered buffers are disjoint parts of the memory and every
write that overlaps one advances its version. A completed token is never issued again, so a tracker
issues 64 tokens in its life.
-/

set_option autoImplicit false

namespace Gehtp.Analysis.BtrackTablesSafe

open Lib.Runs Model.BtrackTables

/-! ### What is to be shown of the buffers -/

section Definitions

def InRange (addr size : UInt64) (x : ℕ) : Prop := addr.toNat ≤ x ∧ x < addr.toNat + size.toNat

def BtBuf.Has (b : BtBuf) (x : ℕ) : Prop := InRange b.base b.size x

/-- The registered buffers are not empty, lie in the memory and have no byte in common. -/
structure BuffersOk (t : Tracker) : Prop where
  nonempty : ∀ i, (t.buf i).valid = true → (t.buf i).size ≠ 0
  inside : ∀ i, (t.buf i).valid = true →
    (t.buf i).base.toNat + (t.buf i).size.toNat ≤ t.memBytes.toNat
  disjoint : ∀ i j, i ≠ j → (t.buf i).valid = true → (t.buf j).valid = true →
    ∀ x, ¬(BtBuf.Has (t.buf i) x ∧ BtBuf.Has (t.buf j) x)

/-- The range that a call marks, if it is a mark that is not refused. -/
def markOf (t : Tracker) : Call → Option (UInt64 × UInt64)
  | .markCpu addr size => some (addr, size)
  | .markPeer addr size => some (addr, size)
  | .markDma addr size => if inMemory t.memBytes addr size then some (addr, size) else none
  | _ => none

/-- A mark that has a byte in common with a registered buffer advances the buffer's version. -/
def Advances (c : Call) (t : Tracker) : Prop :=
  ∀ addr size, markOf t c = some (addr, size) → ∀ i, (t.buf i).valid = true →
    (∃ x, BtBuf.Has (t.buf i) x ∧ InRange addr size x) →
      ((step c t).buf i).ver = (t.buf i).ver + 1

/-- A range that does not wrap is registered, or one whose wrapped sum is beyond the memory, or hits a
registered buffer, or finds no free entry. And a mark that wraps ends, by its wrapped sum, behind
the base of each registered buffer that it overlaps. -/
def NoWrap (c : Call) (t : Tracker) : Prop :=
  (∀ base size, c = .register base size → base.toNat + size.toNat < 2 ^ 64 ∨
      t.memBytes < base + size ∨ conflicts t base size = true ∨ ∀ i, (t.buf i).valid = true) ∧
    ∀ addr size, markOf t c = some (addr, size) → addr.toNat + size.toNat < 2 ^ 64 ∨
      ∀ i, (t.buf i).valid = true → (∃ x, BtBuf.Has (t.buf i) x ∧ InRange addr size x) →
        (t.buf i).base < addr + size

/-- Every state of the run has good buffers, and every mark advances the versions it should. -/
def BuffersRight (memBytes : UInt64) (calls : List Call) : Prop :=
  Along step (fun c t => Advances c t ∧ BuffersOk (step c t)) calls (btCreate memBytes)

end Definitions

/-! ### One call and the buffers -/

section Buffers

variable {t : Tracker} {c : Call} {base size addr : UInt64}

/-- The buffers are good, and the ones in use are among those that marks look at. -/
structure Tidy (t : Tracker) : Prop where
  ok : BuffersOk t
  counted : ∀ i, (t.buf i).valid = true → i < t.nBuf

theorem toNat_add_of_lt (h : base.toNat + size.toNat < 2 ^ 64) :
    (base + size).toNat = base.toNat + size.toNat := by
  rw [UInt64.toNat_add]
  exact Nat.mod_eq_of_lt h

theorem pos_of_ne_zero (h : size ≠ 0) : 0 < size.toNat := by
  apply Nat.pos_of_ne_zero
  intro h0
  exact h (UInt64.toNat_inj.mp h0)

theorem overlaps_iff {b : BtBuf} (hb : b.base.toNat + b.size.toNat < 2 ^ 64)
    (h : addr.toNat + size.toNat < 2 ^ 64) (hbs : b.size ≠ 0) (hs : size ≠ 0) :
    overlaps addr size b = true ↔ ∃ x, BtBuf.Has b x ∧ InRange addr size x := by
  have hbs' := pos_of_ne_zero hbs
  have hs' := pos_of_ne_zero hs
  unfold overlaps BtBuf.Has InRange
  rw [Bool.and_eq_true, decide_eq_true_eq, decide_eq_true_eq, UInt64.lt_iff_toNat_lt,
    UInt64.lt_iff_toNat_lt, toNat_add_of_lt hb, toNat_add_of_lt h]
  constructor
  · rintro ⟨h1, h2⟩
    by_cases hle : addr.toNat ≤ b.base.toNat
    · exact ⟨b.base.toNat, by omega⟩
    · exact ⟨addr.toNat, by omega⟩
  · rintro ⟨x, hx⟩
    omega

theorem freeBuf_eq_some {id : Fin btMaxBuffers} (h : freeBuf t = some id) :
    (t.buf id).valid = false := by
  have hid := List.find?_some h
  simpa using hid

theorem freeBuf_eq_none : freeBuf t = none ↔ ∀ i, (t.buf i).valid = true := by
  unfold freeBuf
  rw [List.find?_eq_none]
  constructor
  · intro h i
    have hi := h i (List.mem_finRange i)
    simpa using hi
  · intro h i _
    simp [h i]

theorem conflicts_iff : conflicts t base size = true ↔
    ∃ i, (t.buf i).valid = true ∧ overlaps base size (t.buf i) = true := by
  unfold conflicts
  rw [List.any_eq_true]
  constructor
  · rintro ⟨i, -, hi⟩
    exact ⟨i, Bool.and_eq_true_iff.mp hi⟩
  · rintro ⟨i, hi⟩
    exact ⟨i, List.mem_finRange i, Bool.and_eq_true_iff.mpr hi⟩

theorem register_cases (t : Tracker) (base size : UInt64) :
    ((btRegisterBuffer t base size).1 = t ∧ (size = 0 ∨ t.memBytes < base + size ∨
        conflicts t base size = true ∨ ∀ i, (t.buf i).valid = true)) ∨
      ∃ id, size ≠ 0 ∧ base + size ≤ t.memBytes ∧ conflicts t base size = false ∧
        (t.buf id).valid = false ∧ (btRegisterBuffer t base size).1 =
          { t with
            buf := Function.update t.buf id ⟨base, size, 0, true⟩
            nBuf := if t.nBuf ≤ id then id + 1 else t.nBuf } := by
  unfold btRegisterBuffer
  by_cases hguard : size = 0 ∨ t.memBytes < base + size
  · rw [if_pos hguard]
    refine .inl ⟨rfl, ?_⟩
    rcases hguard with h | h
    · exact .inl h
    · exact .inr (.inl h)
  · rw [if_neg hguard]
    rw [not_or, UInt64.not_lt] at hguard
    by_cases hconf : conflicts t base size = true
    · rw [if_pos hconf]
      exact .inl ⟨rfl, .inr (.inr (.inl hconf))⟩
    · rw [if_neg hconf]
      cases hfree : freeBuf t with
      | none => exact .inl ⟨rfl, .inr (.inr (.inr (freeBuf_eq_none.mp hfree)))⟩
      | some id =>
        exact .inr ⟨id, hguard.1, hguard.2, eq_false_of_ne_true hconf, freeBuf_eq_some hfree, rfl⟩

theorem Tidy.register (h : Tidy t) {id : Fin btMaxBuffers} (hs : size ≠ 0)
    (hin : base.toNat + size.toNat ≤ t.memBytes.toNat) (hconf : conflicts t base size = false) :
    Tidy { t with
      buf := Function.update t.buf id ⟨base, size, 0, true⟩
      nBuf := if t.nBuf ≤ id then id + 1 else t.nBuf } := by
  have hmem := t.memBytes.toNat_lt
  have hapart (j : Fin btMaxBuffers) (hj : (t.buf j).valid = true) (x : ℕ) :
      ¬(BtBuf.Has (t.buf j) x ∧ InRange base size x) := by
    intro hx
    have hb := h.ok.inside j hj
    have hover := (overlaps_iff (by omega) (by omega) (h.ok.nonempty j hj) hs).mpr ⟨x, hx⟩
    have hyes := conflicts_iff.mpr ⟨j, hj, hover⟩
    rw [hconf] at hyes
    exact absurd hyes (by decide)
  refine ⟨⟨?_, ?_, ?_⟩, ?_⟩
  · intro i hi
    by_cases hid : i = id
    · subst hid
      simp only [Function.update_self]
      exact hs
    · simp only [Function.update_of_ne hid] at hi ⊢
      exact h.ok.nonempty i hi
  · intro i hi
    by_cases hid : i = id
    · subst hid
      simp only [Function.update_self]
      exact hin
    · simp only [Function.update_of_ne hid] at hi ⊢
      exact h.ok.inside i hi
  · intro i j hij hi hj x hx
    by_cases hid : i = id
    · subst hid
      have hji : j ≠ i := hij.symm
      simp only [Function.update_self, Function.update_of_ne hji] at hj hx
      exact hapart j hj x ⟨hx.2, hx.1⟩
    · by_cases hjd : j = id
      · subst hjd
        simp only [Function.update_self, Function.update_of_ne hid] at hi hx
        exact hapart i hi x hx
      · simp only [Function.update_of_ne hid, Function.update_of_ne hjd] at hi hj hx
        exact h.ok.disjoint i j hij hi hj x hx
  · intro i hi
    by_cases hid : i = id
    · subst hid
      show _ < if t.nBuf ≤ i then i.val + 1 else t.nBuf
      split
      · exact Nat.lt_succ_self _
      · omega
    · simp only [Function.update_of_ne hid] at hi
      have hlt := h.counted i hi
      show _ < if t.nBuf ≤ id then id.val + 1 else t.nBuf
      split
      · omega
      · exact hlt

theorem Tidy.of_le {t' : Tracker} (h : Tidy t) (hmem : t'.memBytes = t.memBytes)
    (hn : t'.nBuf = t.nBuf) (hbuf : ∀ i, (t'.buf i).valid = true → (t.buf i).valid = true ∧
      (t'.buf i).base = (t.buf i).base ∧ (t'.buf i).size = (t.buf i).size) : Tidy t' := by
  refine ⟨⟨?_, ?_, ?_⟩, ?_⟩
  · intro i hi
    obtain ⟨hv, -, hsize⟩ := hbuf i hi
    rw [hsize]
    exact h.ok.nonempty i hv
  · intro i hi
    obtain ⟨hv, hbase, hsize⟩ := hbuf i hi
    rw [hbase, hsize, hmem]
    exact h.ok.inside i hv
  · intro i j hij hi hj x hx
    obtain ⟨hvi, hbi, hsi⟩ := hbuf i hi
    obtain ⟨hvj, hbj, hsj⟩ := hbuf j hj
    unfold BtBuf.Has at hx
    rw [hbi, hsi, hbj, hsj] at hx
    exact h.ok.disjoint i j hij hvi hvj x hx
  · intro i hi
    rw [hn]
    exact h.counted i (hbuf i hi).1

theorem markWrite_buf (t : Tracker) (addr size : UInt64) (i : Fin btMaxBuffers) :
    ((markWrite t addr size).buf i).valid = (t.buf i).valid ∧
      ((markWrite t addr size).buf i).base = (t.buf i).base ∧
      ((markWrite t addr size).buf i).size = (t.buf i).size := by
  unfold markWrite bumpVersions
  simp only
  split
  · exact ⟨rfl, rfl, rfl⟩
  · exact ⟨rfl, rfl, rfl⟩

theorem Tidy.markWrite (h : Tidy t) (addr size : UInt64) :
    Tidy (Model.BtrackTables.markWrite t addr size) :=
  h.of_le rfl rfl fun i hi => by
    obtain ⟨hv, hbase, hsize⟩ := markWrite_buf t addr size i
    exact ⟨hv ▸ hi, hbase, hsize⟩

theorem btMarkDmaWrite_buf (t : Tracker) (addr size : UInt64) :
    (btMarkDmaWrite t addr size).1.memBytes = t.memBytes ∧
      (btMarkDmaWrite t addr size).1.nBuf = t.nBuf ∧
      (btMarkDmaWrite t addr size).1.buf =
        if inMemory t.memBytes addr size then (markWrite t addr size).buf else t.buf := by
  unfold btMarkDmaWrite
  by_cases hin : inMemory t.memBytes addr size
  · rw [if_pos hin, if_pos hin]
    dsimp only
    cases freeTok (markWrite t addr size) with
    | none => exact ⟨rfl, rfl, rfl⟩
    | some i => exact ⟨rfl, rfl, rfl⟩
  · rw [if_neg hin, if_neg hin]
    exact ⟨rfl, rfl, rfl⟩

theorem btDmaComplete_buf (t : Tracker) (token : ℕ) :
    (btDmaComplete t token).1.memBytes = t.memBytes ∧ (btDmaComplete t token).1.nBuf = t.nBuf ∧
      (btDmaComplete t token).1.buf = t.buf := by
  unfold btDmaComplete
  split
  · split
    · exact ⟨rfl, rfl, rfl⟩
    · exact ⟨rfl, rfl, rfl⟩
  · exact ⟨rfl, rfl, rfl⟩

theorem Tidy.step (h : Tidy t) (hc : ∀ base size, c ≠ .register base size) : Tidy (step c t) := by
  cases c with
  | register base size => exact absurd rfl (hc base size)
  | unregister bufId =>
    unfold Model.BtrackTables.step btUnregisterBuffer
    simp only
    split
    · split
      · refine h.of_le rfl rfl fun i hi => ?_
        by_cases hid : i = ⟨bufId, ‹_›⟩
        · rw [hid] at hi
          simp only [Function.update_self] at hi
          exact absurd hi (by decide)
        · simp only [Function.update_of_ne hid] at hi ⊢
          exact ⟨hi, trivial, trivial⟩
      · exact h
    · exact h
  | markCpu addr size => exact h.markWrite addr size
  | markPeer addr size => exact h.markWrite addr size
  | markDma addr size =>
    obtain ⟨hmem, hn, hbuf⟩ := btMarkDmaWrite_buf t addr size
    apply h.of_le hmem hn
    intro i hi
    show (t.buf i).valid = true ∧ ((btMarkDmaWrite t addr size).1.buf i).base = _ ∧
      ((btMarkDmaWrite t addr size).1.buf i).size = _
    replace hi : ((btMarkDmaWrite t addr size).1.buf i).valid = true := hi
    rw [hbuf] at hi ⊢
    split at hi
    · rw [if_pos ‹_›]
      obtain ⟨hv, hbase, hsize⟩ := markWrite_buf t addr size i
      exact ⟨hv ▸ hi, hbase, hsize⟩
    · rw [if_neg ‹_›]
      exact ⟨hi, rfl, rfl⟩
  | dmaComplete token =>
    obtain ⟨hmem, hn, hbuf⟩ := btDmaComplete_buf t token
    apply h.of_le hmem hn
    intro i hi
    replace hi : ((btDmaComplete t token).1.buf i).valid = true := hi
    show _ ∧ ((btDmaComplete t token).1.buf i).base = _ ∧ _
    rw [hbuf] at hi ⊢
    exact ⟨hi, rfl, rfl⟩

theorem counted_step (h : ∀ i, (t.buf i).valid = true → i < t.nBuf) (c : Call) :
    ∀ i, ((step c t).buf i).valid = true → i < (step c t).nBuf := by
  cases c with
  | register base size =>
    show ∀ i, ((btRegisterBuffer t base size).1.buf i).valid = true →
      i < (btRegisterBuffer t base size).1.nBuf
    rcases register_cases t base size with ⟨hsame, -⟩ | ⟨id, -, -, -, -, hnew⟩
    · rw [hsame]
      exact h
    · rw [hnew]
      intro i hi
      show _ < if t.nBuf ≤ id then id.val + 1 else t.nBuf
      by_cases hid : i = id
      · rw [hid]
        split
        · exact Nat.lt_succ_self _
        · omega
      · simp only [Function.update_of_ne hid] at hi
        have hlt := h i hi
        split
        · omega
        · exact hlt
  | unregister bufId =>
    unfold step btUnregisterBuffer
    simp only
    split
    · split
      · intro i hi
        by_cases hid : i = ⟨bufId, ‹_›⟩
        · rw [hid] at hi
          simp only [Function.update_self] at hi
          exact absurd hi (by decide)
        · simp only [Function.update_of_ne hid] at hi
          exact h i hi
      · exact h
    · exact h
  | markCpu addr size =>
    intro i hi
    exact h i ((markWrite_buf t addr size i).1 ▸ hi)
  | markPeer addr size =>
    intro i hi
    exact h i ((markWrite_buf t addr size i).1 ▸ hi)
  | markDma addr size =>
    obtain ⟨-, hn, hbuf⟩ := btMarkDmaWrite_buf t addr size
    intro i hi
    show _ < (btMarkDmaWrite t addr size).1.nBuf
    replace hi : ((btMarkDmaWrite t addr size).1.buf i).valid = true := hi
    rw [hbuf] at hi
    rw [hn]
    split at hi
    · exact h i ((markWrite_buf t addr size i).1 ▸ hi)
    · exact h i hi
  | dmaComplete token =>
    obtain ⟨-, hn, hbuf⟩ := btDmaComplete_buf t token
    intro i hi
    show _ < (btDmaComplete t token).1.nBuf
    replace hi : ((btDmaComplete t token).1.buf i).valid = true := hi
    rw [hbuf] at hi
    rw [hn]
    exact h i hi

theorem markWrite_ver (h : Tidy t) {i : Fin btMaxBuffers} (hi : (t.buf i).valid = true) :
    ((markWrite t addr size).buf i).ver =
      if overlaps addr size (t.buf i) = true then (t.buf i).ver + 1 else (t.buf i).ver := by
  have hcount := h.counted i hi
  unfold markWrite bumpVersions
  simp only [hcount, hi, true_and]
  split
  · rfl
  · rfl

theorem overlaps_of_common (h : Tidy t) {i : Fin btMaxBuffers} (hi : (t.buf i).valid = true)
    (hcommon : ∃ x, BtBuf.Has (t.buf i) x ∧ InRange addr size x) :
    overlaps addr size (t.buf i) = true ↔
      addr.toNat + size.toNat < 2 ^ 64 ∨ (t.buf i).base < addr + size := by
  have hin := h.ok.inside i hi
  have hmem := t.memBytes.toNat_lt
  obtain ⟨x, hx⟩ := hcommon
  unfold BtBuf.Has InRange at hx
  have hleft : addr < (t.buf i).base + (t.buf i).size := by
    rw [UInt64.lt_iff_toNat_lt, toNat_add_of_lt (by omega)]
    omega
  unfold overlaps
  rw [Bool.and_eq_true, decide_eq_true_eq, decide_eq_true_eq, and_iff_right hleft]
  constructor
  · exact .inr
  · rintro (hlt | hlt)
    · rw [UInt64.lt_iff_toNat_lt, toNat_add_of_lt hlt]
      omega
    · exact hlt

theorem advances_iff (h : Tidy t) (c : Call) : Advances c t ↔
    ∀ addr size, markOf t c = some (addr, size) → addr.toNat + size.toNat < 2 ^ 64 ∨
      ∀ i, (t.buf i).valid = true → (∃ x, BtBuf.Has (t.buf i) x ∧ InRange addr size x) →
        (t.buf i).base < addr + size := by
  have hver (addr size : UInt64) (hc : markOf t c = some (addr, size)) (i : Fin btMaxBuffers)
      (hi : (t.buf i).valid = true) : ((step c t).buf i).ver =
        if overlaps addr size (t.buf i) = true then (t.buf i).ver + 1 else (t.buf i).ver := by
    cases c with
    | register base size => cases hc
    | unregister bufId => cases hc
    | markCpu a s =>
      cases hc
      exact markWrite_ver h hi
    | markPeer a s =>
      cases hc
      exact markWrite_ver h hi
    | markDma a s =>
      unfold markOf at hc
      simp only at hc
      split at hc
      · cases hc
        obtain ⟨-, -, hbuf⟩ := btMarkDmaWrite_buf t addr size
        show ((btMarkDmaWrite t addr size).1.buf i).ver = _
        rw [hbuf, if_pos ‹_›]
        exact markWrite_ver h hi
      · cases hc
    | dmaComplete token => cases hc
  constructor
  · intro hadv addr size hc
    by_cases hlt : addr.toNat + size.toNat < 2 ^ 64
    · exact .inl hlt
    · refine .inr fun i hi hcommon => ?_
      have hone := hadv addr size hc i hi hcommon
      rw [hver addr size hc i hi] at hone
      by_cases hover : overlaps addr size (t.buf i) = true
      · exact ((overlaps_of_common h hi hcommon).mp hover).resolve_left hlt
      · rw [if_neg hover] at hone
        have hne : (t.buf i).ver + 1 ≠ (t.buf i).ver := by
          intro heq
          have := congrArg UInt64.toNat heq
          rw [UInt64.toNat_add] at this
          have hv := (t.buf i).ver.toNat_lt
          have h1 : (1 : UInt64).toNat = 1 := rfl
          omega
        exact absurd hone.symm hne
  · intro hno addr size hc i hi hcommon
    rw [hver addr size hc i hi, if_pos]
    rw [overlaps_of_common h hi hcommon]
    rcases hno addr size hc with hlt | hall
    · exact .inl hlt
    · exact .inr (hall i hi hcommon)

theorem buffersOk_iff (h : Tidy t) (c : Call) : BuffersOk (step c t) ↔
    ∀ base size, c = .register base size → base.toNat + size.toNat < 2 ^ 64 ∨
      t.memBytes < base + size ∨ conflicts t base size = true ∨ ∀ i, (t.buf i).valid = true := by
  by_cases hc : ∀ base size, c ≠ .register base size
  · exact iff_of_true (h.step hc).ok fun base size heq => absurd heq (hc base size)
  · rw [not_forall] at hc
    obtain ⟨base, hc⟩ := hc
    rw [not_forall] at hc
    obtain ⟨size, hc⟩ := hc
    rw [not_not] at hc
    subst hc
    show BuffersOk (btRegisterBuffer t base size).1 ↔ _
    rcases register_cases t base size with ⟨hsame, hwhy⟩ | ⟨id, hs, hin, hconf, hfree, hnew⟩
    · rw [hsame]
      refine iff_of_true h.ok fun base' size' heq => ?_
      cases heq
      rcases hwhy with hzero | hwhy
      · rw [hzero]
        exact .inl base.toNat_lt
      · exact .inr hwhy
    · rw [hnew]
      constructor
      · intro hok base' size' heq
        cases heq
        have hnewIn := hok.inside id
        simp only [Function.update_self] at hnewIn
        have hmem := t.memBytes.toNat_lt
        have := hnewIn trivial
        exact .inl (by omega)
      · intro hno
        have hlt : base.toNat + size.toNat < 2 ^ 64 := by
          rcases hno base size rfl with hlt | hbeyond | hhit | hfull
          · exact hlt
          · exact absurd hin (UInt64.not_le.mpr hbeyond)
          · rw [hconf] at hhit
            exact absurd hhit (by decide)
          · rw [hfull id] at hfree
            exact absurd hfree (by decide)
        rw [UInt64.le_iff_toNat_le, toNat_add_of_lt hlt] at hin
        exact (h.register hs hin hconf).ok

theorem tidy_create (memBytes : UInt64) : Tidy (btCreate memBytes) := by
  refine ⟨⟨?_, ?_, ?_⟩, ?_⟩
  · intro i hi
    exact absurd hi Bool.false_ne_true
  · intro i hi
    exact absurd hi Bool.false_ne_true
  · intro i j _ hi
    exact absurd hi Bool.false_ne_true
  · intro i hi
    exact absurd hi Bool.false_ne_true

/-- For every sequence of calls: the registered buffers are good in every state and every mark
advances the versions it should, exactly if no range that wraps is registered and no mark wraps to the
base of a buffer that it overlaps or below. -/
theorem buffers_right_iff (memBytes : UInt64) (calls : List Call) :
    BuffersRight memBytes calls ↔ Along step NoWrap calls (btCreate memBytes) := by
  refine along_iff (I := Tidy) ?_ ?_ (tidy_create memBytes)
  · intro c t h
    rw [advances_iff h c, buffersOk_iff h c]
    exact and_comm
  · intro c t h hQ
    exact ⟨hQ.2, counted_step h.counted c⟩

/-- In a memory of 16 bytes a buffer of two bytes at the last address is accepted. -/
theorem wrapped_buffer_registered :
    ¬BuffersRight 16 [.register 0xFFFFFFFFFFFFFFFF 2] := by
  rintro ⟨⟨-, hok⟩, -⟩
  rw [buffersOk_iff (tidy_create 16)] at hok
  rcases hok _ _ rfl with hlt | hbeyond | hhit | hfull
  · exact absurd hlt (by decide)
  · exact absurd hbeyond (by decide)
  · obtain ⟨i, hi, -⟩ := conflicts_iff.mp hhit
    exact absurd hi Bool.false_ne_true
  · exact absurd (hfull ⟨0, by decide⟩) Bool.false_ne_true

end Buffers

/-! ### Tokens -/

section Tokens

/-- What the caller knows: the tokens it was given and has not completed yet, and how many DMA writes
of a range inside the memory it has asked for. -/
structure Ledger where
  outstanding : List ℕ
  asked : ℕ

/-- What a call adds to the ledger. -/
def record (c : Call) (t : Tracker) (l : Ledger) : Ledger :=
  match c with
  | .markDma addr size =>
    ⟨(btMarkDmaWrite t addr size).2.toList ++ l.outstanding,
      if inMemory t.memBytes addr size then l.asked + 1 else l.asked⟩
  | .dmaComplete token => ⟨l.outstanding.erase token, l.asked⟩
  | _ => l

/-- A call on the tracker, with the ledger kept. -/
def ledgerStep (c : Call) (s : Tracker × Ledger) : Tracker × Ledger := (step c s.1, record c s.1 s.2)

/-- The tracker counts the outstanding tokens, which are distinct. -/
def CountsTokens (s : Tracker × Ledger) : Prop :=
  btDmaPending s.1 = s.2.outstanding.length ∧ s.2.outstanding.Nodup

/-- With fewer than 64 transfers pending a DMA write gets a token. -/
def GetsToken (c : Call) (s : Tracker × Ledger) : Prop :=
  ∀ addr size, c = .markDma addr size → s.2.outstanding.length < btMaxDmaTokens →
    (btMarkDmaWrite s.1 addr size).2.isSome = true

/-- The tokens are counted in every state of the run, and every DMA write that should get one does. -/
def TokensRight (memBytes : UInt64) (calls : List Call) : Prop :=
  Along ledgerStep (fun c s => GetsToken c s ∧ CountsTokens (ledgerStep c s)) calls
    (btCreate memBytes, ⟨[], 0⟩)

/-- A DMA write with fewer than 64 transfers pending has a range that passes the guard, and fewer than
64 such writes came before it. -/
def FewTokens (c : Call) (s : Tracker × Ledger) : Prop :=
  ∀ addr size, c = .markDma addr size → s.2.outstanding.length < btMaxDmaTokens →
    inMemory s.1.memBytes addr size ∧ s.2.asked < btMaxDmaTokens

/-- Tokens are given out in order and not taken back, and the outstanding ones are those that are
open. -/
structure Issued (s : Tracker × Ledger) : Prop where
  inOrder : ∀ i, (s.1.tok i).state = .free ↔ s.2.asked ≤ i.val
  opened : ∀ i, i.val + 1 ∈ s.2.outstanding ↔ (s.1.tok i).state = .opened
  nodup : s.2.outstanding.Nodup
  known : ∀ token ∈ s.2.outstanding, ∃ i : Fin btMaxDmaTokens, token = i.val + 1

variable {s : Tracker × Ledger} {c : Call}

theorem Issued.counts (h : Issued s) : CountsTokens s := by
  refine ⟨?_, h.nodup⟩
  have hperm : (((List.finRange btMaxDmaTokens).filter fun i =>
      decide ((s.1.tok i).state = .opened)).map fun i => i.val + 1).Perm s.2.outstanding := by
    rw [List.perm_ext_iff_of_nodup _ h.nodup]
    · intro token
      constructor
      · intro hmem
        obtain ⟨i, hi, rfl⟩ := List.mem_map.mp hmem
        exact (h.opened i).mpr (of_decide_eq_true (List.mem_filter.mp hi).2)
      · intro hmem
        obtain ⟨i, rfl⟩ := h.known token hmem
        refine List.mem_map.mpr ⟨i, List.mem_filter.mpr ⟨List.mem_finRange i, ?_⟩, rfl⟩
        exact decide_eq_true ((h.opened i).mp hmem)
    · apply List.Nodup.map
      · intro i j hij
        exact Fin.ext (Nat.succ.inj hij)
      · exact (List.nodup_finRange btMaxDmaTokens).filter _
  unfold btDmaPending
  rw [List.countP_eq_length_filter, ← hperm.length_eq, List.length_map]

theorem Issued.freeTok_eq (h : Issued s) (t : Tracker) (htok : t.tok = s.1.tok) :
    freeTok t = if hlt : s.2.asked < btMaxDmaTokens then some ⟨s.2.asked, hlt⟩ else none := by
  unfold freeTok
  rw [htok]
  split
  · rw [List.find?_eq_some_iff_getElem]
    refine ⟨decide_eq_true ((h.inOrder _).mpr le_rfl), s.2.asked, ?_, ?_, ?_⟩
    · rwa [List.length_finRange]
    · rw [List.getElem_finRange]
      rfl
    · intro j hj
      rw [List.getElem_finRange]
      simp only [Bool.not_eq_true', decide_eq_false_iff_not]
      rw [h.inOrder]
      exact Nat.not_le.mpr hj
  · rw [List.find?_eq_none]
    intro i _ hi
    have := (h.inOrder i).mp (of_decide_eq_true hi)
    have := i.isLt
    omega

theorem Issued.markDma (h : Issued s) (addr size : UInt64) :
    (btMarkDmaWrite s.1 addr size).2 =
      if inMemory s.1.memBytes addr size ∧ s.2.asked < btMaxDmaTokens then some (s.2.asked + 1)
      else none := by
  have hfree := h.freeTok_eq (markWrite s.1 addr size) rfl
  unfold btMarkDmaWrite
  by_cases hin : inMemory s.1.memBytes addr size
  · rw [if_pos hin]
    dsimp only
    rw [hfree]
    by_cases hlt : s.2.asked < btMaxDmaTokens
    · rw [dif_pos hlt, if_pos ⟨hin, hlt⟩]
    · rw [dif_neg hlt, if_neg fun hand => hlt hand.2]
  · rw [if_neg hin, if_neg fun hand => hin hand.1]

theorem Issued.markDma_tok (h : Issued s) (addr size : UInt64) :
    (btMarkDmaWrite s.1 addr size).1.tok =
      if hlt : inMemory s.1.memBytes addr size ∧ s.2.asked < btMaxDmaTokens then
        Function.update s.1.tok ⟨s.2.asked, hlt.2⟩ ⟨addr, size, .opened⟩
      else s.1.tok := by
  have hfree := h.freeTok_eq (markWrite s.1 addr size) rfl
  unfold btMarkDmaWrite
  by_cases hin : inMemory s.1.memBytes addr size
  · rw [if_pos hin]
    dsimp only
    rw [hfree]
    by_cases hlt : s.2.asked < btMaxDmaTokens
    · rw [dif_pos hlt, dif_pos ⟨hin, hlt⟩]
      rfl
    · rw [dif_neg hlt, dif_neg fun hand => hlt hand.2]
      rfl
  · rw [if_neg hin, dif_neg fun hand => hin hand.1]

theorem Issued.step_markDma (h : Issued s) (addr size : UInt64) :
    Issued (ledgerStep (.markDma addr size) s) := by
  have htok := h.markDma_tok addr size
  have hout : (record (.markDma addr size) s.1 s.2).outstanding =
      (if inMemory s.1.memBytes addr size ∧ s.2.asked < btMaxDmaTokens then some (s.2.asked + 1)
        else none).toList ++ s.2.outstanding := by
    rw [← h.markDma]
    rfl
  have hasked : (record (.markDma addr size) s.1 s.2).asked =
      if inMemory s.1.memBytes addr size then s.2.asked + 1 else s.2.asked := rfl
  have hnew : s.2.asked + 1 ∉ s.2.outstanding := by
    intro hmem
    obtain ⟨i, hi⟩ := h.known _ hmem
    have hopen := (h.opened i).mp (hi ▸ hmem)
    have hfree := (h.inOrder i).mpr (by omega)
    rw [hfree] at hopen
    cases hopen
  by_cases hboth : inMemory s.1.memBytes addr size ∧ s.2.asked < btMaxDmaTokens
  · rw [dif_pos hboth] at htok
    rw [if_pos hboth] at hout
    rw [if_pos hboth.1] at hasked
    have hlist : (record (.markDma addr size) s.1 s.2).outstanding =
        (s.2.asked + 1) :: s.2.outstanding := hout
    refine ⟨fun i => ?_, fun i => ?_, ?_, ?_⟩
    · show ((btMarkDmaWrite s.1 addr size).1.tok i).state = _ ↔ (record _ s.1 s.2).asked ≤ _
      rw [htok, hasked]
      by_cases hi : i = ⟨s.2.asked, hboth.2⟩
      · rw [hi, Function.update_self]
        refine iff_of_false (fun h0 => by cases h0) ?_
        exact Nat.not_succ_le_self _
      · have hne : i.val ≠ s.2.asked := fun heq => hi (Fin.ext heq)
        rw [Function.update_of_ne hi, h.inOrder]
        omega
    · show i.val + 1 ∈ (record _ s.1 s.2).outstanding ↔
        ((btMarkDmaWrite s.1 addr size).1.tok i).state = _
      rw [htok, hlist, List.mem_cons]
      by_cases hi : i = ⟨s.2.asked, hboth.2⟩
      · rw [hi, Function.update_self]
        exact iff_of_true (.inl rfl) rfl
      · have hne : i.val ≠ s.2.asked := fun heq => hi (Fin.ext heq)
        rw [Function.update_of_ne hi, ← h.opened]
        constructor
        · rintro (heq | hmem)
          · omega
          · exact hmem
        · exact .inr
    · show (record _ s.1 s.2).outstanding.Nodup
      rw [hlist]
      exact List.nodup_cons.mpr ⟨hnew, h.nodup⟩
    · show ∀ token ∈ (record _ s.1 s.2).outstanding, _
      rw [hlist]
      intro token hmem
      cases List.mem_cons.mp hmem with
      | inl heq => exact ⟨⟨s.2.asked, hboth.2⟩, heq⟩
      | inr hmem => exact h.known token hmem
  · rw [dif_neg hboth] at htok
    rw [if_neg hboth] at hout
    have hlist : (record (.markDma addr size) s.1 s.2).outstanding = s.2.outstanding := hout
    refine ⟨fun i => ?_, fun i => ?_, ?_, ?_⟩
    · show ((btMarkDmaWrite s.1 addr size).1.tok i).state = _ ↔ (record _ s.1 s.2).asked ≤ _
      rw [htok, hasked, h.inOrder]
      split
      · have hi := i.isLt
        have hge : ¬s.2.asked < btMaxDmaTokens := fun hlt => hboth ⟨‹_›, hlt⟩
        omega
      · exact Iff.rfl
    · show i.val + 1 ∈ (record _ s.1 s.2).outstanding ↔
        ((btMarkDmaWrite s.1 addr size).1.tok i).state = _
      rw [htok, hlist]
      exact h.opened i
    · show (record _ s.1 s.2).outstanding.Nodup
      rw [hlist]
      exact h.nodup
    · show ∀ token ∈ (record _ s.1 s.2).outstanding, _
      rw [hlist]
      exact h.known

theorem Issued.step_dmaComplete (h : Issued s) (token : ℕ) :
    Issued (ledgerStep (.dmaComplete token) s) := by
  have hmem (i : Fin btMaxDmaTokens) : i.val + 1 ∈ s.2.outstanding.erase token ↔
      i.val + 1 ≠ token ∧ (s.1.tok i).state = .opened := by
    rw [h.nodup.mem_erase_iff, h.opened]
  have hstate (i : Fin btMaxDmaTokens) : ((btDmaComplete s.1 token).1.tok i).state =
      if i.val + 1 = token ∧ (s.1.tok i).state = .opened then .closed else (s.1.tok i).state := by
    unfold btDmaComplete
    by_cases hrange : 0 < token ∧ token - 1 < btMaxDmaTokens
    · rw [dif_pos hrange]
      by_cases hi : i = ⟨token - 1, hrange.2⟩
      · have hval : i.val + 1 = token := by
          rw [hi]
          show token - 1 + 1 = token
          omega
        rw [← hi]
        by_cases hopen : (s.1.tok i).state = .opened
        · rw [if_pos hopen, if_pos ⟨hval, hopen⟩]
          simp only [Function.update_self]
        · rw [if_neg hopen, if_neg fun hand => hopen hand.2]
      · have hval : i.val + 1 ≠ token := by
          intro heq
          apply hi
          apply Fin.ext
          show i.val = token - 1
          omega
        have hother : ¬(i.val + 1 = token ∧ (s.1.tok i).state = .opened) := fun hand => hval hand.1
        rw [if_neg hother]
        by_cases hopen : (s.1.tok ⟨token - 1, hrange.2⟩).state = .opened
        · rw [if_pos hopen]
          simp only [Function.update_of_ne hi]
        · rw [if_neg hopen]
    · have hval : i.val + 1 ≠ token := by
        have := i.isLt
        omega
      rw [dif_neg hrange, if_neg fun hand => hval hand.1]
  refine ⟨fun i => ?_, fun i => ?_, h.nodup.erase token, ?_⟩
  · show ((btDmaComplete s.1 token).1.tok i).state = _ ↔ s.2.asked ≤ _
    rw [hstate, ← h.inOrder]
    split
    · rename_i hclosed
      rw [hclosed.2]
      exact iff_of_false (fun h0 => by cases h0) (fun h0 => by cases h0)
    · exact Iff.rfl
  · show i.val + 1 ∈ s.2.outstanding.erase token ↔ ((btDmaComplete s.1 token).1.tok i).state = _
    rw [hmem, hstate]
    by_cases hthis : i.val + 1 = token ∧ (s.1.tok i).state = .opened
    · rw [if_pos hthis]
      exact iff_of_false (fun h0 => h0.1 hthis.1) (fun h0 => by cases h0)
    · rw [if_neg hthis]
      constructor
      · exact And.right
      · intro hopen
        exact ⟨fun heq => hthis ⟨heq, hopen⟩, hopen⟩
  · intro tok htok
    exact h.known tok (List.mem_of_mem_erase htok)

theorem Issued.of_tok (h : Issued s) (htok : (step c s.1).tok = s.1.tok)
    (hrecord : record c s.1 s.2 = s.2) : Issued (ledgerStep c s) := by
  unfold ledgerStep
  rw [hrecord]
  refine ⟨?_, ?_, h.nodup, h.known⟩
  · show ∀ i, ((step c s.1).tok i).state = _ ↔ _
    rw [htok]
    exact h.inOrder
  · show ∀ i, _ ↔ ((step c s.1).tok i).state = _
    rw [htok]
    exact h.opened

theorem Issued.step (h : Issued s) (c : Call) : Issued (ledgerStep c s) := by
  cases c with
  | register base size =>
    apply h.of_tok _ rfl
    show (btRegisterBuffer s.1 base size).1.tok = s.1.tok
    rcases register_cases s.1 base size with ⟨hsame, -⟩ | ⟨id, -, -, -, -, hnew⟩
    · rw [hsame]
    · rw [hnew]
  | unregister bufId =>
    apply h.of_tok _ rfl
    show (btUnregisterBuffer s.1 bufId).1.tok = s.1.tok
    unfold btUnregisterBuffer
    split
    · split
      · rfl
      · rfl
    · rfl
  | markCpu addr size => exact h.of_tok rfl rfl
  | markPeer addr size => exact h.of_tok rfl rfl
  | markDma addr size => exact h.step_markDma addr size
  | dmaComplete token => exact h.step_dmaComplete token

theorem issued_create (memBytes : UInt64) : Issued (btCreate memBytes, ⟨[], 0⟩) :=
  ⟨fun i => iff_of_true rfl (Nat.zero_le _),
    fun i => iff_of_false List.not_mem_nil (fun h0 => by cases h0), List.nodup_nil,
    fun _ h0 => absurd h0 List.not_mem_nil⟩

/-- For every sequence of calls: the pending count is the number of outstanding tokens, which are
distinct, and every DMA write with fewer than 64 transfers pending gets a token, exactly if each such
write has a range that passes the guard and is among the first 64 of them. -/
theorem tokens_right_iff (memBytes : UInt64) (calls : List Call) :
    TokensRight memBytes calls ↔
      Along ledgerStep FewTokens calls (btCreate memBytes, ⟨[], 0⟩) := by
  refine along_iff (I := Issued) ?_ ?_ (issued_create memBytes)
  · intro c s h
    rw [and_iff_left (h.step c).counts]
    constructor
    · intro hget addr size hc hlt
      have hsome := hget addr size hc hlt
      rw [h.markDma] at hsome
      split at hsome
      · assumption
      · cases hsome
    · intro hfew addr size hc hlt
      rw [h.markDma, if_pos (hfew addr size hc hlt)]
      rfl
  · intro c s h _
    exact h.step c

/-- Write one byte and complete the transfer. -/
def transfer (i : ℕ) : List Call := [.markDma 0 1, .dmaComplete (i + 1)]

theorem transfer_spec (h : Issued s) (hmem : s.1.memBytes = 16) (hout : s.2.outstanding = [])
    (hlt : s.2.asked < btMaxDmaTokens) :
    let s' := ledgerStep (.dmaComplete (s.2.asked + 1)) (ledgerStep (.markDma 0 1) s)
    Issued s' ∧ s'.1.memBytes = 16 ∧ s'.2.outstanding = [] ∧ s'.2.asked = s.2.asked + 1 := by
  have hin : inMemory s.1.memBytes 0 1 := by
    rw [hmem]
    decide
  have hlist : (record (.markDma 0 1) s.1 s.2).outstanding = [s.2.asked + 1] := by
    show (btMarkDmaWrite s.1 0 1).2.toList ++ s.2.outstanding = _
    rw [h.markDma, if_pos ⟨hin, hlt⟩, hout]
    rfl
  refine ⟨(h.step _).step _, ?_, ?_, ?_⟩
  · show (btDmaComplete (btMarkDmaWrite s.1 0 1).1 _).1.memBytes = 16
    rw [(btDmaComplete_buf _ _).1, (btMarkDmaWrite_buf _ _ _).1, hmem]
  · show ((record (.markDma 0 1) s.1 s.2).outstanding).erase _ = []
    rw [hlist, List.erase_cons_head]
  · exact if_pos hin

theorem transfers_fail (m : ℕ) (h : Issued s) (hmem : s.1.memBytes = 16) (hout : s.2.outstanding = [])
    (hm : s.2.asked + m = btMaxDmaTokens) :
    ¬Along ledgerStep (fun c s => GetsToken c s ∧ CountsTokens (ledgerStep c s))
      ((List.range' s.2.asked (m + 1)).flatMap transfer) s := by
  induction m generalizing s with
  | zero =>
    rintro ⟨⟨hget, -⟩, -⟩
    have hsome := hget 0 1 rfl (by
      rw [hout]
      decide)
    rw [h.markDma, if_neg (fun hand => by omega)] at hsome
    cases hsome
  | succ m ih =>
    rintro ⟨-, -, hrest⟩
    obtain ⟨hissued, hmem', hout', hasked⟩ := transfer_spec h hmem hout (by omega)
    apply ih hissued hmem' hout' (by omega)
    rw [hasked]
    exact hrest

/-- After 64 writes of one byte, each completed, the next one gets no token. -/
theorem token_table_exhausted :
    ¬TokensRight 16 ((List.range' 0 65).flatMap transfer) :=
  transfers_fail 64 (issued_create 16) rfl rfl rfl

end Tokens

end Gehtp.Analysis.BtrackTablesSafe
