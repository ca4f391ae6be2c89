import Mathlib.Data.List.Induction
import Gehtp.Model.WtopBlob

/-!
# The ranges of the slots

`add_slot` and `add_ext_slot` append the bytes of a slot to an area and record where they start.
The start is truncated to 32 bits before it is stored in the 64-bit field, so a slot that starts
at 4 GiB or behind is recorded inside of an earlier one, and a version 2 record of 64 bits keeps
the truncated offset.
-/

set_option autoImplicit false

namespace Gehtp.Analysis.SlotRanges

open Lib Model.OplistParse Model.WtopBlob

/-- A call of `add_ext_slot`, or of `add_slot` with the address that the slot gets. -/
structure SlotCall where
  ext : Bool
  count : UInt32
  addr : UInt32
  len : UInt32
  data : List UInt8
  length : data.length = len.toNat
  inline : addr ≠ wtSlotExtWgt

def push (em : Emitter) (c : SlotCall) : Emitter :=
  if c.ext then addExtSlot em c.len c.count c.data c.length
  else addSlot em c.len c.count c.addr c.data c.length c.inline

def pushAll (calls : List SlotCall) : Emitter := calls.foldl push emptyEmitter

def area (em : Emitter) (ext : Bool) : List UInt8 :=
  if ext then em.extWeightArea else em.weightArea

/-- The offset in the record of a slot: two words in version 2, one in version 1.
SOURCE: wtop_emit.cpp:634-645 -/
def recordedOffset (v2 : Bool) (s : WtSlot) : ℕ :=
  if v2 then (u64lo s.offset).toNat + (u64hi s.offset).toNat * 2 ^ 32 else s.offset.toUInt32.toNat

/-- Byte `x` of its area is in the recorded range of a slot. -/
def Covers (v2 : Bool) (s : WtSlot) (x : ℕ) : Prop :=
  recordedOffset v2 s ≤ x ∧ x < recordedOffset v2 s + s.len.toNat

/-- The recorded range of each slot holds its data, and two ranges of one area share no byte. -/
structure SlotsHold (calls : List SlotCall) (forceV2 : Bool) : Prop where
  data : ∀ (i : ℕ) (c : SlotCall) (s : WtSlot), calls[i]? = some c →
    (pushAll calls).slots[i]? = some s →
    ((area (pushAll calls) c.ext).drop (recordedOffset (needV2 (pushAll calls) forceV2) s)).take
      s.len.toNat = c.data
  disjoint : ∀ (i j : ℕ) (c c' : SlotCall) (s s' : WtSlot), i ≠ j →
    calls[i]? = some c → calls[j]? = some c' → c.ext = c'.ext →
    (pushAll calls).slots[i]? = some s → (pushAll calls).slots[j]? = some s' →
      ∀ x, ¬ (Covers (needV2 (pushAll calls) forceV2) s x ∧
        Covers (needV2 (pushAll calls) forceV2) s' x)

/-! ### One call -/

def slotOf (em : Emitter) (c : SlotCall) : WtSlot :=
  slotAtEnd (area em c.ext).length c.len c.count (if c.ext then wtSlotExtWgt else c.addr)

theorem slots_push (em : Emitter) (c : SlotCall) :
    (push em c).slots = em.slots ++ [slotOf em c] := by
  unfold push slotOf area
  cases c.ext <;> rfl

theorem area_push_same (em : Emitter) (c : SlotCall) :
    area (push em c) c.ext = padTo128 (area em c.ext ++ c.data) := by
  unfold push area
  cases h : c.ext <;> simp [addExtSlot, addSlot]

theorem area_push_other (em : Emitter) (c : SlotCall) {ext : Bool} (h : ext ≠ c.ext) :
    area (push em c) ext = area em ext := by
  unfold push area
  cases hc : c.ext <;> cases ext <;> simp_all [addExtSlot, addSlot]

theorem area_aligned (em : Emitter) (ext : Bool) : (area em ext).length % 128 = 0 := by
  unfold area
  cases ext
  · exact em.weight_aligned
  · exact em.ext_aligned

theorem area_push (em : Emitter) (c : SlotCall) (ext : Bool) :
    ∃ more, area (push em c) ext = area em ext ++ more := by
  by_cases h : ext = c.ext
  · subst h
    rw [area_push_same]
    exact ⟨_, List.append_assoc ..⟩
  · exact ⟨[], by rw [area_push_other em c h, List.append_nil]⟩

variable {s : WtSlot}

theorem offset_lt {em : Emitter} (hs : s ∈ em.slots) : s.offset.toNat < 2 ^ 32 :=
  (em.slots_in_area s hs).2.1

theorem recordedOffset_eq (v2 : Bool) (h : s.offset.toNat < 2 ^ 32) :
    recordedOffset v2 s = s.offset.toNat := by
  unfold recordedOffset
  cases v2
  · simp only [Bool.false_eq_true, if_false, UInt64.toNat_toUInt32]
    exact Nat.mod_eq_of_lt h
  · rw [if_pos rfl, u64lo_toNat, u64hi_toNat, Nat.div_eq_of_lt h, Nat.mod_eq_of_lt h]
    omega

theorem slotOf_offset (em : Emitter) (c : SlotCall) :
    (slotOf em c).offset.toNat = (area em c.ext).length % 2 ^ 32 := slotAtEnd_offset ..

/-! ### All calls -/

theorem pushAll_concat (calls : List SlotCall) (c : SlotCall) :
    pushAll (calls ++ [c]) = push (pushAll calls) c := by
  unfold pushAll
  rw [List.foldl_append]
  rfl

theorem slots_length (calls : List SlotCall) : (pushAll calls).slots.length = calls.length := by
  induction calls using List.reverseRecOn with
  | nil => rfl
  | append_singleton calls c ih =>
    rw [pushAll_concat, slots_push, List.length_append, List.length_append, ih]
    rfl

variable {calls : List SlotCall} {c : SlotCall}

theorem slot_cases {c₀ : SlotCall} {i : ℕ} (hc : (calls ++ [c₀])[i]? = some c)
    (hs : (pushAll (calls ++ [c₀])).slots[i]? = some s) :
    (calls[i]? = some c ∧ (pushAll calls).slots[i]? = some s) ∨
      i = calls.length ∧ c = c₀ ∧ s = slotOf (pushAll calls) c₀ := by
  rw [pushAll_concat, slots_push] at hs
  have hlen := slots_length calls
  by_cases hi : i < calls.length
  · rw [List.getElem?_append_left hi] at hc
    rw [List.getElem?_append_left (by omega)] at hs
    exact .inl ⟨hc, hs⟩
  · have hi' : i = calls.length := by
      have := (List.getElem?_eq_some_iff.mp hc).1
      rw [List.length_append, List.length_singleton] at this
      omega
    subst hi'
    rw [List.getElem?_append_right le_rfl] at hc
    rw [← hlen, List.getElem?_append_right le_rfl] at hs
    simp only [Nat.sub_self, List.getElem?_cons_zero, Option.some.injEq] at hc hs
    exact .inr ⟨rfl, hc.symm, hs.symm⟩

/-- A call whose bytes start below 4 GiB, or that has none. -/
def CallOk (em : Emitter) (c : SlotCall) : Prop := c.data ≠ [] → (area em c.ext).length < 2 ^ 32

def CallsOk (calls : List SlotCall) : Prop :=
  ∀ pre c post, calls = pre ++ c :: post → CallOk (pushAll pre) c

theorem callsOk_concat : CallsOk (calls ++ [c]) ↔ CallsOk calls ∧ CallOk (pushAll calls) c := by
  constructor
  · intro h
    refine ⟨fun pre c' post heq => h pre c' (post ++ [c]) ?_, h calls c [] rfl⟩
    rw [heq, List.append_assoc, List.cons_append]
  · rintro ⟨h, hc⟩ pre c' post heq
    rcases post.eq_nil_or_concat' with rfl | ⟨post, d, rfl⟩
    · obtain ⟨rfl, hd⟩ := List.append_inj' heq rfl
      obtain rfl := List.head_eq_of_cons_eq hd
      exact hc
    · rw [← List.cons_append, ← List.append_assoc] at heq
      exact h pre c' post (List.append_inj' heq rfl).1

/-- The offsets are those of the data, and every line of an area is in the range of a slot. -/
structure Exact (calls : List SlotCall) : Prop where
  data : ∀ (i : ℕ) (c : SlotCall) (s : WtSlot), calls[i]? = some c →
    (pushAll calls).slots[i]? = some s →
    s.offset.toNat + s.len.toNat ≤ (area (pushAll calls) c.ext).length ∧
      ((area (pushAll calls) c.ext).drop s.offset.toNat).take s.len.toNat = c.data
  disjoint : ∀ (i j : ℕ) (c c' : SlotCall) (s s' : WtSlot), i ≠ j →
    calls[i]? = some c → calls[j]? = some c' → c.ext = c'.ext →
    (pushAll calls).slots[i]? = some s → (pushAll calls).slots[j]? = some s' →
      ∀ x, ¬ ((s.offset.toNat ≤ x ∧ x < s.offset.toNat + s.len.toNat) ∧
        s'.offset.toNat ≤ x ∧ x < s'.offset.toNat + s'.len.toNat)
  covered : ∀ ext x, x % 128 = 0 → x < (area (pushAll calls) ext).length →
    ∃ (i : ℕ) (c : SlotCall) (s : WtSlot), calls[i]? = some c ∧ c.ext = ext ∧
      (pushAll calls).slots[i]? = some s ∧
      s.offset.toNat ≤ x ∧ x < s.offset.toNat + s.len.toNat

theorem exact_nil : Exact [] := by
  refine ⟨by simp, by simp, ?_⟩
  intro ext x _ hx
  cases ext <;> simp [pushAll, area, emptyEmitter] at hx

theorem drop_take_append {l more : List UInt8} {off n : ℕ} (h : off + n ≤ l.length) :
    ((l ++ more).drop off).take n = (l.drop off).take n := by
  rw [List.drop_append_of_le_length (by omega), List.take_append_of_le_length]
  rw [List.length_drop]
  omega

theorem slotOf_len (em : Emitter) (c : SlotCall) : (slotOf em c).len.toNat = c.data.length := by
  rw [c.length]
  rfl

theorem slotOf_data {em : Emitter} (hok : CallOk em c) :
    (slotOf em c).offset.toNat + (slotOf em c).len.toNat ≤ (area (push em c) c.ext).length ∧
      ((area (push em c) c.ext).drop (slotOf em c).offset.toNat).take (slotOf em c).len.toNat =
        c.data := by
  rw [slotOf_offset, slotOf_len, area_push_same, padTo128_length, List.length_append]
  by_cases hnil : c.data = []
  · rw [hnil]
    have := Nat.mod_le (area em c.ext).length (2 ^ 32)
    simp only [List.length_nil, List.take_zero, and_true]
    omega
  · rw [Nat.mod_eq_of_lt (hok hnil)]
    refine ⟨by omega, ?_⟩
    unfold padTo128
    rw [drop_take_append (by rw [List.length_append]), List.drop_left, List.take_length]

theorem Exact.push {c₀ : SlotCall} (h : Exact calls) (hok : CallOk (pushAll calls) c₀) :
    Exact (calls ++ [c₀]) := by
  have hends : ∀ (i : ℕ) (c : SlotCall) (s : WtSlot), calls[i]? = some c →
      (pushAll calls).slots[i]? = some s →
      s.offset.toNat + s.len.toNat ≤ (area (pushAll calls) c.ext).length := fun i c s hc hs =>
    (h.data i c s hc hs).1
  constructor
  · intro i c s hc hs
    rcases slot_cases hc hs with ⟨hc, hs⟩ | ⟨-, rfl, rfl⟩
    · obtain ⟨hend, hdata⟩ := h.data i c s hc hs
      obtain ⟨more, hmore⟩ := area_push (pushAll calls) c₀ c.ext
      rw [pushAll_concat, hmore, drop_take_append hend, List.length_append]
      exact ⟨by omega, hdata⟩
    · rw [pushAll_concat]
      exact slotOf_data hok
  · -- the new range starts behind all old ones, unless it is empty
    have hnew : ∀ (i : ℕ) (c : SlotCall) (s : WtSlot), calls[i]? = some c →
        (pushAll calls).slots[i]? = some s → c.ext = c₀.ext →
        ∀ x, ¬ ((s.offset.toNat ≤ x ∧ x < s.offset.toNat + s.len.toNat) ∧
          (slotOf (pushAll calls) c₀).offset.toNat ≤ x ∧
            x < (slotOf (pushAll calls) c₀).offset.toNat +
              (slotOf (pushAll calls) c₀).len.toNat) := by
      intro i c s hc hs hext x hx
      have hend := hends i c s hc hs
      rw [hext] at hend
      rw [slotOf_offset, slotOf_len] at hx
      by_cases hnil : c₀.data = []
      · rw [hnil, List.length_nil] at hx
        omega
      · rw [Nat.mod_eq_of_lt (hok hnil)] at hx
        omega
    intro i j c c' s s' hne hc hc' hext hs hs' x hx
    rcases slot_cases hc hs with ⟨hold, hsold⟩ | ⟨rfl, rfl, rfl⟩
    · rcases slot_cases hc' hs' with ⟨hold', hsold'⟩ | ⟨-, rfl, rfl⟩
      · exact h.disjoint i j c c' s s' hne hold hold' hext hsold hsold' x hx
      · exact hnew i c s hold hsold hext x hx
    · rcases slot_cases hc' hs' with ⟨hold', hsold'⟩ | ⟨rfl, -, -⟩
      · exact hnew j c' s' hold' hsold' hext.symm x ⟨hx.2, hx.1⟩
      · exact hne rfl
  · intro ext x hx hlt
    rw [pushAll_concat] at hlt
    have hcalls : ∀ (i : ℕ) (c : SlotCall), calls[i]? = some c →
        (calls ++ [c₀])[i]? = some c := by
      intro i c hc
      exact (List.getElem?_append_left (List.getElem?_eq_some_iff.mp hc).1).trans hc
    have hslots : ∀ (i : ℕ) (s : WtSlot), (pushAll calls).slots[i]? = some s →
        (pushAll (calls ++ [c₀])).slots[i]? = some s := by
      intro i s hs
      rw [pushAll_concat, slots_push]
      exact (List.getElem?_append_left (List.getElem?_eq_some_iff.mp hs).1).trans hs
    by_cases hin : x < (area (pushAll calls) ext).length
    · obtain ⟨i, c, s, hc, hext, hs, hcov⟩ := h.covered ext x hx hin
      exact ⟨i, c, s, hcalls i c hc, hext, hslots i s hs, hcov⟩
    · have hext : ext = c₀.ext := by
        by_contra hne
        rw [area_push_other _ _ hne] at hlt
        exact hin hlt
      subst hext
      refine ⟨calls.length, c₀, slotOf (pushAll calls) c₀, by simp, rfl, ?_, ?_⟩
      · rw [pushAll_concat, slots_push, ← slots_length calls]
        simp
      · rw [area_push_same, padTo128_length, List.length_append] at hlt
        have hal := area_aligned (pushAll calls) c₀.ext
        have hnil : c₀.data ≠ [] := by
          intro hnil
          rw [hnil, List.length_nil] at hlt
          omega
        rw [slotOf_offset, slotOf_len, Nat.mod_eq_of_lt (hok hnil)]
        omega

theorem exact_of_callsOk (h : CallsOk calls) : Exact calls := by
  induction calls using List.reverseRecOn with
  | nil => exact exact_nil
  | append_singleton calls c ih =>
    obtain ⟨hcalls, hc⟩ := callsOk_concat.mp h
    exact (ih hcalls).push hc

theorem slots_append {pre post : List SlotCall} {i : ℕ} {s : WtSlot}
    (h : (pushAll pre).slots[i]? = some s) : (pushAll (pre ++ post)).slots[i]? = some s := by
  induction post using List.reverseRecOn with
  | nil =>
    rw [List.append_nil]
    exact h
  | append_singleton post c ih =>
    rw [← List.append_assoc, pushAll_concat, slots_push]
    exact (List.getElem?_append_left (List.getElem?_eq_some_iff.mp ih).1).trans ih

theorem slots_mem {i : ℕ} (h : (pushAll calls).slots[i]? = some s) : s.offset.toNat < 2 ^ 32 :=
  offset_lt (List.mem_of_getElem? h)

theorem callsOk_of_hold {forceV2 : Bool} (h : SlotsHold calls forceV2) : CallsOk calls := by
  -- the calls before the first one that is not in order have exact offsets
  have hpre : ∀ pre, pre <+: calls → CallsOk pre := by
    intro pre
    induction pre using List.reverseRecOn with
    | nil =>
      intro _ pre c post heq
      simp at heq
    | append_singleton pre c ih =>
      rintro ⟨post, rfl⟩
      have hcalls : CallsOk pre := ih ⟨[c] ++ post, by rw [List.append_assoc]⟩
      refine callsOk_concat.mpr ⟨hcalls, fun hnil => ?_⟩
      by_contra hbig
      have hex := exact_of_callsOk hcalls
      have hal := area_aligned (pushAll pre) c.ext
      obtain ⟨i, c', s, hc', hext, hs, hcov⟩ := hex.covered c.ext
        ((area (pushAll pre) c.ext).length % 2 ^ 32) (by omega) (by omega)
      have hi := (List.getElem?_eq_some_iff.mp hc').1
      have hlast : (pushAll (pre ++ [c])).slots[pre.length]? = some (slotOf (pushAll pre) c) := by
        rw [pushAll_concat, slots_push, ← slots_length pre]
        simp
      have hs₁ := @slots_append pre ([c] ++ post) i s hs
      have hs₂ := @slots_append (pre ++ [c]) post _ _ hlast
      rw [← List.append_assoc] at hs₁
      have hc₁ : (pre ++ [c] ++ post)[i]? = some c' := by
        rw [List.append_assoc, List.getElem?_append_left hi]
        exact hc'
      have hc₂ : (pre ++ [c] ++ post)[pre.length]? = some c := by simp
      apply h.disjoint i pre.length c' c s _ (by omega) hc₁ hc₂ hext hs₁ hs₂
        ((area (pushAll pre) c.ext).length % 2 ^ 32)
      unfold Covers
      rw [recordedOffset_eq _ (slots_mem hs₁), recordedOffset_eq _ (slots_mem hs₂), slotOf_offset,
        slotOf_len]
      have hpos := List.length_pos_iff.mpr hnil
      exact ⟨hcov, by omega⟩
  exact hpre calls List.prefix_rfl

/-- After any calls, in version 1 or 2, each recorded range holds the data of its call and the
ranges of one area share no byte, exactly if every call with data found its area shorter than
4 GiB. SOURCE: wtop_ops.hpp:193-204, 434-445, wtop_emit.cpp:604-663 -/
theorem slotsHold_iff (calls : List SlotCall) (forceV2 : Bool) :
    SlotsHold calls forceV2 ↔ CallsOk calls := by
  refine ⟨callsOk_of_hold, fun h => ?_⟩
  have hex := exact_of_callsOk h
  constructor
  · intro i c s hc hs
    rw [recordedOffset_eq _ (slots_mem hs)]
    exact (hex.data i c s hc hs).2
  · intro i j c c' s s' hne hc hc' hext hs hs' x
    unfold Covers
    rw [recordedOffset_eq _ (slots_mem hs), recordedOffset_eq _ (slots_mem hs')]
    exact hex.disjoint i j c c' s s' hne hc hc' hext hs hs' x

theorem zero_inline : (0 : UInt32) ≠ wtSlotExtWgt := by decide

def fullCall : SlotCall where
  ext := true
  count := 0
  addr := 0
  len := 0xFFFFFFFF
  data := List.replicate 0xFFFFFFFF 0
  length := List.length_replicate
  inline := zero_inline

def oneByte : SlotCall := ⟨true, 1, 0, 1, [7], rfl, zero_inline⟩

/-- The byte 7 is appended to an area of 4 GiB and recorded at offset 0. -/
theorem slotBehind4GiB_lost :
    (slotOf (pushAll [fullCall]) oneByte).offset = 0 ∧
      ∀ forceV2, ¬ SlotsHold [fullCall, oneByte] forceV2 := by
  have hlen : (area (pushAll [fullCall]) true).length = 2 ^ 32 := by
    have harea := area_push_same emptyEmitter fullCall
    have hdata : fullCall.data.length = 0xFFFFFFFF := List.length_replicate
    show (area (push emptyEmitter fullCall) fullCall.ext).length = _
    rw [harea, padTo128_length, List.length_append, hdata]
    rfl
  constructor
  · apply UInt64.toNat_inj.mp
    have hext : oneByte.ext = true := rfl
    rw [slotOf_offset, hext, hlen, Nat.mod_self]
    rfl
  · intro forceV2 h
    have hlt := callsOk_of_hold h [fullCall] oneByte [] rfl (List.cons_ne_nil 7 [])
    have hext : oneByte.ext = true := rfl
    rw [hext, hlen] at hlt
    omega

end Gehtp.Analysis.SlotRanges
