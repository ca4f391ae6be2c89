import Gehtp.Model.SpillRun
import Gehtp.Analysis.TempDisjoint
import Mathlib.Tactic.IntervalCases

/-!
# Spills with and without the DMA run-list

The emitter makes the same moves in both encodings; only the op that stands for a move
differs. A descriptor of the run-list has no offset, and its handler looks at the bytes of
the source temp; a move that has the offset 0 in the pool and whose temp is large enough
is the same move in both encodings, and then the two op lists leave the same bytes.
-/

set_option autoImplicit false

namespace Gehtp.Analysis.DmaRunlist

open Lib Lib.Machine Model.OpGraph Model.DdrOffsets Model.FancyAllocator Model.OplistParse
  Model.OplistExec Model.OplistHandlers Model.TempEmit Model.SpillRun Analysis.DdrOffsetsSafe
  Analysis.TempDisjoint

/-! ### The emitter -/

/-- The emitter with the other encoding. -/
def withRunlist (cfg : EmitConfig) (runlist : Bool) : EmitConfig :=
  { cfg with dmaRunlist := runlist }

/-- Emitters that differ in the ops they have emitted only. -/
def SameDesk (em em' : Emitter) : Prop := em.desk = em'.desk ∧ em.tempTab = em'.tempTab

variable {cfg : EmitConfig} {em em' : Emitter} {α : Type} {s s' : ExecState}
  {bytes src dst : UInt32} {a : ℕ} {d d' : Device} {e : Stop String} {op : EmittedOp}
  {ops : List EmittedOp}

theorem resolve_congr (runlist : Bool) (h : SameDesk em em') (od : OpDef) (r : TempRef) :
    resolve (withRunlist cfg runlist) em od r = resolve cfg em' od r := by
  cases r with
  | input i => simp only [resolve, Emitter.lookup, h.1]; rfl
  | out outIdx => simp only [resolve, Emitter.lookup, h.1]
  | cols => simp only [resolve, Emitter.lookup, h.1]

theorem resolveDst_congr (runlist : Bool) (h : SameDesk em em') (od : OpDef)
    (dst : Option (TempRef × ℕ)) :
    resolveDst (withRunlist cfg runlist) em od dst = resolveDst cfg em' od dst := by
  cases dst with
  | none => rfl
  | some d => simp only [resolveDst, resolve_congr runlist h]

theorem emittedOf_congr (runlist : Bool) (h : SameDesk em em') (call pos : ℕ) (c : EmitCall) :
    emittedOf (withRunlist cfg runlist) em call pos c = emittedOf cfg em' call pos c := by
  cases c with
  | fill c => simp only [emittedOf, Emitter.lookup, h.1]; rfl
  | spill id => simp only [emittedOf, Emitter.lookup, h.1]; rfl
  | addOp od reads dst =>
    have hreads : resolve (withRunlist cfg runlist) em od = resolve cfg em' od :=
      funext (resolve_congr runlist h od)
    simp only [emittedOf, hreads, resolveDst_congr runlist h]
  | fresh opId outIdx => rfl
  | release c => rfl
  | abort => rfl

theorem emitCall_congr (cfg : EmitConfig) (runlist : Bool) (h : SameDesk em em') (pos : ℕ)
    (c : EmitCall) :
    Option.Rel SameDesk (emitCall (withRunlist cfg runlist) em pos c) (emitCall cfg em' pos c) := by
  obtain ⟨hdesk, htab⟩ := h
  cases c with
  | fill c =>
    have hsame : ∀ (cfg : EmitConfig) (em : Emitter), SameDesk (fill cfg em pos c) em := by
      intro cfg em
      unfold fill
      split <;> exact ⟨rfl, rfl⟩
    obtain ⟨h1, h2⟩ := hsame (withRunlist cfg runlist) em
    obtain ⟨h3, h4⟩ := hsame cfg em'
    exact .some ⟨h1.trans (hdesk.trans h3.symm), h2.trans (htab.trans h4.symm)⟩
  | fresh opId outIdx =>
    simp only [emitCall, freshTemp, hdesk, htab]
    split
    · exact .none
    · exact .some ⟨rfl, rfl⟩
  | addOp od reads dst =>
    have hreads : resolve (withRunlist cfg runlist) em od = resolve cfg em' od :=
      funext (resolve_congr runlist ⟨hdesk, htab⟩ od)
    simp only [emitCall, addOp, hreads, resolveDst_congr runlist ⟨hdesk, htab⟩]
    split
    · exact .some ⟨hdesk, htab⟩
    · exact .none
  | spill id =>
    have hsame : ∀ (cfg : EmitConfig) (em : Emitter), SameDesk (spill cfg em pos id) em := by
      intro cfg em
      unfold spill
      split <;> exact ⟨rfl, rfl⟩
    obtain ⟨h1, h2⟩ := hsame (withRunlist cfg runlist) em
    obtain ⟨h3, h4⟩ := hsame cfg em'
    exact .some ⟨h1.trans (hdesk.trans h3.symm), h2.trans (htab.trans h4.symm)⟩
  | release c =>
    have huse : (withRunlist cfg runlist).lastUse = cfg.lastUse := rfl
    simp only [emitCall, releaseAt, huse, hdesk]
    split
    · split
      · exact .some ⟨hdesk, htab⟩
      · exact .some ⟨rfl, htab⟩
    · exact .some ⟨rfl, htab⟩
  | abort => exact .none

theorem emittedFrom_congr (runlist : Bool) (calls : List (ℕ × EmitCall)) (h : SameDesk em em')
    (call : ℕ) :
    emittedFrom (withRunlist cfg runlist) em call calls = emittedFrom cfg em' call calls := by
  induction calls generalizing em em' call with
  | nil => rfl
  | cons c calls ih =>
    have hstep := emitCall_congr cfg runlist h c.1 c.2
    unfold emittedFrom
    rw [emittedOf_congr runlist h]
    cases h₁ : emitCall (withRunlist cfg runlist) em c.1 c.2 with
    | none =>
      rw [h₁] at hstep
      cases h₂ : emitCall cfg em' c.1 c.2 with
      | none => rfl
      | some em₂ =>
        rw [h₂] at hstep
        cases hstep
    | some em₁ =>
      rw [h₁] at hstep
      cases h₂ : emitCall cfg em' c.1 c.2 with
      | none =>
        rw [h₂] at hstep
        cases hstep
      | some em₂ =>
        rw [h₂] at hstep
        cases hstep with
        | some hsame => simp only [Option.bind_some, ih hsame]

theorem emittedOps_withRunlist (cfg : EmitConfig) (runlist : Bool) :
    emittedOps (withRunlist cfg runlist) = emittedOps cfg :=
  emittedFrom_congr runlist (emitCalls cfg) ⟨rfl, rfl⟩ 0

/-! ### States up to the count of questions -/

/-- The executor without the count of its questions to the environment. -/
def forget (s : ExecState) : ExecState := { s with tick := 0 }

/-- Executors that differ in the count of questions only. -/
def SameState (s t : ExecState) : Prop := forget s = forget t

/-- Devices with the same executor and the same bytes. -/
def SameBytes (d d' : Device) : Prop := SameState d.st d'.st ∧ d.mem = d'.mem

/-- The platform answers a question in the same way each time, and no transfer fails. -/
structure Steady (env : Env) : Prop where
  memalign : ∀ n, env.memalign n = env.memalign 0
  wtcacheOpen : ∀ n, env.wtcacheOpen n = env.wtcacheOpen 0
  wtcacheLayout : ∀ n, env.wtcacheLayout n = env.wtcacheLayout 0
  kernelOk : ∀ n, env.kernelOk n = true

theorem SameState.read {f : ExecState → α} (hf : ∀ s, f (forget s) = f s) {t : ExecState}
    (h : SameState s t) : f s = f t := by
  rw [← hf s, ← hf t]
  exact congrArg f h

theorem SameState.update {g : ExecState → ExecState}
    (hg : ∀ s, forget (g (forget s)) = forget (g s)) {t : ExecState} (h : SameState s t) :
    SameState (g s) (g t) := by
  unfold SameState
  rw [← hg s, ← hg t]
  exact congrArg (fun x => forget (g x)) h

theorem agree_field {f : ExecState → α} (hf : ∀ s, f (forget s) = f s) :
    Agree SameState (read f : Exec α) (read f) :=
  agree_read fun _ _ h => h.read hf

theorem agree_set {g : ExecState → ExecState} (hg : ∀ s, forget (g (forget s)) = forget (g s)) :
    Agree SameState (Machine.update g : Exec Unit) (Machine.update g) :=
  agree_update fun _ _ h => h.update hg

theorem agree_ask {f : ℕ → α} (hf : ∀ n, f n = f 0) : Agree SameState (ask f) (ask f) := by
  intro s t h
  refine ⟨h, fun a => ?_⟩
  show Except.ok (f s.tick) = .ok a ↔ Except.ok (f t.tick) = .ok a
  rw [hf s.tick, hf t.tick]

theorem agree_tempEntry {f : ExecState → ℕ → α} (i : ℕ) (hf : ∀ s, f (forget s) i = f s i) :
    Agree SameState (tempEntry f i) (tempEntry f i) :=
  agree_bind (agree_inTable _ _) fun _ => agree_field hf

theorem agree_placeTemp (id p : ℕ) (bytes : UInt32) :
    Agree SameState (placeTemp id p bytes) (placeTemp id p bytes) := by
  apply agree_bind (agree_inTable _ _)
  intro _
  apply agree_bind (agree_set fun _ => rfl)
  exact fun _ => agree_pure _

section Steady

variable {env : Env} (henv : Steady env)

include henv

theorem agree_vtcmPoolEnsure : Agree SameState (vtcmPoolEnsure env) (vtcmPoolEnsure env) := by
  apply agree_bind (agree_field fun _ => rfl)
  intro pool
  cases pool with
  | some base => exact agree_pure _
  | none =>
    have hens : Agree SameState (wtcacheEnsure env) (wtcacheEnsure env) := by
      apply agree_bind (agree_field fun _ => rfl)
      intro ready
      split
      · exact agree_pure _
      · apply agree_bind (agree_ask henv.wtcacheOpen)
        intro ok
        split
        · exact agree_bind (agree_set fun _ => rfl) fun _ => agree_pure _
        · exact agree_pure _
    apply agree_bind hens
    intro ok
    split
    · apply agree_bind (agree_ask henv.wtcacheLayout)
      intro lay
      apply agree_bind (agree_field fun _ => rfl)
      intro size
      split
      · exact agree_pure _
      · split
        · exact agree_pure _
        · split
          · exact agree_pure _
          · exact agree_bind (agree_set fun _ => rfl) fun _ => agree_pure _
    · exact agree_pure _

theorem agree_growPool (aligned : UInt32) :
    Agree SameState (growPool env aligned) (growPool env aligned) := by
  apply agree_read_bind
  intro s t h
  have hcap : s.poolCap = t.poolCap := h.read fun _ => rfl
  have hused : s.poolUsed = t.poolUsed := h.read fun _ => rfl
  have hmode : s.staticOffsets = t.staticOffsets := h.read fun _ => rfl
  simp only [id, hcap, hused, hmode]
  split
  · split
    · exact agree_pure _
    · split
      · exact agree_hang
      · rename_i ncap _
        apply agree_bind (agree_ask fun n => by rw [henv.memalign n])
        intro np
        cases np with
        | none => exact agree_pure _
        | some p => exact agree_bind (agree_set fun _ => rfl) fun _ => agree_pure _
  · exact agree_pure _

theorem agree_tempBump (id : ℕ) (bytes : UInt32) :
    Agree SameState (tempBump env id bytes) (tempBump env id bytes) := by
  apply agree_bind (agree_tempEntry id fun _ => rfl)
  intro cur
  apply agree_bind (agree_tempEntry id fun _ => rfl)
  intro have'
  split
  · apply agree_bind (agree_growPool henv _)
    intro ok
    split
    · apply agree_bind (agree_set fun _ => rfl)
      exact fun _ => agree_tempEntry id fun _ => rfl
    · exact agree_pure _
  · exact agree_bind (agree_set fun _ => rfl) fun _ => agree_pure _

theorem agree_tempGet (id bytes : UInt32) :
    Agree SameState (tempGet env id bytes) (tempGet env id bytes) := by
  unfold tempGet
  split
  · exact agree_pure _
  · apply agree_bind (agree_tempEntry _ fun _ => rfl)
    intro off
    split
    · apply agree_bind (agree_field fun _ => rfl)
      intro size
      split
      · exact agree_pure _
      · apply agree_bind (agree_vtcmPoolEnsure henv)
        intro base
        cases base with
        | none => exact agree_pure _
        | some p => exact agree_placeTemp _ _ _
    · apply agree_bind (agree_field fun _ => rfl)
      rintro ⟨mode, pool⟩
      split
      · apply agree_bind (agree_tempEntry _ fun _ => rfl)
        intro soff
        split
        · apply agree_bind (agree_field fun _ => rfl)
          intro used
          split
          · exact agree_pure _
          · exact agree_placeTemp _ _ _
        · exact agree_tempBump henv _ _
      · exact agree_tempBump henv _ _

end Steady

/-! ### References -/

theorem and_eq_zero_of_lt {t m k : ℕ} (ht : t < 2 ^ k) (hm : m % 2 ^ k = 0) : t &&& m = 0 := by
  apply Nat.eq_of_testBit_eq
  intro i
  rw [Nat.testBit_and, Nat.zero_testBit]
  by_cases hi : i < k
  · have hmul : m = 2 ^ k * (m / 2 ^ k) := (Nat.mul_div_cancel' (Nat.dvd_of_mod_eq_zero hm)).symm
    rw [hmul, Nat.testBit_two_pow_mul]
    simp [hi]
  · have hbit : t.testBit i = false :=
      Nat.testBit_lt_two_pow (ht.trans_le (Nat.pow_le_pow_right (by decide) (not_lt.mp hi)))
    simp [hbit]

theorem toNat_ofNat_of_lt {n : ℕ} (h : n < 2 ^ 32) : (UInt32.ofNat n).toNat = n :=
  UInt32.toNat_ofNat_of_lt' h

theorem temp_and_flags {t : ℕ} (ht : t < maxTemps) {m : UInt32} (hm : m.toNat % 2 ^ 12 = 0) :
    UInt32.ofNat t &&& m = 0 := by
  rw [← UInt32.toNat_inj, UInt32.toNat_and, toNat_ofNat_of_lt (by unfold maxTemps at ht; omega)]
  exact and_eq_zero_of_lt ht hm

theorem slot_and_mask {slot : ℕ} (h : slot < 2 ^ 14) :
    (0x8000 ||| UInt32.ofNat slot) &&& 0xC000 = 0x8000 ∧
      (0x8000 ||| UInt32.ofNat slot) &&& 0x8000 ≠ 0 ∧
      ((0x8000 ||| UInt32.ofNat slot) &&& 0x7FFF).toNat = slot := by
  have hval := toNat_ofNat_of_lt (show slot < 2 ^ 32 by omega)
  have hC : slot &&& 49152 = 0 := and_eq_zero_of_lt h (by decide)
  have h8 : slot &&& 32768 = 0 := and_eq_zero_of_lt h (by decide)
  have h7 : slot &&& 32767 = slot := by
    rw [show (32767 : ℕ) = 2 ^ 15 - 1 from rfl, Nat.and_two_pow_sub_one_eq_mod,
      Nat.mod_eq_of_lt (by omega)]
  refine ⟨?_, ?_, ?_⟩
  · rw [← UInt32.toNat_inj, UInt32.toNat_and, UInt32.toNat_or, hval, Nat.and_or_distrib_right]
    change (32768 &&& 49152 ||| slot &&& 49152) = 32768
    rw [hC]
    rfl
  · rw [ne_eq, ← UInt32.toNat_inj, UInt32.toNat_and, UInt32.toNat_or, hval,
      Nat.and_or_distrib_right]
    change ¬ (32768 &&& 32768 ||| slot &&& 32768) = 0
    rw [h8]
    decide
  · rw [UInt32.toNat_and, UInt32.toNat_or, hval, Nat.and_or_distrib_right]
    change (32768 &&& 32767 ||| slot &&& 32767) = slot
    rw [h7]
    exact Nat.zero_or slot

theorem half_mul_two {x : UInt32} (h : x % 2 = 0) : x / 2 * 2 = x := by
  have hmod : x.toNat % 2 = 0 := by
    have := congrArg UInt32.toNat h
    rwa [UInt32.toNat_mod] at this
  have hlt := x.toNat_lt
  rw [← UInt32.toNat_inj, UInt32.toNat_mul, UInt32.toNat_div]
  change x.toNat / 2 * 2 % 2 ^ 32 = x.toNat
  omega

/-- What is known of the blob: its slot of the spill pool, as the emitter made it. -/
structure PoolSlot (env : Env) (b : WtBlob) (slot : ℕ) where
  entry : WtSlot
  addr : ℕ
  found : b.slots[slot]? = some entry
  small : slot < 2 ^ 14
  resolved : slotAddr env entry = some addr

theorem PoolSlot.lt_length {env : Env} {b : WtBlob} {slot : ℕ} (pool : PoolSlot env b slot) :
    slot < b.slots.length :=
  (List.getElem?_eq_some_iff.mp pool.found).1

section Moves

variable {env : Env} {b : WtBlob} {slot : ℕ} (pool : PoolSlot env b slot)

theorem slotPtr_pool (s : ExecState) : slotPtr env b slot s = (.ok (some pool.addr), s) := by
  have hlt := pool.lt_length
  unfold slotPtr slotAt
  rw [if_neg (by omega), pool.found]
  show (Except.ok (slotAddr env pool.entry), s) = _
  rw [pool.resolved]

theorem slotAt_pool (s : ExecState) : slotAt b slot s = (.ok pool.entry, s) := by
  unfold slotAt
  rw [pool.found]
  rfl

theorem poolRange_pool (hlen : bytes.toNat ≤ pool.entry.len.toNat) (msg : String) (s : ExecState) :
    poolRange env b (UInt32.ofNat slot) 0 bytes msg s = (.ok (), s) := by
  have hslot : (UInt32.ofNat slot).toNat = slot :=
    toNat_ofNat_of_lt (pool.small.trans (by decide))
  unfold poolRange
  rw [hslot, bind_apply_ok (slotPtr_pool pool s)]
  have hguard : (Machine.guard ((some pool.addr).isSome = true) msg : Exec Unit) s = (.ok (), s) := rfl
  rw [bind_apply_ok hguard, bind_apply_ok (slotAt_pool pool s)]
  have hle : 0 + bytes ≤ pool.entry.len := by
    rw [UInt32.zero_add]
    exact UInt32.le_iff_toNat_le.mpr hlen
  unfold Machine.guard
  rw [if_pos hle]
  rfl

theorem dmaSlot_pool (hlen : bytes.toNat ≤ pool.entry.len.toNat) (s : ExecState) :
    ∃ kind, dmaSlot env b slot 0 bytes s = (.ok (some kind), s) := by
  refine ⟨ptrInVtcm s pool.addr, ?_⟩
  unfold dmaSlot
  rw [bind_apply_ok (slotPtr_pool pool s), if_pos ⟨rfl, pool.lt_length⟩,
    bind_apply_ok (slotAt_pool pool s)]
  show (Except.ok (memKind (decide _) _ s), s) = _
  unfold memKind
  rw [if_pos (by simpa using hlen)]
  rfl

theorem refPtr_temp {t : ℕ} (ht : t < maxTemps) (s : ExecState) :
    refPtr env b (UInt32.ofNat t) s = (.ok (s.temps t), s) := by
  have hval : (UInt32.ofNat t).toNat = t :=
    toNat_ofNat_of_lt (ht.trans (by decide))
  unfold refPtr
  rw [if_neg (by simp [temp_and_flags ht (m := 0x8000) (by decide)]),
    if_neg (by rw [temp_and_flags ht (by decide)]; decide),
    if_neg (by simp [temp_and_flags ht (m := 0x4000) (by decide)]), if_pos (by rw [hval]; exact ht),
    hval]
  unfold tempEntry inTable
  rw [if_pos ht]
  rfl

theorem dmaAddr_temp {t : ℕ} (ht : t < maxTemps) (s : ExecState) :
    dmaAddr env b (UInt32.ofNat t) 0 s = (.ok (s.temps t), s) := by
  have hval : (UInt32.ofNat t).toNat = t :=
    toNat_ofNat_of_lt (ht.trans (by decide))
  unfold dmaAddr
  rw [if_neg (by rw [temp_and_flags ht (by decide)]; decide),
    if_neg (by simp [temp_and_flags ht (m := 0x8000) (by decide)]),
    if_neg (by simp [temp_and_flags ht (m := 0x4000) (by decide)]), hval]
  unfold tempEntry inTable
  rw [if_pos ht]
  show (Except.ok ((s.temps t).map (· + 0)), s) = _
  simp

theorem dmaAddr_pool (s : ExecState) :
    dmaAddr env b (0x8000 ||| UInt32.ofNat slot) 0 s = (.ok (some pool.addr), s) := by
  obtain ⟨hC, h8, h7⟩ := slot_and_mask pool.small
  unfold dmaAddr
  rw [if_neg (by rw [hC]; decide), if_pos h8, h7, bind_apply_ok (slotPtr_pool pool s)]
  rfl

theorem dmaRefResolve_pool (hlen : bytes.toNat ≤ pool.entry.len.toNat) (isDst : Bool)
    (s : ExecState) :
    ∃ kind, dmaRefResolve env b (0x8000 ||| UInt32.ofNat slot) 0 bytes isDst s =
      (.ok (some kind), s) := by
  obtain ⟨hC, h8, h7⟩ := slot_and_mask pool.small
  unfold dmaRefResolve
  rw [if_neg (by rw [hC]; decide), if_pos h8, h7]
  exact dmaSlot_pool pool hlen s

theorem dmaRefResolve_temp {t : ℕ} (ht : t < maxTemps) (bytes : UInt32) (isDst : Bool) :
    dmaRefResolve env b (UInt32.ofNat t) 0 bytes isDst =
      dmaTemp env (UInt32.ofNat t) 0 bytes isDst := by
  unfold dmaRefResolve
  rw [if_neg (by rw [temp_and_flags ht (by decide)]; decide),
    if_neg (by simp [temp_and_flags ht (m := 0x8000) (by decide)]),
    if_neg (by simp [temp_and_flags ht (m := 0x4000) (by decide)])]

/-! ### The copies -/

section Steady

variable (henv : Steady env)

include henv

theorem kernel_steady (msg : String) (s : ExecState) :
    kernel env msg s = (.ok (), { s with tick := s.tick + 1 }) := by
  show (if env.kernelOk s.tick = true then pure () else reject msg : Exec Unit)
    { s with tick := s.tick + 1 } = _
  rw [if_pos (henv.kernelOk _)]
  rfl

theorem poolCopy_steady (p : Option ℕ) (bytes : UInt32) (s : ExecState) :
    ∃ n, poolCopy env p bytes s = (.ok (), { s with tick := n }) := by
  have hread : (read id : Exec ExecState) s = (.ok s, s) := rfl
  unfold poolCopy
  rw [bind_apply_ok hread]
  split
  · exact ⟨_, kernel_steady henv "" s⟩
  · exact ⟨s.tick, rfl⟩

theorem dmaTransfer_steady (src dst : Option Bool) (bytes : UInt32) (s : ExecState) :
    ∃ n, dmaTransfer env src dst bytes s = (.ok (), { s with tick := n }) := by
  unfold dmaTransfer
  split
  · exact ⟨s.tick, rfl⟩
  · rw [bind_apply_ok (kernel_steady henv _ s)]
    exact ⟨_, kernel_steady henv _ _⟩

end Steady

theorem execDma_dmaOp (src dst : UInt32) {p : SpillPlace} (hsize : p.size ≠ 0) :
    execDma env b (dmaOp src dst p) = (do
      let x ← dmaRefResolve env b src 0 p.size false
      let y ← dmaRefResolve env b dst 0 p.size true
      Machine.guard (x.isSome = true ∧ y.isSome = true) "dma ref fail"
      dmaTransfer env x y p.size) := by
  have hfence : ∀ msg, dmaFence env wtDmaFenceNone msg = pure () := fun msg => if_pos rfl
  have hsix : arg (dmaOp src dst p) 6 = wtDmaFenceNone := rfl
  have hseven : arg (dmaOp src dst p) 7 = wtDmaFenceNone := rfl
  have hguard : (Machine.guard (¬ ((3 < arg (dmaOp src dst p) 6 ∧
      arg (dmaOp src dst p) 6 ≠ wtDmaFenceNone) ∨ (3 < arg (dmaOp src dst p) 7 ∧
      arg (dmaOp src dst p) 7 ≠ wtDmaFenceNone))) "dma fence arg bad" : Exec Unit) = pure () :=
    if_pos (by simp [hsix, hseven])
  unfold execDma
  rw [hguard]
  simp only [arg, dmaOp, List.getD_cons_zero, List.getD_cons_succ, if_neg hsize, hfence,
    pure_bind, bind_pure_unit]

theorem tempGet_temps {id : UInt32} (h : tempGet env id bytes s = (.ok (some a), s')) :
    s'.temps id.toNat = some a := by
  have hplace : ∀ {t p s s'}, placeTemp t p bytes s = (.ok (some a), s') → s'.temps t = some a := by
    intro t p s s' h
    obtain ⟨ha, rfl⟩ := placeTemp_eq_ok h
    simp [placed, ha]
  have hbump : ∀ {s s'}, tempBump env id.toNat bytes s = (.ok (some a), s') →
      s'.temps id.toNat = some a := by
    intro s s' h
    obtain ⟨cur, t, hentry, h⟩ := bind_eq_ok h
    obtain ⟨rfl, rfl⟩ := tempEntry_eq_ok hentry
    obtain ⟨cap, t, hentry, h⟩ := bind_eq_ok h
    obtain ⟨-, rfl⟩ := tempEntry_eq_ok hentry
    split at h
    · obtain ⟨ok, t, -, h⟩ := bind_eq_ok h
      split at h
      · obtain ⟨_, t, -, h⟩ := bind_eq_ok h
        obtain ⟨ha, rfl⟩ := tempEntry_eq_ok h
        exact ha.symm
      · cases h
    · obtain ⟨_, t, hup, h⟩ := bind_eq_ok h
      obtain ⟨-, rfl⟩ := Prod.mk.inj hup
      obtain ⟨h1, rfl⟩ := Prod.mk.inj h
      exact Except.ok.inj h1
  unfold tempGet at h
  split at h
  · cases h
  · obtain ⟨off, t, -, h⟩ := bind_eq_ok h
    split at h
    · obtain ⟨size, t, -, h⟩ := bind_eq_ok h
      split at h
      · cases h
      · obtain ⟨base, t, -, h⟩ := bind_eq_ok h
        cases base with
        | none => cases h
        | some p => exact hplace h
    · obtain ⟨st, t, -, h⟩ := bind_eq_ok h
      split at h
      · obtain ⟨soff, t, -, h⟩ := bind_eq_ok h
        split at h
        · obtain ⟨used, t, -, h⟩ := bind_eq_ok h
          split at h
          · cases h
          · exact hplace h
        · exact hbump h
      · exact hbump h

end Moves

/-! ### A move in both encodings -/

/-- A move from or to the start of the pool, of some bytes that the pool has, and a temp of the
table. -/
structure AtPoolStart {env : Env} {b : WtBlob} {slot : ℕ} (pool : PoolSlot env b slot) (t : ℕ)
    (p : SpillPlace) : Prop where
  offset : p.offset = 0
  size_ne : p.size ≠ 0
  size_le : p.size.toNat ≤ pool.entry.len.toNat
  temp_lt : t < maxTemps

/-- What a move needs at the moment it is made; a spill reads a temp that is as large. -/
def MoveOk {env : Env} {b : WtBlob} {slot : ℕ} (pool : PoolSlot env b slot) (d : Device) :
    EmittedOp → Prop
  | .other _ _ => True
  | .fill t p => AtPoolStart pool t p
  | .spill t p => AtPoolStart pool t p ∧
    ((d.st.temps t).isSome = true → p.size.toNat ≤ (d.st.tempBytes t).toNat)

/-- Such a move of an even number of bytes. -/
structure MoveFits {env : Env} {b : WtBlob} {slot : ℕ} (pool : PoolSlot env b slot) (t : ℕ)
    (p : SpillPlace) : Prop extends AtPoolStart pool t p where
  even : p.size % 2 = 0

/-- Both runs end, or none, in devices with the same bytes. -/
def SameOutcome (r r' : Checked String Unit × Device) : Prop :=
  SameBytes r.2 r'.2 ∧ (r.1 = .ok () ↔ r'.1 = .ok ())

theorem onState_apply {m : Exec α} {r : Checked String α} (h : m d.st = (r, s)) :
    onState m d = (r, ⟨s, d.mem⟩) := by
  simp [onState, h]

section Encodings

variable {env : Env} {b : WtBlob} {slot : ℕ} {pool : PoolSlot env b slot} {t : ℕ}
  {p : SpillPlace}

theorem ofNat_slot (pool : PoolSlot env b slot) : (UInt32.ofNat slot).toNat = slot :=
  toNat_ofNat_of_lt (pool.small.trans (by decide))

theorem execSpillBytes_of_ok (h : MoveFits pool t p)
    (hrun : execSpill env b (spillOp slot t p) d.st = (.ok (), s)) (ha : s.temps t = some a) :
    execSpillBytes env b (spillOp slot t p) d =
      (.ok (), ⟨s, copyBytes pool.addr a p.size.toNat d.mem⟩) := by
  have hsrc : onState (refPtr env b (UInt32.ofNat t)) ⟨s, d.mem⟩ = (.ok (some a), ⟨s, d.mem⟩) := by
    rw [onState_apply (refPtr_temp h.temp_lt s), ha]
  have hpool := onState_apply (d := ⟨s, d.mem⟩) (slotPtr_pool pool s)
  unfold execSpillBytes
  rw [bind_apply_ok (onState_apply hrun)]
  simp only [arg, spillOp, List.getD_cons_zero, List.getD_cons_succ, half_mul_two h.even,
    h.offset, ofNat_slot pool]
  rw [bind_apply_ok hsrc, bind_apply_ok hpool]
  rfl

theorem execFillBytes_of_ok (h : MoveFits pool t p)
    (hrun : execFill env b (fillOp slot t p) d.st = (.ok (), s)) (ha : s.temps t = some a) :
    execFillBytes env b (fillOp slot t p) d =
      (.ok (), ⟨s, copyBytes a pool.addr p.size.toNat d.mem⟩) := by
  have hdst : onState (refPtr env b (UInt32.ofNat t)) ⟨s, d.mem⟩ = (.ok (some a), ⟨s, d.mem⟩) := by
    rw [onState_apply (refPtr_temp h.temp_lt s), ha]
  have hpool := onState_apply (d := ⟨s, d.mem⟩) (slotPtr_pool pool s)
  unfold execFillBytes
  rw [bind_apply_ok (onState_apply hrun)]
  simp only [arg, fillOp, List.getD_cons_zero, List.getD_cons_succ, half_mul_two h.even,
    h.offset, ofNat_slot pool]
  rw [bind_apply_ok hpool, bind_apply_ok hdst]
  rfl

theorem execDmaBytes_of_ok (hsize : p.size ≠ 0) {x y : ℕ}
    (hrun : execDma env b (dmaOp src dst p) d.st = (.ok (), s))
    (hsrc : dmaAddr env b src 0 s = (.ok (some x), s))
    (hdst : dmaAddr env b dst 0 s = (.ok (some y), s)) :
    execDmaBytes env b (dmaOp src dst p) d =
      (.ok (), ⟨s, copyBytes y x p.size.toNat d.mem⟩) := by
  have hsrc' : onState (dmaAddr env b src 0) ⟨s, d.mem⟩ = (.ok (some x), ⟨s, d.mem⟩) :=
    onState_apply hsrc
  have hdst' : onState (dmaAddr env b dst 0) ⟨s, d.mem⟩ = (.ok (some y), ⟨s, d.mem⟩) :=
    onState_apply hdst
  have hne : ¬ arg (dmaOp src dst p) 2 = 0 := hsize
  unfold execDmaBytes
  rw [if_neg hne, bind_apply_ok (onState_apply hrun)]
  simp only [arg, dmaOp, List.getD_cons_zero, List.getD_cons_succ]
  rw [bind_apply_ok hsrc', bind_apply_ok hdst']
  rfl

theorem onState_bind_error {m : Exec Unit} {f : Unit → Dev Unit} (h : m d.st = (.error e, s)) :
    (onState m >>= f) d = (.error e, ⟨s, d.mem⟩) :=
  bind_apply_error (onState_apply h)

theorem execDmaBytes_of_error (hsize : p.size ≠ 0)
    (hrun : execDma env b (dmaOp src dst p) d.st = (.error e, s)) :
    execDmaBytes env b (dmaOp src dst p) d = (.error e, ⟨s, d.mem⟩) := by
  have hne : ¬ arg (dmaOp src dst p) 2 = 0 := hsize
  unfold execDmaBytes
  rw [if_neg hne]
  exact onState_bind_error hrun

theorem sameOutcome_error {e' : Stop String} (hst : SameState s s') (hmem : d.mem = d'.mem) :
    SameOutcome (.error e, ⟨s, d.mem⟩) (.error e', ⟨s', d'.mem⟩) :=
  ⟨⟨hst, hmem⟩, iff_of_false (by simp) (by simp)⟩

theorem sameOutcome_ok (f : (ℕ → UInt8) → ℕ → UInt8) (hst : SameState s s')
    (hmem : d.mem = d'.mem) : SameOutcome (.ok (), ⟨s, f d.mem⟩) (.ok (), ⟨s', f d'.mem⟩) :=
  ⟨⟨hst, congrArg f hmem⟩, Iff.rfl⟩

theorem guard_some (a : α) (msg : String) (s : ExecState) :
    (Machine.guard ((some a).isSome = true) msg : Exec Unit) s = (.ok (), s) := rfl

theorem guard_none (msg : String) (s : ExecState) :
    (Machine.guard ((none : Option α).isSome = true) msg : Exec Unit) s =
      (.error (.reject msg), s) := rfl

theorem execSpill_of_some (henv : Steady env) (h : MoveFits pool t p) (ha : s.temps t = some a) :
    ∃ n, execSpill env b (spillOp slot t p) s = (.ok (), { s with tick := n }) := by
  have hsrc : refPtr env b (UInt32.ofNat t) s = (.ok (some a), s) := by
    rw [refPtr_temp h.temp_lt s, ha]
  obtain ⟨n, hcopy⟩ := poolCopy_steady henv (some a) p.size s
  refine ⟨n, ?_⟩
  unfold execSpill
  simp only [arg, spillOp, List.getD_cons_zero, List.getD_cons_succ, half_mul_two h.even, h.offset]
  rw [bind_apply_ok hsrc, bind_apply_ok (guard_some a _ s),
    bind_apply_ok (poolRange_pool pool h.size_le _ s), hcopy]

theorem execSpill_of_none (h : MoveFits pool t p) (ha : s.temps t = none) :
    execSpill env b (spillOp slot t p) s = (.error (.reject "spill src empty"), s) := by
  have hsrc : refPtr env b (UInt32.ofNat t) s = (.ok none, s) := by
    rw [refPtr_temp h.temp_lt s, ha]
  unfold execSpill
  simp only [arg, spillOp, List.getD_cons_zero, List.getD_cons_succ]
  rw [bind_apply_ok hsrc]
  exact bind_apply_error (guard_none _ s)

theorem execFill_eq (h : MoveFits pool t p) (s : ExecState) :
    execFill env b (fillOp slot t p) s = (do
      let dst ← tempGet env (UInt32.ofNat t) p.size
      Machine.guard (dst.isSome = true) "fill dst empty"
      poolCopy env dst p.size : Exec Unit) s := by
  unfold execFill fillDst
  simp only [arg, fillOp, List.getD_cons_zero, List.getD_cons_succ, half_mul_two h.even, h.offset]
  rw [bind_apply_ok (poolRange_pool pool h.size_le _ s),
    if_neg (by simp [temp_and_flags h.temp_lt (m := 0x8000) (by decide)])]

theorem execDma_of_ends (henv : Steady env) (hsize : p.size ≠ 0) {s₁ s₂ : ExecState}
    {x y : Option Bool} (hsrc : dmaRefResolve env b src 0 p.size false s = (.ok x, s₁))
    (hdst : dmaRefResolve env b dst 0 p.size true s₁ = (.ok y, s₂)) :
    (x.isSome = true ∧ y.isSome = true →
      ∃ n, execDma env b (dmaOp src dst p) s = (.ok (), { s₂ with tick := n })) ∧
    (¬ (x.isSome = true ∧ y.isSome = true) →
      ∃ e, execDma env b (dmaOp src dst p) s = (.error e, s₂)) := by
  rw [execDma_dmaOp src dst hsize, bind_apply_ok hsrc, bind_apply_ok hdst]
  constructor
  · intro hok
    rw [bind_apply_ok (guard_of hok _ s₂)]
    exact dmaTransfer_steady henv x y p.size s₂
  · intro hbad
    exact ⟨_, bind_apply_error (guard_of_not hbad _ s₂)⟩

theorem dmaRefResolve_src (ht : t < maxTemps) (bytes : UInt32) (s : ExecState) :
    dmaRefResolve env b (UInt32.ofNat t) 0 bytes false s =
      (.ok (memKind (decide (bytes.toNat ≤ (s.tempBytes t).toNat)) (s.temps t) s), s) := by
  have hval : (UInt32.ofNat t).toNat = t := toNat_ofNat_of_lt (ht.trans (by decide))
  have hentry : ∀ {α : Type} (f : ExecState → ℕ → α), tempEntry f t s = (.ok (f s t), s) := by
    intro α f
    unfold tempEntry inTable
    rw [if_pos ht]
    rfl
  rw [dmaRefResolve_temp ht]
  unfold dmaTemp
  rw [hval, if_neg (by omega), if_neg (by simp), bind_apply_ok (hentry _),
    bind_apply_ok (hentry _)]
  show (Except.ok (memKind (decide (0 + bytes.toNat ≤ _)) ((s.temps t).map (· + 0)) s), s) = _
  simp

theorem dmaRefResolve_dst (ht : t < maxTemps) (bytes : UInt32) :
    dmaRefResolve env b (UInt32.ofNat t) 0 bytes true = (do
      let p ← tempGet env (UInt32.ofNat t) bytes
      read (memKind true p)) := by
  have hval : (UInt32.ofNat t).toNat = t := toNat_ofNat_of_lt (ht.trans (by decide))
  rw [dmaRefResolve_temp ht]
  unfold dmaTemp
  rw [hval, if_neg (by omega), if_pos rfl, UInt32.zero_add]
  simp

theorem spill_sameOutcome (henv : Steady env) (h : MoveFits pool t p) (hsame : SameBytes d d')
    (hbytes : (d.st.temps t).isSome = true → p.size.toNat ≤ (d.st.tempBytes t).toNat) :
    SameOutcome (execSpillBytes env b (spillOp slot t p) d)
      (execDmaBytes env b (dmaSpillOp slot t p) d') := by
  obtain ⟨hst, hmem⟩ := hsame
  have htemps : d.st.temps t = d'.st.temps t := hst.read (f := fun s => s.temps t) fun _ => rfl
  have hsizes : d.st.tempBytes t = d'.st.tempBytes t :=
    hst.read (f := fun s => s.tempBytes t) fun _ => rfl
  obtain ⟨kind, hpool⟩ := dmaRefResolve_pool pool h.size_le true d'.st
  obtain ⟨hdmaOk, hdmaBad⟩ := execDma_of_ends henv h.size_ne
    (dmaRefResolve_src h.temp_lt p.size d'.st) hpool
  rw [← htemps, ← hsizes] at hdmaOk hdmaBad
  unfold dmaSpillOp
  cases ha : d.st.temps t with
  | none =>
    obtain ⟨e, hdma⟩ := hdmaBad (by simp [memKind, ha])
    rw [execDmaBytes_of_error h.size_ne hdma]
    unfold execSpillBytes
    rw [onState_bind_error (execSpill_of_none h ha)]
    exact sameOutcome_error hst hmem
  | some a =>
    obtain ⟨n, hspill⟩ := execSpill_of_some henv h ha
    obtain ⟨n', hdma⟩ := hdmaOk (by simp [memKind, ha, hbytes (by simp [ha])])
    have haddr : dmaAddr env b (UInt32.ofNat t) 0 { d'.st with tick := n' } =
        (.ok (some a), { d'.st with tick := n' }) := by
      rw [dmaAddr_temp h.temp_lt, ← ha, htemps]
    rw [execSpillBytes_of_ok h hspill ha,
      execDmaBytes_of_ok h.size_ne hdma haddr (dmaAddr_pool pool _)]
    exact sameOutcome_ok (copyBytes pool.addr a p.size.toNat) hst hmem

theorem fill_sameOutcome (henv : Steady env) (h : MoveFits pool t p) (hsame : SameBytes d d') :
    SameOutcome (execFillBytes env b (fillOp slot t p) d)
      (execDmaBytes env b (dmaFillOp slot t p) d') := by
  obtain ⟨hst, hmem⟩ := hsame
  obtain ⟨kind, hpool⟩ := dmaRefResolve_pool pool h.size_le false d'.st
  obtain ⟨hst₁, hval⟩ := agree_tempGet henv (UInt32.ofNat t) p.size d.st d'.st hst
  have hfill := execFill_eq h d.st
  have hid : (UInt32.ofNat t).toNat = t := toNat_ofNat_of_lt (h.temp_lt.trans (by decide))
  unfold dmaFillOp
  rcases hget : tempGet env (UInt32.ofNat t) p.size d.st with ⟨r, s₁⟩
  rcases hget' : tempGet env (UInt32.ofNat t) p.size d'.st with ⟨r', s₁'⟩
  rw [hget, hget'] at hst₁ hval
  have hdst : dmaRefResolve env b (UInt32.ofNat t) 0 p.size true d'.st =
      (tempGet env (UInt32.ofNat t) p.size >>= fun p => read (memKind true p)) d'.st := by
    rw [dmaRefResolve_dst h.temp_lt]
  cases r with
  | error e =>
    cases r' with
    | ok x => exact absurd ((hval x).mpr rfl) (by simp)
    | error e' =>
      rw [bind_apply_error hget] at hfill
      rw [bind_apply_error hget'] at hdst
      have hdma : execDma env b (dmaOp (0x8000 ||| UInt32.ofNat slot) (UInt32.ofNat t) p) d'.st =
          (.error e', s₁') := by
        rw [execDma_dmaOp _ _ h.size_ne, bind_apply_ok hpool]
        exact bind_apply_error hdst
      rw [execDmaBytes_of_error h.size_ne hdma]
      unfold execFillBytes
      rw [onState_bind_error hfill]
      exact sameOutcome_error hst₁ hmem
  | ok x =>
    obtain rfl : r' = .ok x := (hval x).mp rfl
    rw [bind_apply_ok hget] at hfill
    rw [bind_apply_ok hget'] at hdst
    obtain ⟨hdmaOk, hdmaBad⟩ := execDma_of_ends henv h.size_ne hpool hdst
    cases x with
    | none =>
      obtain ⟨e, hdma⟩ := hdmaBad (by simp [memKind])
      rw [bind_apply_error (guard_none _ s₁)] at hfill
      rw [execDmaBytes_of_error h.size_ne hdma]
      unfold execFillBytes
      rw [onState_bind_error hfill]
      exact sameOutcome_error hst₁ hmem
    | some a =>
      have ha := tempGet_temps hget
      have ha' := tempGet_temps hget'
      rw [hid] at ha ha'
      obtain ⟨n', hdma⟩ := hdmaOk (by simp [memKind])
      obtain ⟨n, hcopy⟩ := poolCopy_steady henv (some a) p.size s₁
      rw [bind_apply_ok (guard_some a _ s₁), hcopy] at hfill
      have haddr : dmaAddr env b (UInt32.ofNat t) 0 { s₁' with tick := n' } =
          (.ok (some a), { s₁' with tick := n' }) := by
        rw [dmaAddr_temp h.temp_lt, ← ha']
      rw [execFillBytes_of_ok h hfill ha,
        execDmaBytes_of_ok h.size_ne hdma (dmaAddr_pool pool _) haddr]
      exact sameOutcome_ok (copyBytes a pool.addr p.size.toNat) hst₁ hmem

end Encodings

/-! ### The places of the plan -/

theorem mem_bumpSpills {total : ℕ} {l : List AllocRequest} {e : DdrSpillEntry}
    (h : e ∈ (bumpSpills total l).1) : ∃ r ∈ l, e.size = r.size := by
  induction l generalizing total with
  | nil => simp [bumpSpills] at h
  | cons r l ih =>
    simp only [bumpSpills, List.mem_cons] at h
    rcases h with rfl | h
    · exact ⟨r, by simp, rfl⟩
    · obtain ⟨r', hr', heq⟩ := ih h
      exact ⟨r', by simp [hr'], heq⟩

theorem mem_finalizeSpills {l : List AllocRequest} {e : DdrSpillEntry}
    (h : e ∈ (finalizeSpills l).1) : ∃ r ∈ l, e.size = r.size := by
  obtain ⟨r, hr, heq⟩ := mem_bumpSpills h
  exact ⟨r, (List.mem_insertionSort _).mp hr, heq⟩

theorem spilled_size_aligned {g : OpMap} {planOrder ordering : List ℕ} {budget vtcmBudget : ℕ}
    {plan : DdrPlan}
    (h : computeDdrOffsets g planOrder ordering budget vtcmBudget = .planned plan)
    {e : DdrSpillEntry} (he : e ∈ plan.spilled) : e.size % 128 = 0 := by
  have hreq : ∀ r ∈ requests g (execOrder planOrder ordering), r.size % 128 = 0 := by
    intro r hr
    obtain ⟨p, od, -, -, hsize, -⟩ := mem_requests hr
    rw [hsize]
    exact outputBytes_aligned _
  have hddr : ∀ reqs cap vtcmCap resident, (∀ r ∈ reqs, r.size % 128 = 0) →
      planDdr reqs cap vtcmCap resident = .planned plan → e.size % 128 = 0 := by
    intro reqs cap vtcmCap resident hreqs hplan
    unfold planDdr at hplan
    split at hplan
    · cases hplan
    · obtain rfl := PlanOutcome.planned.inj hplan
      obtain ⟨r, hr, heq⟩ := mem_finalizeSpills he
      rw [heq]
      exact hreqs r (List.mem_filter.mp hr).1
  unfold computeDdrOffsets at h
  simp only at h
  split at h
  · cases h
  · unfold planRequests at h
    simp only at h
    split at h
    · split at h
      · cases h
      · exact hddr _ _ _ _ (fun r hr => hreq r (List.mem_filter.mp hr).1) h
    · exact hddr _ _ _ _ hreq h

def EmittedOp.place : EmittedOp → Option SpillPlace
  | .other _ _ => none
  | .fill _ p => some p
  | .spill _ p => some p

theorem place_of_emittedOf {call pos : ℕ} {c : EmitCall} {p : SpillPlace}
    (h : emittedOf cfg em call pos c = some op) (hp : EmittedOp.place op = some p) :
    ∃ id, Model.SpillRun.ddrSpillMap cfg id = some p := by
  cases c with
  | fill c =>
    simp only [emittedOf] at h
    split at h
    · rename_i q t hq ht
      obtain rfl := Option.some.inj h
      obtain rfl := Option.some.inj hp
      exact ⟨_, hq⟩
    · cases h
  | spill id =>
    simp only [emittedOf] at h
    split at h
    · rename_i q t hq ht
      obtain rfl := Option.some.inj h
      obtain rfl := Option.some.inj hp
      exact ⟨_, hq⟩
    · cases h
  | addOp od reads dst =>
    simp only [emittedOf] at h
    split at h
    · obtain rfl := Option.some.inj h
      cases hp
    · cases h
  | fresh | release | abort => cases h

theorem place_of_emittedFrom {calls : List (ℕ × EmitCall)} {call : ℕ}
    (h : emittedFrom cfg em call calls = some ops) (hop : op ∈ ops) {p : SpillPlace}
    (hp : EmittedOp.place op = some p) : ∃ id, Model.SpillRun.ddrSpillMap cfg id = some p := by
  induction calls generalizing em call ops with
  | nil =>
    obtain rfl := Option.some.inj h
    cases hop
  | cons c calls ih =>
    unfold emittedFrom at h
    obtain ⟨em', -, h⟩ := Option.bind_eq_some_iff.mp h
    obtain ⟨rest, hrest, rfl⟩ := Option.map_eq_some_iff.mp h
    rcases List.mem_append.mp hop with hop | hop
    · exact place_of_emittedOf (Option.mem_toList.mp hop) hp
    · exact ih hrest hop

theorem emittedOps_even {ordering : List ℕ} {budget vtcmBudget : ℕ}
    (hplan : computeDdrOffsets cfg.g cfg.planOrder ordering budget vtcmBudget = .planned cfg.plan)
    (h : emittedOps cfg = some ops) (hop : op ∈ ops) {p : SpillPlace}
    (hp : EmittedOp.place op = some p) : p.size % 2 = 0 := by
  obtain ⟨id, hid⟩ := place_of_emittedFrom h hop hp
  obtain ⟨e, he, heq⟩ := List.mem_map.mp (mem_of_store hid)
  obtain ⟨-, rfl⟩ := Prod.mk.inj heq
  have halign := spilled_size_aligned hplan he
  rw [← UInt32.toNat_inj, UInt32.toNat_mod, UInt32.toNat_ofNat']
  change e.size % 2 ^ 32 % 2 = 0
  omega

/-! ### Two runs -/

section Runs

variable {env : Env} {b : WtBlob} {slot : ℕ} (pool : PoolSlot env b slot)
  {kern : ℕ → DeviceOp → Dev Unit}

theorem execEmitted_sameOutcome (henv : Steady env)
    (hkern : ∀ call op, Agree SameBytes (kern call op) (kern call op))
    (heven : ∀ p, EmittedOp.place op = some p → p.size % 2 = 0) (hok : MoveOk pool d op)
    (hsame : SameBytes d d') :
    SameOutcome (execEmitted env b kern slot false op d)
      (execEmitted env b kern slot true op d') := by
  cases op with
  | other call op =>
    obtain ⟨hbytes, hval⟩ := hkern call op d d' hsame
    exact ⟨hbytes, hval ()⟩
  | fill t p => exact fill_sameOutcome henv ⟨hok, heven p rfl⟩ hsame
  | spill t p => exact spill_sameOutcome henv ⟨hok.1, heven p rfl⟩ hsame hok.2

theorem execAll_sameOutcome (henv : Steady env)
    (hkern : ∀ call op, Agree SameBytes (kern call op) (kern call op))
    (heven : ∀ op ∈ ops, ∀ p, EmittedOp.place op = some p → p.size % 2 = 0)
    (hmoves : ∀ i op d₁, ops[i]? = some op →
      execAll env b kern slot false (ops.take i) d = (.ok (), d₁) → MoveOk pool d₁ op)
    (hsame : SameBytes d d') :
    SameOutcome (execAll env b kern slot false ops d) (execAll env b kern slot true ops d') := by
  induction ops generalizing d d' with
  | nil => exact ⟨hsame, Iff.rfl⟩
  | cons op ops ih =>
    have hstep := execEmitted_sameOutcome pool henv hkern (heven op (by simp))
      (hmoves 0 op d rfl rfl) hsame
    unfold execAll
    rcases hrun : execEmitted env b kern slot false op d with ⟨r, d₁⟩
    rcases hrun' : execEmitted env b kern slot true op d' with ⟨r', d₁'⟩
    rw [hrun, hrun'] at hstep
    obtain ⟨hbytes, hval⟩ := hstep
    cases r with
    | error e =>
      cases r' with
      | ok x => exact absurd (hval.mpr rfl) (by simp)
      | error e' =>
        rw [bind_apply_error hrun, bind_apply_error hrun']
        exact ⟨hbytes, iff_of_false (by simp) (by simp)⟩
    | ok x =>
      obtain rfl : r' = .ok () := hval.mp rfl
      rw [bind_apply_ok hrun, bind_apply_ok hrun']
      apply ih (fun o ho => heven o (by simp [ho])) _ hbytes
      intro i o d₂ ho hrest
      apply hmoves (i + 1) o d₂ (by simpa using ho)
      rw [List.take_succ_cons]
      unfold execAll
      rw [bind_apply_ok hrun]
      exact hrest

end Runs

/-- For every graph with a plan and every device run: if at each move the place of the tensor
starts the pool and a spilled temp has as many bytes as its place, then the op list with the
run-list and the one without leave the same bytes in all temps and in the pool, at every point
of the run. SOURCE: wtop_emit.cpp:514-562, oplist_exec.c:849-980 -/
theorem runlist_same_bytes {cfg : EmitConfig} {ordering : List ℕ} {budget vtcmBudget : ℕ}
    (hplan : computeDdrOffsets cfg.g cfg.planOrder ordering budget vtcmBudget = .planned cfg.plan)
    {ops : List EmittedOp} (hops : emittedOps (withRunlist cfg false) = some ops)
    {env : Env} (henv : Steady env) {b : WtBlob} {slot : ℕ} (pool : PoolSlot env b slot)
    {kern : ℕ → DeviceOp → Dev Unit}
    (hkern : ∀ call op, Agree SameBytes (kern call op) (kern call op)) {d : Device}
    (hmoves : ∀ i op d₁, ops[i]? = some op →
      execAll env b kern slot false (ops.take i) d = (.ok (), d₁) → MoveOk pool d₁ op) :
    ∃ ops', emittedOps (withRunlist cfg true) = some ops' ∧ ∀ i,
      SameOutcome (execAll env b kern slot false (ops.take i) d)
        (execAll env b kern slot true (ops'.take i) d) := by
  rw [emittedOps_withRunlist] at hops
  refine ⟨ops, (emittedOps_withRunlist cfg true).trans hops, fun i => ?_⟩
  apply execAll_sameOutcome pool henv hkern _ _ ⟨rfl, rfl⟩
  · exact fun op hop p hp => emittedOps_even hplan hops (List.mem_of_mem_take hop) hp
  · intro j op d₁ hop hrun
    have hj : j < i := by
      have := (List.getElem?_eq_some_iff.mp hop).1
      rw [List.length_take] at this
      omega
    rw [List.getElem?_take_of_lt hj] at hop
    rw [List.take_take, Nat.min_eq_left hj.le] at hrun
    exact hmoves j op d₁ hop hrun

/-- An operator with a vector of `elems` two-byte elements. -/
def halfNode (id : ℕ) (name : String) (elems : ℕ) (srcs consumers : List ℕ) : OpDef :=
  ⟨id, 1, some name, OutputDef.vector elems 0 2 0, srcs.map fun c => ⟨c, 0⟩, consumers, [], []⟩

/-- Operators that are emitted in the order of their list, with a plan that spills. -/
def spillConfig (ops : List OpDef) (plan : DdrPlan) (outputNodeId : ℕ) : EmitConfig where
  g := OpMap.ofList ops
  planOrder := ops.map (·.opId)
  plan := plan
  outputNodeId := outputNodeId
  opRegistry := copyAndConcat
  mainInputId := 1
  inputSlots := []
  constDataSize := fun _ => 0
  dmaRunlist := false

/-- A chain of copies in a pool of 256 bytes: the operator 4 is spilled. -/
def chain : EmitConfig := spillConfig
  [halfNode 1 "Input" 64 [] [2], halfNode 2 "Reshape" 64 [1] [3],
    halfNode 3 "Reshape" 64 [2] [4], halfNode 4 "Reshape" 64 [3] [5],
    halfNode 5 "Reshape" 64 [4] [6], halfNode 6 "Output" 64 [5] []]
  ⟨[⟨2, 0, 128, false⟩, ⟨3, 128, 128, false⟩, ⟨5, 0, 128, false⟩], 256, 0, [⟨4, 0, 128⟩], 128⟩ 6

/-- Two copies that are joined, in a pool that is too small for one of them. -/
def join : EmitConfig := spillConfig
  [halfNode 1 "Input" 64 [] [2], halfNode 2 "Reshape" 64 [1] [3, 4],
    halfNode 3 "Reshape" 64 [2] [4], halfNode 4 "Concat" 128 [2, 3] [5],
    halfNode 5 "Output" 128 [4] []]
  ⟨[], 64, 0, [⟨2, 0, 128⟩, ⟨3, 128, 128⟩, ⟨4, 256, 256⟩], 512⟩ 5

/-- A kernel that writes the id of its operator to each byte of its output. -/
def idKern (_ : ℕ) (op : DeviceOp) : Dev Unit :=
  match op.dst with
  | none => pure ()
  | some (t, bytes) => do
    let p ← onState (tempGet grantingEnv (UInt32.ofNat t.1) (UInt32.ofNat bytes))
    match p with
    | none => reject "dst empty"
    | some dst => update fun d => { d with
        mem := fun a => if dst ≤ a ∧ a < dst + bytes then UInt8.ofNat (t.2 / 2 ^ 32) else d.mem a }

/-- A blob whose slot 1 is the spill pool. -/
def poolBlob : WtBlob := ⟨1, [⟨128, 0, 0, 0⟩, ⟨512, 0, 0x10000, 0⟩], [], 0, []⟩

def startOf (cfg : EmitConfig) : Device :=
  ⟨(loaded cfg ((emit cfg).getD Emitter.new)).2, fun _ => 0⟩

def endOf (cfg : EmitConfig) (runlist : Bool) : Checked String Unit × Device :=
  execAll grantingEnv poolBlob idKern 1 runlist
    ((emittedOps (withRunlist cfg runlist)).getD []) (startOf cfg)

theorem pool_found : poolBlob.slots[1]? = some ⟨512, 0, 0x10000, 0⟩ := rfl

theorem pool_small : 1 < 2 ^ 14 := by decide

theorem pool_resolved : slotAddr grantingEnv ⟨512, 0, 0x10000, 0⟩ = some 0x10000 := by decide +kernel

theorem grantingEnv_steady : Steady grantingEnv where
  memalign := fun _ => rfl
  wtcacheOpen := fun _ => rfl
  wtcacheLayout := fun _ => rfl
  kernelOk := fun _ => rfl

theorem agree_onState {m : Exec α} (h : Agree SameState m m) :
    Agree SameBytes (onState m) (onState m) := by
  rintro d d' ⟨hst, hmem⟩
  obtain ⟨hst', hval⟩ := h d.st d'.st hst
  exact ⟨⟨hst', hmem⟩, hval⟩

theorem agree_idKern (call : ℕ) (op : DeviceOp) :
    Agree SameBytes (idKern call op) (idKern call op) := by
  unfold idKern
  split
  · exact agree_pure _
  · apply agree_bind (agree_onState (agree_tempGet grantingEnv_steady _ _))
    intro p
    cases p with
    | none => exact agree_reject _ _
    | some dst =>
      apply agree_update
      rintro d d' ⟨hst, hmem⟩
      exact ⟨hst, by simp only [hmem]⟩

def chainOps : List EmittedOp :=
  [.other 2 ⟨1, [], some ((0, tkey 2 0), 128)⟩,
    .other 7 ⟨2, [(0, tkey 2 0)], some ((1, tkey 3 0), 128)⟩,
    .other 12 ⟨3, [(1, tkey 3 0)], some ((0, tkey 4 0), 128)⟩,
    .spill 0 ⟨0, 128⟩, .fill 0 ⟨0, 128⟩,
    .other 17 ⟨4, [(0, tkey 4 0)], some ((1, tkey 5 0), 128)⟩]

theorem chain_emitted : emittedOps (withRunlist chain false) = some chainOps := rfl

/-- The only spilled operator of the chain has the start of the pool, and the run-list leaves
the same bytes. -/
theorem chain_same_bytes : ∃ ops', emittedOps (withRunlist chain true) = some ops' ∧
    ∀ i, SameOutcome (execAll grantingEnv poolBlob idKern 1 false (chainOps.take i) (startOf chain))
      (execAll grantingEnv poolBlob idKern 1 true (ops'.take i) (startOf chain)) := by
  have hplan : computeDdrOffsets chain.g chain.planOrder [] 256 0 = .planned chain.plan := by
    decide +kernel
  have hstart : AtPoolStart ⟨_, _, pool_found, pool_small, pool_resolved⟩ 0 ⟨0, 128⟩ :=
    ⟨rfl, by decide, by decide, by decide⟩
  apply runlist_same_bytes hplan chain_emitted grantingEnv_steady
    ⟨_, _, pool_found, pool_small, pool_resolved⟩ agree_idKern
  intro i op d₁ hop hrun
  have hi : i < 6 := (List.getElem?_eq_some_iff.mp hop).1
  interval_cases i <;> obtain rfl := Option.some.inj hop
  -- the calls of kernels move nothing; the spill has the number 3 and the fill 4
  · trivial
  · trivial
  · trivial
  · have hbytes : d₁.st.tempBytes 0 = 128 := by
      rw [← congrArg (fun r => r.2.st.tempBytes 0) hrun]
      decide +kernel
    refine ⟨hstart, fun _ => ?_⟩
    rw [hbytes]
  · exact hstart
  · trivial

/-- Two spilled operators: the run-list puts the operators 2 and 3 at the start of the pool, and
the operator 4 reads the bytes of the operator 3 for both. -/
theorem join_bytes_differ :
    computeDdrOffsets join.g join.planOrder [] 64 0 = .planned join.plan ∧
      (endOf join false).1 = .ok () ∧ (endOf join true).1 = .ok () ∧
      (endOf join false).2.st.temps 0 = some 4160 ∧ (endOf join true).2.st.temps 0 = some 4160 ∧
      (endOf join false).2.mem 4160 = 2 ∧ (endOf join true).2.mem 4160 = 3 ∧
      (endOf join false).2.mem 0x10000 = 2 ∧ (endOf join true).2.mem 0x10000 = 4 := by
  refine ⟨?_, ?_, ?_, ?_, ?_, ?_, ?_, ?_, ?_⟩ <;> decide +kernel

end Gehtp.Analysis.DmaRunlist
