import Gehtp.Model.OplistHandlers
import Gehtp.Model.RefEmit

/-!
# What a reference means on both sides

The emitter hands out temp ids below 32768 and the device knows 4096 temps; ids above run into
the flags of VTCM residents and states. Four ops take an argument in another way than it was
written, and a concatenation drops its sources from the fifth on. All other references are decoded
to what they were written for. That the table of roles is that of the device is a theorem too: the
handlers read their arguments through it only.
-/

set_option autoImplicit false

namespace Gehtp.Analysis.RefsAgree

open Lib Lib.Machine Lib.Lease Model.OplistParse Model.OplistExec Model.OplistHandlers Model.RefEmit

/-! ### Words -/

variable {w sub : UInt32} {n s n' : ℕ} {r : Role} {rs : List Role} {fs : List ArgForm}
  {op : WrittenOp} {em em' : Emitter}

theorem toNat_and_high {m : UInt32} {k : ℕ} (hm : m.toNat = 2 ^ n - 2 ^ k) (hw : w.toNat < 2 ^ n)
    (hk : k ≤ n) : (w &&& m).toNat = w.toNat / 2 ^ k * 2 ^ k := by
  rw [UInt32.toNat_and, hm]
  exact and_high_bits hw hk

theorem and_8000 (hw : w.toNat < 2 ^ 16) : (w &&& 0x8000).toNat = w.toNat / 2 ^ 15 * 2 ^ 15 :=
  toNat_and_high (by decide : (0x8000 : UInt32).toNat = 2 ^ 16 - 2 ^ 15) hw (by omega)

theorem and_C000 (hw : w.toNat < 2 ^ 16) : (w &&& 0xC000).toNat = w.toNat / 2 ^ 14 * 2 ^ 14 :=
  toNat_and_high (by decide : (0xC000 : UInt32).toNat = 2 ^ 16 - 2 ^ 14) hw (by omega)

theorem and_E000 (hw : w.toNat < 2 ^ 16) : (w &&& 0xE000).toNat = w.toNat / 2 ^ 13 * 2 ^ 13 :=
  toNat_and_high (by decide : (0xE000 : UInt32).toNat = 2 ^ 16 - 2 ^ 13) hw (by omega)

theorem and_4000 (hw : w.toNat < 2 ^ 15) : (w &&& 0x4000).toNat = w.toNat / 2 ^ 14 * 2 ^ 14 :=
  toNat_and_high (by decide : (0x4000 : UInt32).toNat = 2 ^ 15 - 2 ^ 14) hw (by omega)

theorem and_7FFF (w : UInt32) : (w &&& 0x7FFF).toNat = w.toNat % 2 ^ 15 := by
  rw [UInt32.toNat_and]
  exact Nat.and_two_pow_sub_one_eq_mod w.toNat 15

theorem eq_zero_iff (w : UInt32) : w = 0 ↔ w.toNat = 0 := UInt32.toNat_inj.symm

theorem low_flags (hw : w.toNat < maxTemps) :
    w &&& 0x8000 = 0 ∧ w &&& 0x4000 = 0 ∧ w &&& 0xE000 ≠ 0x6000 ∧ w &&& 0xC000 ≠ 0xC000 := by
  have hmax : maxTemps = 4096 := rfl
  have h8 := and_8000 (show w.toNat < 2 ^ 16 by omega)
  have hC := and_C000 (show w.toNat < 2 ^ 16 by omega)
  have hE := and_E000 (show w.toNat < 2 ^ 16 by omega)
  have h4 := and_4000 (show w.toNat < 2 ^ 15 by omega)
  refine ⟨?_, ?_, fun h => ?_, fun h => ?_⟩
  · rw [eq_zero_iff]
    omega
  · rw [eq_zero_iff]
    omega
  · rw [h] at hE
    change 24576 = _ at hE
    omega
  · rw [h] at hC
    change 49152 = _ at hC
    omega

theorem slot_flags (hs : s < maxTemps) (hw : w.toNat = 2 ^ 15 + s) :
    w &&& 0x8000 ≠ 0 ∧ (w &&& 0x7FFF).toNat = s ∧ w &&& 0xC000 ≠ 0xC000 := by
  have hmax : maxTemps = 4096 := rfl
  have h8 := and_8000 (show w.toNat < 2 ^ 16 by omega)
  have hC := and_C000 (show w.toNat < 2 ^ 16 by omega)
  refine ⟨fun h => ?_, ?_, fun h => ?_⟩
  · rw [eq_zero_iff] at h
    omega
  · rw [and_7FFF]
    omega
  · rw [h] at hC
    change 49152 = _ at hC
    omega

theorem refTarget_low (hw : w.toNat < maxTemps) : refTarget w = .temp w.toNat := by
  obtain ⟨h8, h4, hE, -⟩ := low_flags hw
  unfold refTarget
  rw [if_neg (not_not.mpr h8), if_neg hE, if_neg (not_not.mpr h4), if_pos hw]

theorem dmaTarget_low (hw : w.toNat < maxTemps) : dmaTarget w = .temp w.toNat := by
  obtain ⟨h8, h4, -, hC⟩ := low_flags hw
  unfold dmaTarget dstTarget
  rw [if_neg hC, if_neg (not_not.mpr h8), if_neg (not_not.mpr h4), if_pos hw]

theorem refTarget_slot (hs : s < maxTemps) (hw : w.toNat = 2 ^ 15 + s) : refTarget w = .slot s := by
  obtain ⟨h8, h7, -⟩ := slot_flags hs hw
  unfold refTarget
  rw [if_pos h8, h7]

theorem dmaTarget_slot (hs : s < maxTemps) (hw : w.toNat = 2 ^ 15 + s) : dmaTarget w = .slot s := by
  obtain ⟨h8, h7, hC⟩ := slot_flags hs hw
  unfold dmaTarget
  rw [if_neg hC, if_pos h8, h7]

theorem toNat_small (h : n < maxTemps) : (UInt32.ofNat n).toNat = n := by
  have hmax : maxTemps = 4096 := rfl
  apply UInt32.toNat_ofNat_of_lt'
  change n < 2 ^ 32
  omega

theorem toNat_flagged (h : s < maxTemps) : (0x8000 ||| UInt32.ofNat s).toNat = 2 ^ 15 + s := by
  have hmax : maxTemps = 4096 := rfl
  rw [UInt32.toNat_or, toNat_small h, Nat.or_comm]
  have hor := lor_shiftLeft s 1 15 (by omega)
  rw [Nat.one_mul] at hor
  rw [Nat.add_comm, ← hor]
  rfl

/-! ### The targets are those of the executor -/

section Executor

variable {op op' : WtOp}

/-- The address behind a target, as `ref_ptr` finds it. -/
def targetPtr (env : Env) (b : WtBlob) : Target → Exec (Option ℕ)
  | .temp t => tempEntry (·.temps) t
  | .vtcm t => do
    let off ← tempEntry (·.vtcmOffArr) t
    read fun st => if off ≠ noOffset then st.vtcmPool.map (· + off.toNat) else none
  | .slot s => slotPtr env b s
  | .state i => read fun st => if i < st.nStates then st.stBuf i else none
  | _ => pure none

/-- `ref_ptr` is the decoder followed by the lookup. -/
theorem refPtr_eq_targetPtr (env : Env) (b : WtBlob) (w : UInt32) :
    refPtr env b w = targetPtr env b (refTarget w) := by
  unfold refPtr refTarget
  split_ifs <;> simp_all [targetPtr]

/-- The temp that `temp_get` makes room in. -/
def targetGet (env : Env) (bytes : UInt32) : Target → Exec (Option ℕ)
  | .temp t => tempGet env (UInt32.ofNat t) bytes
  | _ => pure none

/-- `temp_get` is the test of the id followed by the allocation. -/
theorem tempGet_eq_targetGet (env : Env) (w bytes : UInt32) :
    tempGet env w bytes = targetGet env bytes (dstTarget w) := by
  unfold dstTarget
  split
  · simp [targetGet]
  · rename_i h
    simp only [targetGet, tempGet, if_pos (not_lt.mp h)]

/-- The elements behind a target. -/
def targetElems (b : WtBlob) : Target → Exec UInt32
  | .slot s => if s < b.slots.length then do
      let slot ← slotAt b s
      pure slot.count
    else pure 0
  | .temp t => do
    let n ← tempEntry (·.lastBytes) t
    pure (n / 2)
  | _ => pure 0

theorem and_4000_of_state (h : w &&& 0xE000 = 0x6000) : w &&& 0x4000 ≠ 0 := by
  have hmask : w &&& 0x4000 = w &&& 0xE000 &&& 0x4000 := by
    rw [UInt32.and_assoc]
    rfl
  rw [hmask, h]
  decide

/-- `ref_elem_count` depends on the target only. -/
theorem refElemCount_eq_targetElems (b : WtBlob) (w : UInt32) :
    refElemCount b w = targetElems b (refTarget w) := by
  unfold refElemCount refTarget
  by_cases h8 : w &&& 0x8000 ≠ 0
  · simp only [if_pos h8, targetElems]
  · by_cases hE : w &&& 0xE000 = 0x6000
    · simp only [if_neg h8, if_pos hE, if_pos (and_4000_of_state hE), targetElems]
    · simp only [if_neg h8, if_neg hE]
      split_ifs <;> rfl

/-- The bytes of a split input, over 2. -/
def targetHalves : Target → Exec UInt32
  | .temp t => do
    let n ← tempEntry (·.tempBytes) t
    pure (n / 2)
  | _ => pure 0

/-- Only an id below the limit is decoded to a temp. -/
theorem refTarget_eq_temp {t : ℕ} (h : refTarget w = .temp t) :
    w &&& 0x8000 = 0 ∧ w.toNat < maxTemps ∧ t = w.toNat := by
  unfold refTarget at h
  split_ifs at h with h8 hE h4 h4 hlt
  exact ⟨not_not.mp h8, hlt, (Target.temp.inj h).symm⟩

/-- The length of a split input depends on the target only. -/
theorem splitElems_eq_targetHalves (op : WtOp) :
    splitElems op = targetHalves (refTarget (arg op 0)) := by
  unfold splitElems
  split
  · rename_i h
    rw [refTarget_low h.2]
    rfl
  · rename_i h
    cases ht : refTarget (arg op 0) with
    | temp t => exact absurd ⟨(refTarget_eq_temp ht).1, (refTarget_eq_temp ht).2.1⟩ h
    | _ => rfl

/-- An end of a DMA transfer. -/
def targetDma (env : Env) (b : WtBlob) (off bytes : UInt32) (isDst : Bool) :
    Target → Exec (Option Bool)
  | .surface i => read fun st =>
      if st.matmulCarved = true ∧ (engCap st (UInt32.ofNat i)).any
        (fun cap => decide (off.toNat + bytes.toNat ≤ cap.toNat)) = true then some true
      else none
  | .slot s => dmaSlot env b s off bytes
  | .vtcm t => dmaVtcm env t off bytes
  | .temp t => dmaTemp env (UInt32.ofNat t) off bytes isDst
  | _ => pure none

/-- `dma_ref_resolve` is the decoder followed by the bounds check. -/
theorem dmaRefResolve_eq_targetDma (env : Env) (b : WtBlob) (w off bytes : UInt32) (isDst : Bool) :
    dmaRefResolve env b w off bytes isDst = targetDma env b off bytes isDst (dmaTarget w) := by
  unfold dmaRefResolve dmaTarget
  split_ifs with hC h8 h4 hlt
  · simp [targetDma]
  · rfl
  · rfl
  · simp only [targetDma, dmaVtcm, if_neg hlt]
  · unfold dstTarget
    split
    · simp [targetDma]
    · rename_i hlt
      simp only [targetDma, dmaTemp, if_pos (not_lt.mp hlt)]

/-- Both words mean the same to a handler that takes them in this role. -/
def Alike (w w' : UInt32) : Role → Prop
  | .number => w = w'
  | r => r.targets w = r.targets w'

/-- Two ops whose arguments mean the same to the handler. -/
structure ReadAlike (op op' : WtOp) : Prop where
  opcode : op'.opcode = op.opcode
  args : ∀ i, Alike (arg op i) (arg op' i) (((deviceRoles (arg op 4) op.opcode)[i]?).getD .number)

theorem ReadAlike.number (h : ReadAlike op op') {i : ℕ}
    (hi : ((deviceRoles (arg op 4) op.opcode)[i]?).getD .number = .number) :
    arg op i = arg op' i := by
  have := h.args i
  rwa [hi] at this

theorem ReadAlike.of_role (h : ReadAlike op op') {i : ℕ} {r : Role}
    (hi : (deviceRoles (arg op 4) op.opcode)[i]? = some r) (hr : r ≠ .number) :
    r.targets (arg op i) = r.targets (arg op' i) := by
  have := h.args i
  rw [hi] at this
  cases r with
  | number => exact absurd rfl hr
  | _ => exact this

theorem ReadAlike.ref (h : ReadAlike op op') {i : ℕ}
    (hi : (deviceRoles (arg op 4) op.opcode)[i]? = some .ref) :
    refTarget (arg op i) = refTarget (arg op' i) :=
  List.singleton_inj.mp (h.of_role hi (by decide))

theorem ReadAlike.dst (h : ReadAlike op op') {i : ℕ}
    (hi : (deviceRoles (arg op 4) op.opcode)[i]? = some .dst) :
    dstTarget (arg op i) = dstTarget (arg op' i) :=
  List.singleton_inj.mp (h.of_role hi (by decide))

theorem ReadAlike.refPtr_eq (h : ReadAlike op op') (env : Env) (b : WtBlob) (i : ℕ)
    (hi : (deviceRoles (arg op 4) op.opcode)[i]? = some .ref) :
    refPtr env b (arg op i) = refPtr env b (arg op' i) := by
  rw [refPtr_eq_targetPtr, refPtr_eq_targetPtr, h.ref hi]

theorem ReadAlike.refElemCount_eq (h : ReadAlike op op') (b : WtBlob) (i : ℕ)
    (hi : (deviceRoles (arg op 4) op.opcode)[i]? = some .ref) :
    refElemCount b (arg op i) = refElemCount b (arg op' i) := by
  rw [refElemCount_eq_targetElems, refElemCount_eq_targetElems, h.ref hi]

theorem ReadAlike.tempGet_eq (h : ReadAlike op op') (env : Env) (i : ℕ)
    (hi : (deviceRoles (arg op 4) op.opcode)[i]? = some .dst) :
    tempGet env (arg op i) = tempGet env (arg op' i) := by
  funext bytes
  rw [tempGet_eq_targetGet, tempGet_eq_targetGet, h.dst hi]

theorem ReadAlike.slot_eq (h : ReadAlike op op') (i : ℕ)
    (hi : (deviceRoles (arg op 4) op.opcode)[i]? = some .slot) :
    (arg op i).toNat = (arg op' i).toNat :=
  Target.slot.inj (List.singleton_inj.mp (h.of_role hi (by decide)))

theorem ReadAlike.slotLow_eq (h : ReadAlike op op') (i : ℕ)
    (hi : (deviceRoles (arg op 4) op.opcode)[i]? = some .slotLow) :
    (arg op i &&& 0x7FFF).toNat = (arg op' i &&& 0x7FFF).toNat :=
  Target.slot.inj (List.singleton_inj.mp (h.of_role hi (by decide)))

theorem ReadAlike.dmaRefResolve_eq (h : ReadAlike op op') (env : Env) (b : WtBlob) (i : ℕ)
    (hi : (deviceRoles (arg op 4) op.opcode)[i]? = some .dma) :
    dmaRefResolve env b (arg op i) = dmaRefResolve env b (arg op' i) := by
  have heq : dmaTarget (arg op i) = dmaTarget (arg op' i) :=
    List.singleton_inj.mp (h.of_role hi (by decide))
  funext off bytes isDst
  rw [dmaRefResolve_eq_targetDma, dmaRefResolve_eq_targetDma, heq]

/-- The arguments behind the references are numbers. -/
theorem ReadAlike.behind (h : ReadAlike op op') {i : ℕ}
    (hi : (deviceRoles (arg op 4) op.opcode).length ≤ i) : arg op i = arg op' i := by
  apply h.number
  rw [List.getElem?_eq_none hi]
  rfl

theorem segSizes_congr {first : ℕ} (h : ∀ i, first ≤ i → arg op i = arg op' i) (n : ℕ) :
    segSizes op first n = segSizes op' first n :=
  List.map_congr_left fun i _ => h (first + i) (Nat.le_add_right _ _)

theorem reduceInner_congr (h : ∀ i, 2 ≤ i → arg op i = arg op' i) :
    reduceInner op = reduceInner op' := by
  unfold reduceInner
  have hstep : (fun p a => p * arg op (5 + a)) = fun p a => p * arg op' (5 + a) := by
    funext p a
    rw [h (5 + a) (by omega)]
  rw [h 3 (by omega), hstep]

theorem reduceLen_congr (h : ∀ i, 2 ≤ i → arg op i = arg op' i) :
    reduceLen op = reduceLen op' := by
  unfold reduceLen
  rw [h 3 (by omega), h (5 + (arg op' 3).toNat) (by omega)]

/-- A gathered face is left out exactly for the word 0. -/
theorem gatherFace_congr (env : Env) {w w' : UInt32}
    (h : Role.dstUnlessZero.targets w = Role.dstUnlessZero.targets w') :
    gatherFace env w = gatherFace env w' := by
  have heq := List.singleton_inj.mp h
  funext bytes
  unfold gatherFace
  rw [tempGet_eq_targetGet, tempGet_eq_targetGet]
  by_cases hw : w = 0 <;> by_cases hw' : w' = 0
  · rw [if_pos hw, if_pos hw']
  · exfalso
    simp only [hw, hw', ne_eq, not_true_eq_false, if_false, not_false_eq_true, if_true] at heq
    unfold dstTarget at heq
    split at heq <;> cases heq
  · exfalso
    simp only [hw, hw', ne_eq, not_true_eq_false, if_false, not_false_eq_true, if_true] at heq
    unfold dstTarget at heq
    split at heq <;> cases heq
  · rw [if_neg hw, if_neg hw']
    rw [if_pos hw, if_pos hw'] at heq
    rw [heq]

/-- The destination of a fill depends on its target and the size. -/
theorem fillDst_congr (h : ReadAlike op op') (env : Env) (b : WtBlob) (hop : op.opcode = .fill) :
    fillDst env b op = fillDst env b op' := by
  have heq : (if arg op 2 &&& 0x8000 ≠ 0 then Target.slot (arg op 2 &&& 0x7FFF).toNat
      else dstTarget (arg op 2)) = if arg op' 2 &&& 0x8000 ≠ 0 then
        .slot (arg op' 2 &&& 0x7FFF).toNat else dstTarget (arg op' 2) :=
    List.singleton_inj.mp (h.of_role (i := 2) (r := .fillDst) (by rw [hop]; rfl) (by decide))
  have hnum : arg op 3 = arg op' 3 := h.behind (by rw [hop]; exact le_refl 3)
  unfold fillDst
  rw [hnum, tempGet_eq_targetGet, tempGet_eq_targetGet]
  split_ifs at heq ⊢ with h1 h2
  · rw [Target.slot.inj heq]
  · unfold dstTarget at heq
    split at heq <;> cases heq
  · unfold dstTarget at heq
    split at heq <;> cases heq
  · rw [heq]

/-- Of the sources of a concatenation only the first four are read. -/
theorem execConcat_congr (h : ReadAlike op op') (env : Env) (b : WtBlob)
    (hop : op.opcode = .concatF16) : execConcat env b op = execConcat env b op' := by
  have n : ∀ i, 9 ≤ i → arg op i = arg op' i := fun i hi => h.behind (by rw [hop]; exact hi)
  have hloop : ∀ l : List ℕ, (∀ k ∈ l, k < 4) →
      collect (fun k => do
        let x ← refPtr env b (arg op k)
        (Machine.guard (x.isSome = true) "concat in fail" : Exec Unit)) l =
      collect (fun k => do
        let x ← refPtr env b (arg op' k)
        Machine.guard (x.isSome = true) "concat in fail") l := by
    intro l
    induction l with
    | nil => intro _; rfl
    | cons k l ih =>
      intro hl
      have hk : k < 4 := hl k List.mem_cons_self
      have hrole : (deviceRoles (arg op 4) op.opcode)[k]? = some .ref := by
        rw [hop]
        rcases (show k = 0 ∨ k = 1 ∨ k = 2 ∨ k = 3 by omega) with rfl | rfl | rfl | rfl <;> rfl
      unfold collect
      rw [h.refPtr_eq env b k hrole, ih fun x hx => hl x (List.mem_cons_of_mem k hx)]
  unfold execConcat
  rw [segSizes_congr (fun i hi => n i (by omega)), n 10 (by omega), n 11 (by omega),
    h.tempGet_eq env 8 (by rw [hop]; rfl), hloop _ fun k hk => ?_]
  have := List.mem_range.mp hk
  omega

/-- A split reads its source, its output and the numbers behind them. -/
theorem execSplit_congr (h : ReadAlike op op') (env : Env) (b : WtBlob)
    (hop : op.opcode = .splitF16) : execSplit env b op = execSplit env b op' := by
  have n : ∀ i, 2 ≤ i → arg op i = arg op' i := fun i hi => h.behind (by rw [hop]; exact hi)
  have hroles : deviceRoles (arg op 4) op.opcode = [.ref, .dst] := by rw [hop]; rfl
  have hwrite : splitWrite env op = splitWrite env op' := by
    funext outer
    unfold splitWrite
    rw [n 10 (by omega), n 15 (by omega), n (11 + (arg op' 15).toNat) (by omega),
      h.tempGet_eq env 1 (by rw [hroles]; rfl)]
  unfold execSplit
  rw [h.refPtr_eq env b 0 (by rw [hroles]; rfl), n 10 (by omega),
    segSizes_congr (fun i hi => n i (by omega)), splitElems_eq_targetHalves,
    splitElems_eq_targetHalves, h.ref (i := 0) (by rw [hroles]; rfl), hwrite]

/-- The handlers take their arguments as the table of roles says: two ops whose words mean the same
in their roles are run in the same way. (The W4A16 product looks at the raw word of its first
argument in two ways and is left out.) SOURCE: oplist_exec.c:2462-2498 -/
theorem execOp_congr (h : ReadAlike op op') (env : Env) (b : WtBlob) (m : UInt32)
    (hne : op.opcode ≠ .matmulW4A16) : execOp env b op m = execOp env b op' m := by
  have r := h.refPtr_eq env b
  have c := h.refElemCount_eq b
  have d := h.tempGet_eq env
  have s := h.slot_eq
  have low := h.slotLow_eq
  have a := h.dmaRefResolve_eq env b
  have z : ∀ i, (deviceRoles (arg op 4) op.opcode)[i]? = some .dstUnlessZero →
      gatherFace env (arg op i) = gatherFace env (arg op' i) :=
    fun i hi => gatherFace_congr env (h.of_role hi (by decide))
  have n : ∀ i, (deviceRoles (arg op 4) op.opcode)[i]?.getD .number = .number →
      arg op i = arg op' i := fun i => h.number
  have k : ∀ i, (deviceRoles (arg op 4) op.opcode).length ≤ i → arg op i = arg op' i :=
    fun i => h.behind
  unfold execOp
  rw [h.opcode]
  cases hop : op.opcode with
  | nop => rfl
  | matmulW4A16 => exact absurd hop hne
  | concatF16 => exact execConcat_congr h env b hop
  | splitF16 => exact execSplit_congr h env b hop
  | binaryF16 =>
    have h4 : arg op 4 = arg op' 4 := by
      apply h.number
      rw [hop]
      by_cases hsub : arg op 4 = 8 <;> simp [deviceRoles, hsub]
    dsimp only
    unfold execBinary
    by_cases hsub : arg op 4 = 8
    · rw [hop] at r c d n
      simp only [deviceRoles, if_pos hsub] at r c d n
      rw [if_pos hsub, if_pos (h4 ▸ hsub)]
      unfold execSelect
      rw [r 0 rfl, r 1 rfl, r 2 rfl, c 0 rfl, c 1 rfl, c 2 rfl, d 3 rfl]
    · rw [hop] at r d n
      simp only [deviceRoles, if_neg hsub] at r d n
      unfold refsThenTemp
      rw [if_neg hsub, if_neg (h4 ▸ hsub), r 0 rfl, r 1 rfl, d 2 rfl, n 3 rfl]
  | fill =>
    have hdst := fillDst_congr h env b hop
    rw [hop] at s n
    dsimp only
    unfold execFill poolRange
    rw [hdst, s 0 rfl, n 1 rfl, n 3 rfl]
  | pin =>
    rw [hop] at n
    dsimp only
    unfold xopPin
    rw [n 0 rfl]
  | rmsnormF16 =>
    rw [hop] at n
    dsimp only
    unfold execRmsnorm
    rw [n 0 rfl, n 1 rfl, n 2 rfl, n 3 rfl]
  | siluF16 =>
    rw [hop] at n
    dsimp only
    unfold execSilu
    rw [n 0 rfl, n 1 rfl, n 2 rfl]
  | transposeF16 =>
    rw [hop] at n
    dsimp only
    unfold execTranspose refsBeforeTemp
    rw [n 0 rfl, n 1 rfl, n 2 rfl, n 3 rfl, n 4 rfl]
  | argmaxF16 =>
    rw [hop] at n
    dsimp only
    unfold execArgmax refsThenTemp
    rw [n 0 rfl, n 1 rfl]
  | im2col =>
    rw [hop] at r d n
    dsimp only
    unfold execIm2col refsBeforeTemp
    rw [r 0 rfl, d 1 rfl, n 4 rfl, n 5 rfl, n 6 rfl, n 13 rfl, n 14 rfl]
  | conv2dF16 =>
    rw [hop] at r s d n
    dsimp only
    unfold execConv2d
    rw [r 0 rfl, s 1 rfl, s 2 rfl, d 3 rfl, n 5 rfl, n 6 rfl, n 9 rfl, n 10 rfl]
  | addF16 =>
    rw [hop] at r d n
    dsimp only
    unfold execAdd refsBeforeTemp
    rw [r 0 rfl, r 1 rfl, d 2 rfl, n 3 rfl]
  | spill =>
    rw [hop] at r s n
    dsimp only
    unfold execSpill poolRange
    rw [r 0 rfl, s 1 rfl, n 2 rfl, n 3 rfl]
  | dma =>
    rw [hop] at a n
    dsimp only
    unfold execDma
    rw [a 0 rfl, a 1 rfl, n 2 rfl, n 3 rfl, n 4 rfl, n 6 rfl, n 7 rfl]
  | padF16 =>
    rw [hop] at r d n
    dsimp only
    unfold execPad refsThenTemp
    rw [r 0 rfl, d 1 rfl, n 2 rfl, n 3 rfl, n 4 rfl, n 5 rfl]
  | unaryF16 =>
    rw [hop] at r d n
    dsimp only
    unfold execUnary refsThenTemp
    rw [r 0 rfl, d 1 rfl, n 2 rfl, n 3 rfl]
  | softmaxF16 =>
    rw [hop] at r d n
    dsimp only
    unfold execSoftmax refsThenTemp
    rw [r 0 rfl, d 1 rfl, n 2 rfl, n 3 rfl]
  | stridedSliceF16 =>
    rw [hop] at r d n
    dsimp only
    unfold execSlice refsThenTemp
    rw [r 0 rfl, d 1 rfl, n 2 rfl, n 3 rfl]
  | reduceF16 =>
    rw [hop] at r d n k
    dsimp only
    unfold execReduce
    rw [r 0 rfl, d 1 rfl, reduceInner_congr k, reduceLen_congr k, n 2 rfl, n 3 rfl, n 4 rfl]
  | cumsumF32 =>
    rw [hop] at r d n
    dsimp only
    unfold execCumsum refsThenTemp
    rw [r 0 rfl, d 1 rfl, n 2 rfl, n 3 rfl]
  | conv1dSsmF16 =>
    rw [hop] at r s d n
    dsimp only
    unfold execConv1dSsm refsThenTemp
    rw [r 0 rfl, s 1 rfl, d 2 rfl, n 3 rfl, n 4 rfl]
  | gatherF16 =>
    rw [hop] at r d n
    dsimp only
    unfold execGather refsThenTemp
    rw [r 0 rfl, r 1 rfl, d 2 rfl, n 3 rfl, n 4 rfl]
  | scatterNdF16 =>
    rw [hop] at r d n
    dsimp only
    unfold execScatterNd refsThenTemp
    rw [r 0 rfl, r 1 rfl, r 2 rfl, d 3 rfl, n 4 rfl, n 5 rfl, n 11 rfl]
  | kvAppendF16 =>
    rw [hop] at r c n
    dsimp only
    unfold execKvAppend appendPos
    rw [r 0 rfl, r 1 rfl, c 0 rfl, c 1 rfl, n 2 rfl, n 3 rfl]
  | kvGatherF16 =>
    rw [hop] at z n
    dsimp only
    unfold execKvGather gatherStride
    rw [n 0 rfl, z 1 rfl, z 2 rfl, n 3 rfl, n 4 rfl, n 5 rfl, n 6 rfl]
  | matmulF16 =>
    rw [hop] at r d n
    dsimp only
    unfold execMatmulF16 refsThenTemp
    rw [r 0 rfl, r 1 rfl, d 2 rfl, n 3 rfl, n 5 rfl, n 6 rfl]
  | matmulF16Split =>
    rw [hop] at r d n
    dsimp only
    unfold execMatmulF16Split refsThenTemp
    rw [r 0 rfl, r 1 rfl, d 2 rfl, n 3 rfl, n 5 rfl, n 8 rfl]
  | rmsnorm2F16 =>
    rw [hop] at r low d n
    dsimp only
    unfold execRmsnorm2
    rw [r 0 rfl, low 1 rfl, low 2 rfl, d 3 rfl, n 4 rfl]
  | broadcastF16 =>
    rw [hop] at r d n
    dsimp only
    unfold execBroadcast
    rw [r 0 rfl, d 1 rfl, n 2 rfl, n 3 rfl]
  | transposeGenF16 =>
    rw [hop] at r d n k
    dsimp only
    unfold execTransposeGen
    have hstep : (fun p i => p * arg op (3 + i)) = fun p i => p * arg op' (3 + i) := by
      funext p i
      rw [k (3 + i) (show 2 ≤ 3 + i by omega)]
    rw [r 0 rfl, d 1 rfl, n 2 rfl, hstep]
  | conv1dSsmStepF16 =>
    have hw : [refTarget (arg op 1), .slot (arg op 1 &&& 0x7FFF).toNat] =
        [refTarget (arg op' 1), .slot (arg op' 1 &&& 0x7FFF).toNat] :=
      h.of_role (i := 1) (r := .refAndSlot) (by rw [hop]; rfl) (by decide)
    obtain ⟨href, hslot⟩ := List.cons.inj hw
    have hlow := Target.slot.inj (List.singleton_inj.mp hslot)
    rw [hop] at r d n
    dsimp only
    unfold execConv1dSsmStep
    rw [r 0 rfl, refPtr_eq_targetPtr env b (arg op 1), refPtr_eq_targetPtr env b (arg op' 1), href,
      hlow, d 2 rfl, n 3 rfl, n 4 rfl, n 5 rfl]
  | deltaChunkF16 =>
    rw [hop] at r d n
    dsimp only
    unfold execDeltaChunk refsThenTemp
    rw [r 0 rfl, r 1 rfl, r 2 rfl, r 3 rfl, r 4 rfl, d 5 rfl, n 6 rfl, n 7 rfl, n 8 rfl, n 9 rfl,
      n 10 rfl]

end Executor

/-! ### What is written and how it is taken -/

/-- The word of argument `i`, as the device reads it. -/
def argWord (op : WrittenOp) (i : ℕ) : UInt32 := (op.args[i]?.map WrittenArg.word).getD 0

/-- Every temp and slot of the op is decoded to itself. -/
def RefsMean (op : WrittenOp) : Prop :=
  ∀ (i : ℕ) (a : WrittenArg) (r : Role) (m : Target), op.args[i]? = some a →
    (deviceRoles (argWord op 4) op.opcode)[i]? = some r → a.target = some m →
      ∀ t ∈ r.targets a.word, t = m

/-- The role decodes this form to what was written. -/
def reads : Role → ArgForm → Bool
  | .number, _ | _, .number _ => true
  | .ref, .temp | .ref, .slotRef | .dst, .temp | .dstUnlessZero, .temp => true
  | .slot, .slotId | .slotLow, .slotId | .refAndSlot, .slotRef => true
  | .dma, .temp | .dma, .slotRef | .fillDst, .temp => true
  | _, _ => false

/-- The same for all forms of a kind. -/
def readsKind (r : Role) : ArgKind → Bool
  | .ref | .refOrZero => reads r .temp && reads r .slotRef
  | .temp => reads r .temp
  | .slotRef => reads r .slotRef
  | .slotId => reads r .slotId
  | .number | .numberIs _ | .numberIsNot _ => true

/-- The same for all arguments. -/
def readsAll : List Role → List ArgForm → Bool
  | r :: rs, f :: fs => reads r f && readsAll rs fs
  | _, _ => true

def readsShape : List Role → List ArgKind → Bool
  | r :: rs, k :: ks => readsKind r k && readsShape rs ks
  | _, _ => true

theorem reads_number (r : Role) (w : UInt32) : reads r (.number w) = true := by
  cases r <;> rfl

theorem reads_of_kind {k : ArgKind} {f : ArgForm} (h : readsKind r k = true)
    (hf : k.allows f = true) : reads r f = true := by
  cases f with
  | number w => exact reads_number r w
  | temp => cases k <;> simp_all [ArgKind.allows, readsKind]
  | slotRef => cases k <;> simp_all [ArgKind.allows, readsKind]
  | slotId => cases k <;> simp_all [ArgKind.allows, readsKind]

theorem readsAll_numbers (h : fs.all (fun f => ArgKind.number.allows f) = true) :
    readsAll rs fs = true := by
  induction fs generalizing rs with
  | nil => cases rs <;> rfl
  | cons f fs ih =>
    cases rs with
    | nil => rfl
    | cons r rs =>
      rw [List.all_cons, Bool.and_eq_true] at h
      unfold readsAll
      rw [Bool.and_eq_true]
      refine ⟨reads_of_kind (k := .number) rfl h.1, ih h.2⟩

theorem readsAll_of_shape {ks : List ArgKind} (h : readsShape rs ks = true)
    (hf : fitsShape ks fs = true) : readsAll rs fs = true := by
  induction ks generalizing rs fs with
  | nil => exact readsAll_numbers hf
  | cons k ks ih =>
    cases fs with
    | nil => cases rs <;> rfl
    | cons f fs =>
      cases rs with
      | nil => rfl
      | cons r rs =>
        unfold readsShape at h
        unfold fitsShape at hf
        unfold readsAll
        rw [Bool.and_eq_true] at h hf ⊢
        exact ⟨reads_of_kind h.1 hf.1, ih h.2 hf.2⟩

/-- The ops whose arguments are taken in another way than they are written, and when they are
not: a weight of the single-step convolution that is a slot, a product with two inputs, a
concatenation of at most four sources. -/
def FormsOk (opcode : Opcode) (fs : List ArgForm) : Prop :=
  opcode ≠ .matmulW4A16 ∧ (opcode = .conv1dSsmStepF16 → fs[1]? = some .slotRef) ∧
    (opcode = .matmulF16 ∨ opcode = .matmulF16Split → fs[1]? ≠ some .slotId) ∧
    (opcode = .concatF16 → ∀ i, 4 ≤ i → i < 8 → fs[i]? ≠ some .temp ∧ fs[i]? ≠ some .slotRef)

theorem readsAll_binary (hsub : ∀ w, fs[4]? = some (.number w) → sub = w)
    (h : ∃ sh ∈ emitShapes .binaryF16, fitsShape sh fs = true) :
    readsAll (deviceRoles sub .binaryF16) fs = true := by
  obtain ⟨sh, hsh, hfit⟩ := h
  have hlast : ∃ w, fs[4]? = some (.number w) ∧
      (sh = [.ref, .ref, .temp, .number, .numberIsNot 8] ∧ w ≠ 8 ∨
        sh = [.ref, .ref, .ref, .temp, .numberIs 8] ∧ w = 8) := by
    rcases fs with _ | ⟨f₀, _ | ⟨f₁, _ | ⟨f₂, _ | ⟨f₃, _ | ⟨f₄, fs⟩⟩⟩⟩⟩
    all_goals simp only [emitShapes, List.mem_cons, List.not_mem_nil, or_false] at hsh
    all_goals rcases hsh with rfl | rfl
    all_goals simp [fitsShape] at hfit
    · cases f₄ <;> simp_all [ArgKind.allows]
    · cases f₄ <;> simp_all [ArgKind.allows]
  obtain ⟨w, hw, ⟨rfl, hne⟩ | ⟨rfl, rfl⟩⟩ := hlast
  · apply readsAll_of_shape _ hfit
    unfold deviceRoles
    rw [hsub w hw, if_neg hne]
    rfl
  · apply readsAll_of_shape _ hfit
    unfold deviceRoles
    rw [hsub 8 hw, if_pos rfl]
    rfl

/-- A concatenation whose fifth to eighth sources are missing. -/
theorem readsAll_concat
    (hfour : ∀ i, 4 ≤ i → i < 8 → fs[i]? ≠ some .temp ∧ fs[i]? ≠ some .slotRef)
    (h : ∃ sh ∈ emitShapes .concatF16, fitsShape sh fs = true) :
    readsAll (deviceRoles sub .concatF16) fs = true := by
  obtain ⟨sh, hsh, hfit⟩ := h
  obtain rfl := List.mem_singleton.mp hsh
  have hnumber : ∀ {i f}, 4 ≤ i → i < 8 → fs[i]? = some f → ArgKind.refOrZero.allows f = true →
      ArgKind.number.allows f = true := by
    intro i f h4 h8 hf hallow
    obtain ⟨hnt, hns⟩ := hfour i h4 h8
    cases f with
    | temp => exact absurd hf hnt
    | slotRef => exact absurd hf hns
    | slotId => exact hallow
    | number w => rfl
  have hnarrow : fitsShape [.refOrZero, .refOrZero, .refOrZero, .refOrZero, .number, .number,
      .number, .number, .temp] fs = true := by
    rcases fs with _ | ⟨f₀, _ | ⟨f₁, _ | ⟨f₂, _ | ⟨f₃, _ | ⟨f₄, _ | ⟨f₅, _ | ⟨f₆, _ | ⟨f₇, fs⟩⟩⟩⟩⟩⟩⟩⟩
    all_goals simp only [fitsShape, Bool.and_eq_true, Bool.false_eq_true, and_false] at hfit
    obtain ⟨h₀, h₁, h₂, h₃, h₄, h₅, h₆, h₇, hrest⟩ := hfit
    simp only [fitsShape, Bool.and_eq_true]
    exact ⟨h₀, h₁, h₂, h₃, hnumber (i := 4) (by omega) (by omega) rfl h₄,
      hnumber (i := 5) (by omega) (by omega) rfl h₅, hnumber (i := 6) (by omega) (by omega) rfl h₆,
      hnumber (i := 7) (by omega) (by omega) rfl h₇, hrest⟩
  exact readsAll_of_shape rfl hnarrow

/-- Every op that is taken as it is written, by its opcode. -/
theorem readsAll_op {opcode : Opcode} (hok : FormsOk opcode fs)
    (hsub : ∀ w, fs[4]? = some (.number w) → sub = w)
    (h : ∃ sh ∈ emitShapes opcode, fitsShape sh fs = true) :
    readsAll (deviceRoles sub opcode) fs = true := by
  obtain ⟨hw4, hstep, hmm, hcat⟩ := hok
  by_cases hbin : opcode = .binaryF16
  · subst hbin
    exact readsAll_binary hsub h
  by_cases hconcat : opcode = .concatF16
  · subst hconcat
    exact readsAll_concat (hcat rfl) h
  · obtain ⟨sh, hsh, hfit⟩ := h
    by_cases hst : opcode = .conv1dSsmStepF16
    · -- the weight is a slot, so the forms fit a narrower shape
      subst hst
      have hnarrow : fitsShape [.ref, .slotRef, .temp] fs = true := by
        rcases fs with _ | ⟨f₀, _ | ⟨f₁, fs⟩⟩
        · simp at hstep
        · simp at hstep
        · have hf₁ : f₁ = .slotRef := by simpa using hstep
          subst hf₁
          simp only [emitShapes, List.mem_singleton] at hsh
          subst hsh
          exact hfit
      exact readsAll_of_shape rfl hnarrow
    · by_cases hmat : opcode = .matmulF16 ∨ opcode = .matmulF16Split
      · have hne := hmm hmat
        have hroles : deviceRoles sub opcode = [.ref, .ref, .dst] := by
          rcases hmat with rfl | rfl <;> rfl
        have hcase : sh = [.ref, .ref, .temp] ∨ sh = [.ref, .slotId, .temp] := by
          rcases hmat with rfl | rfl <;> simpa [emitShapes] using hsh
        rw [hroles]
        rcases hcase with rfl | rfl
        · exact readsAll_of_shape rfl hfit
        · exfalso
          rcases fs with _ | ⟨f₀, _ | ⟨f₁, fs⟩⟩
          · simp [fitsShape] at hfit
          · simp [fitsShape] at hfit
          · cases f₁ <;> simp [fitsShape, ArgKind.allows] at hfit hne
      · have hshape : readsShape (deviceRoles sub opcode) sh = true := by
          cases opcode <;> simp_all [emitShapes]
          all_goals first | rfl | (rcases hsh with rfl | rfl <;> rfl)
        exact readsAll_of_shape hshape hfit

/-- A temp or slot the flags leave room for. -/
def WrittenArg.Fits : WrittenArg → Prop
  | .temp t => t < maxTemps
  | .slotRef s | .slotId s => s < maxTemps
  | .number _ => True

theorem target_of_reads {a : WrittenArg} {m t : Target} (hr : reads r a.form = true)
    (hfit : WrittenArg.Fits a) (hzero : r = .dstUnlessZero → a ≠ .temp 0) (hm : a.target = some m)
    (ht : t ∈ r.targets a.word) : t = m := by
  cases a with
  | number w => cases hm
  | temp n =>
    cases hm
    have hw := toNat_small hfit
    have hlt : (UInt32.ofNat n).toNat < maxTemps := by
      rw [hw]
      exact hfit
    have href := refTarget_low hlt
    have hdma := dmaTarget_low hlt
    have hdst : dstTarget (UInt32.ofNat n) = .temp n := by
      unfold dstTarget
      rw [if_pos hlt, hw]
    rw [hw] at href hdma
    cases r with
    | ref => simpa [Role.targets, WrittenArg.word, href] using ht
    | dst => simpa [Role.targets, WrittenArg.word, hdst] using ht
    | dstUnlessZero =>
      have hn : n ≠ 0 := fun h => hzero rfl (by rw [h])
      have hne : UInt32.ofNat n ≠ 0 := fun h => by
        rw [eq_zero_iff, hw] at h
        exact hn h
      simpa [Role.targets, WrittenArg.word, hne, hdst] using ht
    | dma => simpa [Role.targets, WrittenArg.word, hdma] using ht
    | fillDst =>
      have h8 := (low_flags hlt).1
      simpa [Role.targets, WrittenArg.word, h8, hdst] using ht
    | number => cases ht
    | slot | slotLow | slotOrVtcm | refAndSlot | dropped => cases hr
  | slotRef n =>
    cases hm
    have hw := toNat_flagged hfit
    have href := refTarget_slot hfit hw
    have hdma := dmaTarget_slot hfit hw
    have hlow := (slot_flags hfit hw).2.1
    cases r with
    | ref => simpa [Role.targets, WrittenArg.word, href] using ht
    | refAndSlot => simpa [Role.targets, WrittenArg.word, href, hlow] using ht
    | dma => simpa [Role.targets, WrittenArg.word, hdma] using ht
    | number => cases ht
    | dst | dstUnlessZero | slot | slotLow | slotOrVtcm | fillDst | dropped => cases hr
  | slotId n =>
    cases hm
    have hw := toNat_small hfit
    have hlow : (UInt32.ofNat n &&& 0x7FFF).toNat = n := by
      have hlt : n < maxTemps := hfit
      have hmax : maxTemps = 4096 := rfl
      rw [and_7FFF, hw]
      omega
    cases r with
    | slot => simpa [Role.targets, WrittenArg.word, hw] using ht
    | slotLow => simpa [Role.targets, WrittenArg.word, hlow] using ht
    | number => cases ht
    | ref | dst | dstUnlessZero | slotOrVtcm | refAndSlot | dma | fillDst | dropped => cases hr

theorem reads_of_all (h : readsAll rs fs = true) {i : ℕ} {f : ArgForm} (hr : rs[i]? = some r)
    (hf : fs[i]? = some f) : reads r f = true := by
  induction rs generalizing fs i with
  | nil => simp at hr
  | cons r₀ rs ih =>
    cases fs with
    | nil => simp at hf
    | cons f₀ fs =>
      unfold readsAll at h
      rw [Bool.and_eq_true] at h
      cases i with
      | zero =>
        cases hr
        cases hf
        exact h.1
      | succ i => exact ih h.2 hr hf

/-- An op of the blob whose references are understood. -/
structure OpFits (op : WrittenOp) : Prop where
  shape : ∃ sh ∈ emitShapes op.opcode, fitsShape sh (op.args.map WrittenArg.form) = true
  forms : FormsOk op.opcode (op.args.map WrittenArg.form)
  fits : ∀ a ∈ op.args, WrittenArg.Fits a
  nonzero : op.opcode = .kvGatherF16 → WrittenArg.temp 0 ∉ op.args

theorem dstUnlessZero_mem {opcode : Opcode} (h : Role.dstUnlessZero ∈ deviceRoles sub opcode) :
    opcode = .kvGatherF16 := by
  cases opcode with
  | kvGatherF16 => rfl
  | binaryF16 =>
    exfalso
    by_cases hsub : sub = 8 <;> simp [deviceRoles, hsub] at h
  | _ => simp [deviceRoles] at h

theorem refsMean_of_fits (h : OpFits op) : RefsMean op := by
  intro i a r m ha hr hm t ht
  have hsub : ∀ w, (op.args.map WrittenArg.form)[4]? = some (.number w) → argWord op 4 = w := by
    intro w hw
    rw [List.getElem?_map, Option.map_eq_some_iff] at hw
    obtain ⟨a₄, ha₄, hform⟩ := hw
    unfold argWord
    rw [ha₄]
    cases a₄ <;> cases hform
    rfl
  have hall := readsAll_op h.forms hsub h.shape
  have hform : (op.args.map WrittenArg.form)[i]? = some a.form := by
    rw [List.getElem?_map, ha]
    rfl
  have hmem : a ∈ op.args := List.mem_of_getElem? ha
  apply target_of_reads (reads_of_all hall hr hform) (h.fits a hmem) _ hm ht
  intro hrole hzero
  subst hrole hzero
  exact h.nonzero (dstUnlessZero_mem (List.mem_of_getElem? hr)) hmem

/-! ### Slots -/

/-- A slot the emitter has made, or the 0 it starts with. -/
def Known (n s : ℕ) : Prop := s = 0 ∨ s < n

theorem Known.mono (h : Known n s) (hn : n ≤ n') : Known n' s := by
  cases h with
  | inl h => exact .inl h
  | inr h => exact .inr (lt_of_lt_of_le h hn)

/-- The slots the emitter remembers. -/
structure SlotsKnown (em : Emitter) : Prop where
  input : ∀ id s, em.inputSlots id = some s → Known em.nSlots s
  weight : ∀ id s, em.wslots id = some s → Known em.nSlots s
  index : ∀ id s, em.i32Slots id = some s → Known em.nSlots s
  dummy : Known em.nSlots em.dummySlotId
  spill : Known em.nSlots em.spillPoolSlot
  convWeight : Known em.nSlots em.wSlot
  convBias : Known em.nSlots em.bSlot

/-- The emitter after it made slots only. -/
structure SlotStep (em em' : Emitter) : Prop where
  known : SlotsKnown em'
  le : em.nSlots ≤ em'.nSlots
  desk : em'.desk = em.desk
  ops : em'.ops = em.ops

theorem SlotStep.refl (h : SlotsKnown em) : SlotStep em em := ⟨h, le_rfl, rfl, rfl⟩

theorem SlotStep.trans {em₁ em₂ em₃ : Emitter} (h : SlotStep em₁ em₂) (h' : SlotStep em₂ em₃) :
    SlotStep em₁ em₃ :=
  ⟨h'.known, h.le.trans h'.le, h'.desk.trans h.desk, h'.ops.trans h.ops⟩

theorem known_update {f : ℕ → Option ℕ} {id : ℕ} (h : ∀ i s, f i = some s → Known n s) :
    ∀ i s, Function.update f id (some n) i = some s → Known (n + 1) s := by
  intro i s hs
  by_cases hi : i = id
  · subst hi
    rw [Function.update_self] at hs
    cases hs
    exact .inr (Nat.lt_succ_self n)
  · rw [Function.update_of_ne hi] at hs
    exact (h i s hs).mono (Nat.le_succ n)

theorem SlotsKnown.succ (h : SlotsKnown em) :
    SlotsKnown { em with nSlots := em.nSlots + 1 } where
  input id s hs := (h.input id s hs).mono (Nat.le_succ _)
  weight id s hs := (h.weight id s hs).mono (Nat.le_succ _)
  index id s hs := (h.index id s hs).mono (Nat.le_succ _)
  dummy := h.dummy.mono (Nat.le_succ _)
  spill := h.spill.mono (Nat.le_succ _)
  convWeight := h.convWeight.mono (Nat.le_succ _)
  convBias := h.convBias.mono (Nat.le_succ _)

theorem ensureWeightSlot_spec (h : SlotsKnown em) (id : ℕ) :
    SlotStep em (ensureWeightSlot em id).2 ∧
      Known (ensureWeightSlot em id).2.nSlots (ensureWeightSlot em id).1 := by
  unfold ensureWeightSlot
  split
  · rename_i s hs
    exact ⟨.refl h, h.weight id s hs⟩
  · refine ⟨⟨?_, Nat.le_succ _, rfl, rfl⟩, .inr (Nat.lt_succ_self _)⟩
    exact { h.succ with weight := known_update h.weight }

theorem ensureI32Slot_spec (h : SlotsKnown em) (id : ℕ) :
    SlotStep em (ensureI32Slot em id).2 ∧
      Known (ensureI32Slot em id).2.nSlots (ensureI32Slot em id).1 := by
  unfold ensureI32Slot
  split
  · rename_i s hs
    exact ⟨.refl h, h.index id s hs⟩
  · refine ⟨⟨?_, Nat.le_succ _, rfl, rfl⟩, .inr (Nat.lt_succ_self _)⟩
    exact { h.succ with index := known_update h.index }

theorem slotOf_spec {src : SlotSource} (h : SlotsKnown em) (hs : slotOf em src = some (s, em')) :
    SlotStep em em' ∧ Known em'.nSlots s := by
  cases src with
  | mainInput =>
    cases hs
    exact ⟨.refl h, .inl rfl⟩
  | input id =>
    obtain ⟨s', hs', heq⟩ := Option.map_eq_some_iff.mp hs
    cases heq
    exact ⟨.refl h, h.input id _ hs'⟩
  | weight id =>
    have hspec := ensureWeightSlot_spec h id
    rw [Option.some.inj hs] at hspec
    exact hspec
  | index id =>
    have hspec := ensureI32Slot_spec h id
    rw [Option.some.inj hs] at hspec
    exact hspec
  | dummy =>
    simp only [slotOf] at hs
    split at hs
    · cases hs
      refine ⟨⟨?_, Nat.le_succ _, rfl, rfl⟩, .inr (Nat.lt_succ_self _)⟩
      exact { h.succ with dummy := .inr (Nat.lt_succ_self _) }
    · cases hs
      exact ⟨.refl h, h.dummy⟩
  | dummyNow =>
    cases hs
    exact ⟨.refl h, h.dummy⟩
  | spillPool =>
    cases hs
    exact ⟨.refl h, h.spill⟩
  | convWeight =>
    cases hs
    exact ⟨.refl h, h.convWeight⟩
  | convBias =>
    cases hs
    exact ⟨.refl h, h.convBias⟩

/-! ### Arguments -/

/-- An argument the emitter may have written: a temp it owns, or a known slot. -/
def Written (d : Desk ℕ) (n : ℕ) : WrittenArg → Prop
  | .temp t => ∃ key, d.own key = some t
  | .slotRef s | .slotId s => Known n s
  | .number _ => True

theorem Written.mono {d : Desk ℕ} {a : WrittenArg} (h : Written d n a) (hn : n ≤ n') :
    Written d n' a := by
  cases a with
  | temp t => exact h
  | slotRef s => exact Known.mono h hn
  | slotId s => exact Known.mono h hn
  | number w => trivial

theorem writeArg_spec {a : EmitArg} {w : WrittenArg} (h : SlotsKnown em)
    (hw : writeArg em a = some (w, em')) :
    SlotStep em em' ∧ Written em'.desk em'.nSlots w ∧ w.form = a.form ∧
      ∀ t, w = .temp t → ∃ key, a = .temp key ∧ em.desk.own key = some t := by
  cases a with
  | temp key =>
    obtain ⟨t, ht, heq⟩ := Option.map_eq_some_iff.mp hw
    cases heq
    refine ⟨.refl h, ⟨key, ht⟩, rfl, ?_⟩
    intro t' ht'
    cases ht'
    exact ⟨key, rfl, ht⟩
  | slotRef src =>
    obtain ⟨⟨s, em''⟩, hs, heq⟩ := Option.map_eq_some_iff.mp hw
    cases heq
    obtain ⟨hstep, hk⟩ := slotOf_spec h hs
    exact ⟨hstep, hk, rfl, fun t ht => by cases ht⟩
  | slotId src =>
    obtain ⟨⟨s, em''⟩, hs, heq⟩ := Option.map_eq_some_iff.mp hw
    cases heq
    obtain ⟨hstep, hk⟩ := slotOf_spec h hs
    exact ⟨hstep, hk, rfl, fun t ht => by cases ht⟩
  | number w =>
    cases hw
    exact ⟨.refl h, trivial, rfl, fun t ht => by cases ht⟩

theorem writeArgs_spec {as : List EmitArg} {ws : List WrittenArg} (h : SlotsKnown em)
    (hw : writeArgs em as = some (ws, em')) :
    SlotStep em em' ∧ (∀ w ∈ ws, Written em'.desk em'.nSlots w) ∧
      ws.map WrittenArg.form = as.map EmitArg.form ∧
        ∀ t, WrittenArg.temp t ∈ ws → ∃ key, EmitArg.temp key ∈ as ∧ em.desk.own key = some t := by
  induction as generalizing em ws with
  | nil =>
    cases hw
    exact ⟨.refl h, by simp, rfl, by simp⟩
  | cons a as ih =>
    unfold writeArgs at hw
    obtain ⟨⟨w, em₁⟩, hfirst, hw⟩ := Option.bind_eq_some_iff.mp hw
    obtain ⟨⟨ws₁, em₂⟩, hrest, hw⟩ := Option.bind_eq_some_iff.mp hw
    cases hw
    obtain ⟨hstep, hwr, hform, hkey⟩ := writeArg_spec h hfirst
    obtain ⟨hstep₁, hwr₁, hform₁, hkey₁⟩ := ih hstep.known hrest
    refine ⟨hstep.trans hstep₁, ?_, ?_, ?_⟩
    · intro v hv
      cases List.mem_cons.mp hv with
      | inl hv =>
        subst hv
        rw [hstep₁.desk]
        exact hwr.mono hstep₁.le
      | inr hv => exact hwr₁ v hv
    · rw [List.map_cons, List.map_cons, hform, hform₁]
    · intro t ht
      cases List.mem_cons.mp ht with
      | inl ht =>
        obtain ⟨key, rfl, hown⟩ := hkey t ht.symm
        exact ⟨key, List.mem_cons_self, hown⟩
      | inr ht =>
        obtain ⟨key, hmem, hown⟩ := hkey₁ t ht
        rw [hstep.desk] at hown
        exact ⟨key, List.mem_cons_of_mem a hmem, hown⟩

/-! ### Runs -/

/-- An op all of whose references are understood once there are at most `maxTemps` slots. -/
structure OpKnown (n : ℕ) (op : WrittenOp) : Prop where
  shape : ∃ sh ∈ emitShapes op.opcode, fitsShape sh (op.args.map WrittenArg.form) = true
  forms : FormsOk op.opcode (op.args.map WrittenArg.form)
  temps : ∀ t, WrittenArg.temp t ∈ op.args → t < maxTemps
  slots : ∀ s, WrittenArg.slotRef s ∈ op.args ∨ WrittenArg.slotId s ∈ op.args → Known n s
  nonzero : op.opcode = .kvGatherF16 → WrittenArg.temp 0 ∉ op.args

theorem OpKnown.mono (h : OpKnown n op) (hn : n ≤ n') : OpKnown n' op :=
  { h with slots := fun s hs => (h.slots s hs).mono hn }

theorem OpKnown.fits (h : OpKnown n op) (hn : n ≤ maxTemps) :
    OpFits op where
  shape := h.shape
  forms := h.forms
  nonzero := h.nonzero
  fits a ha := by
    have hslot : ∀ s, Known n s → s < maxTemps := by
      intro s hs
      cases hs with
      | inl hs =>
        subst hs
        decide
      | inr hs => exact lt_of_lt_of_le hs hn
    cases a with
    | temp t => exact h.temps t ha
    | slotRef s => exact hslot s (h.slots s (.inl ha))
    | slotId s => exact hslot s (h.slots s (.inr ha))
    | number w => trivial

/-- The emitter on the way, while it stays below the limit of the device. -/
structure EmitInv (em : Emitter) : Prop where
  wf : em.desk.Wf
  next_le : em.desk.next ≤ maxTemps
  slots : SlotsKnown em
  ops : ∀ op ∈ em.ops, OpKnown em.nSlots op

/-- A call that stays on common ground: a temp the device knows, and an op whose arguments are
taken as they are written; a gathered face has no temp 0. -/
def CallOk (em : Emitter) : EmitCall → Prop
  | .fresh _ => em.desk.free ≠ [] ∨ em.desk.next < maxTemps
  | .addOp op => FormsOk op.opcode (op.args.map EmitArg.form) ∧
      (op.opcode = .kvGatherF16 → ∀ key, EmitArg.temp key ∈ op.args → em.desk.own key ≠ some 0)
  | _ => True

/-- The same for all calls of a run. -/
def CallsOk (em : Emitter) : List EmitCall → Prop
  | [] => True
  | c :: cs => CallOk em c ∧ ∀ em', emitCall em c = some em' → CallsOk em' cs

theorem slotsKnown_new : SlotsKnown Emitter.new where
  input _ _ h := nomatch h
  weight _ _ h := nomatch h
  index _ _ h := nomatch h
  dummy := .inl rfl
  spill := .inl rfl
  convWeight := .inl rfl
  convBias := .inl rfl

theorem emitInv_new : EmitInv Emitter.new where
  wf := Desk.wf_new
  next_le := Nat.zero_le _
  slots := slotsKnown_new
  ops _ h := absurd h List.not_mem_nil

theorem EmitInv.slotStep (h : EmitInv em) (hs : SlotStep em em') :
    EmitInv em' where
  wf := hs.desk ▸ h.wf
  next_le := hs.desk ▸ h.next_le
  slots := hs.known
  ops op hop := (h.ops op (hs.ops ▸ hop)).mono hs.le

theorem convSlots_step (h : SlotsKnown em) (w : ℕ) (b : Option ℕ) :
    SlotStep em (convSlots em w b) := by
  obtain ⟨hw, hkw⟩ := ensureWeightSlot_spec h w
  unfold convSlots
  cases b with
  | none => exact ⟨{ hw.known with convWeight := hkw }, hw.le, hw.desk, hw.ops⟩
  | some b =>
    obtain ⟨hb, hkb⟩ := ensureWeightSlot_spec hw.known b
    have hstep := hw.trans hb
    exact ⟨{ hb.known with convWeight := hkw.mono hb.le, convBias := hkb },
      hstep.le, hstep.desk, hstep.ops⟩

theorem emitCall_inv {c : EmitCall} (h : EmitInv em) (hok : CallOk em c)
    (hc : emitCall em c = some em') : EmitInv em' := by
  cases c with
  | addInput ids =>
    cases hc
    apply h.slotStep
    refine ⟨{ h.slots.succ with input := ?_ }, Nat.le_succ _, rfl, rfl⟩
    intro id s hs
    simp only at hs
    split at hs
    · cases hs
      exact .inr (Nat.lt_succ_self _)
    · exact (h.slots.input id s hs).mono (Nat.le_succ _)
  | addSlot =>
    cases hc
    exact h.slotStep ⟨h.slots.succ, Nat.le_succ _, rfl, rfl⟩
  | addSpillPool =>
    cases hc
    apply h.slotStep
    exact ⟨{ h.slots.succ with spill := .inr (Nat.lt_succ_self _) }, Nat.le_succ _, rfl, rfl⟩
  | convSlots w b =>
    cases hc
    exact h.slotStep (convSlots_step h.slots w b)
  | fresh key =>
    simp only [emitCall] at hc
    split at hc
    · cases hc
    · cases hc
      refine ⟨h.wf.acquire key, ?_, { h.slots with }, h.ops⟩
      have hle := h.next_le
      simp only [Desk.acquire]
      split
      · rename_i hfree
        exact hok.resolve_left (not_not.mpr hfree)
      · exact hle
  | release key =>
    cases hc
    have hnext := Desk.release_next em.desk key
    exact ⟨h.wf.release key, hnext.symm ▸ h.next_le, { h.slots with }, h.ops⟩
  | addOp op =>
    obtain ⟨⟨args, em₁⟩, hargs, hc⟩ := Option.bind_eq_some_iff.mp hc
    cases hc
    obtain ⟨hstep, hwr, hform, hkey⟩ := writeArgs_spec h.slots hargs
    have h₁ := h.slotStep hstep
    refine ⟨h₁.wf, h₁.next_le, { h₁.slots with }, ?_⟩
    intro o ho
    cases List.mem_append.mp ho with
    | inl ho => exact h₁.ops o ho
    | inr ho =>
      cases List.mem_singleton.mp ho
      refine ⟨hform ▸ op.shape, hform ▸ hok.1, ?_, ?_, ?_⟩
      · intro t ht
        obtain ⟨key, hown⟩ := hwr _ ht
        exact lt_of_lt_of_le (h₁.wf.own_lt key t hown) h₁.next_le
      · intro s hs
        cases hs with
        | inl hs => exact hwr _ hs
        | inr hs => exact hwr _ hs
      · intro hkv hzero
        obtain ⟨key, hmem, hown⟩ := hkey 0 hzero
        exact hok.2 hkv key hmem hown

theorem runCalls_inv {calls : List EmitCall} (h : EmitInv em) (hok : CallsOk em calls)
    (hrun : runCalls em calls = some em') : EmitInv em' := by
  induction calls generalizing em with
  | nil =>
    cases hrun
    exact h
  | cons c cs ih =>
    unfold runCalls at hrun
    rw [List.foldlM_cons] at hrun
    obtain ⟨em₁, hc, hrest⟩ := Option.bind_eq_some_iff.mp hrun
    exact ih (emitCall_inv h hok.1 hc) (hok.2 em₁ hc) hrest

/-- In a run whose calls stay on common ground every reference of the blob is decoded to what it
was written for. -/
theorem references_agree {calls : List EmitCall} {em : Emitter} (hok : CallsOk Emitter.new calls)
    (h : emit calls = some em) : ∀ op ∈ em.ops, RefsMean op := by
  intro op hop
  obtain ⟨em₁, hrun, h⟩ := Option.bind_eq_some_iff.mp h
  have hinv := runCalls_inv emitInv_new hok hrun
  split at h
  · cases h
  · rename_i hslots
    cases h
    have hle : em.nSlots ≤ maxTemps := not_lt.mp fun hlt => hslots (.inr hlt)
    exact refsMean_of_fits ((hinv.ops op hop).fits hle)

theorem unary_shape (x y : ℕ) : ∃ sh ∈ emitShapes .unaryF16,
    fitsShape sh ([EmitArg.temp x, EmitArg.temp y].map EmitArg.form) = true :=
  ⟨_, List.mem_singleton_self _, rfl⟩

theorem unary_shape_input (y : ℕ) : ∃ sh ∈ emitShapes .unaryF16,
    fitsShape sh ([EmitArg.slotRef .mainInput, EmitArg.temp y].map EmitArg.form) = true :=
  ⟨_, List.mem_singleton_self _, rfl⟩

/-- A unary op from the output `x` to the output `y`. -/
def unaryOp (x y : ℕ) : EmitCall := .addOp ⟨.unaryF16, [.temp x, .temp y], unary_shape x y⟩

/-- The same from the input. -/
def unaryOfInput (y : ℕ) : EmitCall :=
  .addOp ⟨.unaryF16, [.slotRef .mainInput, .temp y], unary_shape_input y⟩

theorem concat_shape (x y z : ℕ) : ∃ sh ∈ emitShapes .concatF16,
    fitsShape sh ([EmitArg.temp x, .temp y, .number 0, .number 0, .number 0, .number 0, .number 0,
      .number 0, .temp z].map EmitArg.form) = true :=
  ⟨_, List.mem_singleton_self _, rfl⟩

/-- A concatenation of the outputs `x` and `y`; the other six sources are missing. -/
def concatOp (x y z : ℕ) : EmitCall :=
  .addOp ⟨.concatF16, [.temp x, .temp y, .number 0, .number 0, .number 0, .number 0, .number 0,
    .number 0, .temp z], concat_shape x y z⟩

/-- Two unary ops one after the other, and their outputs side by side. -/
def shortRun : List EmitCall :=
  [.addInput [0], .fresh 1, unaryOfInput 1, .fresh 2, unaryOp 1 2, .fresh 3, concatOp 1 2 3]

theorem unary_formsOk (fs : List ArgForm) : FormsOk .unaryF16 fs := by
  simp [FormsOk]

theorem unaryOp_callOk (em : Emitter) (x y : ℕ) : CallOk em (unaryOp x y) :=
  ⟨unary_formsOk _, fun h => nomatch h⟩

theorem concatOp_callOk (em : Emitter) (x y z : ℕ) : CallOk em (concatOp x y z) := by
  have hop : Opcode.concatF16 ≠ .matmulW4A16 := by decide
  have hstep : Opcode.concatF16 ≠ .conv1dSsmStepF16 := by decide
  have hmat : ¬ (Opcode.concatF16 = .matmulF16 ∨ Opcode.concatF16 = .matmulF16Split) := by decide
  refine ⟨⟨hop, fun h => absurd h hstep, fun h => absurd h hmat, fun _ i h4 h8 => ?_⟩,
    fun h => nomatch h⟩
  rcases (show i = 4 ∨ i = 5 ∨ i = 6 ∨ i = 7 by omega) with rfl | rfl | rfl | rfl <;>
    exact ⟨by simp [EmitArg.form], by simp [EmitArg.form]⟩

theorem shortRun_ok : CallsOk Emitter.new shortRun := by
  refine ⟨trivial, fun em₁ h₁ => ⟨.inr ?_, fun em₂ h₂ => ⟨⟨unary_formsOk _, fun h => nomatch h⟩,
    fun em₃ h₃ => ⟨.inr ?_, fun em₄ h₄ => ⟨unaryOp_callOk em₄ 1 2, fun em₅ h₅ => ⟨.inr ?_,
      fun em₆ _ => ⟨concatOp_callOk em₆ 1 2 3, fun _ _ => trivial⟩⟩⟩⟩⟩⟩⟩
  · cases h₁
    decide
  · cases h₁
    cases h₂
    cases h₃
    decide
  · cases h₁
    cases h₂
    cases h₃
    cases h₄
    cases h₅
    decide

/-- The hypotheses hold of the short run, and its three ops are understood. -/
theorem shortRun_agree : ∃ em, emit shortRun = some em ∧ em.ops.length = 3 ∧
    ∀ op ∈ em.ops, RefsMean op :=
  ⟨_, rfl, rfl, references_agree shortRun_ok rfl⟩

/-- `n` temps are live. -/
def Live (n : ℕ) (em : Emitter) : Prop :=
  em.desk.free = [] ∧ em.desk.next = n ∧ em.nSlots = 1 ∧ em.ops = [] ∧
    ∀ k < n, em.desk.own k = some k

theorem runCalls_fresh (hn : n ≤ 32768) : ∃ em,
    runCalls Emitter.new (.addInput [0] :: (List.range n).map .fresh) = some em ∧ Live n em := by
  induction n with
  | zero => exact ⟨_, rfl, rfl, rfl, rfl, rfl, fun k hk => absurd hk (Nat.not_lt_zero k)⟩
  | succ n ih =>
    obtain ⟨em, hrun, hfree, hnext, hslots, hops, hown⟩ := ih (by omega)
    have htaken : em.desk.taken = n := by
      unfold Desk.taken
      rw [hfree, hnext]
      rfl
    have hacq : (em.desk.acquire n).next = n + 1 := by
      unfold Desk.acquire
      simp only [hfree, if_true, hnext]
    have hcall : emitCall em (.fresh n) = some { em with desk := em.desk.acquire n } := by
      exact if_neg (by omega)
    refine ⟨{ em with desk := em.desk.acquire n }, ?_, ?_, hacq, hslots, hops, ?_⟩
    · rw [List.range_succ, List.map_append, ← List.cons_append]
      unfold runCalls at hrun ⊢
      rw [List.foldlM_append, hrun, Option.bind_eq_bind, Option.bind_some]
      simp only [List.map_cons, List.map_nil, List.foldlM_cons, List.foldlM_nil, bind_pure, hcall]
    · simp only [Desk.acquire, hfree, List.tail_nil]
    · intro k hk
      by_cases hkn : k = n
      · subst hkn
        have hself := Desk.acquire_own_self em.desk k
        rw [htaken] at hself
        exact hself
      · rw [Desk.acquire_own_of_ne hkn]
        exact hown k (by omega)

/-- With 4097 live temps the emitter writes the id 4096, which the device takes for no temp. -/
theorem temp4096_lost : ¬ ∀ calls em, emit calls = some em → ∀ op ∈ em.ops, RefsMean op := by
  intro hall
  obtain ⟨em, hrun, hfree, hnext, hslots, hops, hown⟩ := runCalls_fresh (show 4097 ≤ 32768 by omega)
  have hwrite : emitCall em (unaryOp 4096 0) =
      some { em with ops := em.ops ++ [⟨.unaryF16, [.temp 4096, .temp 0]⟩] } := by
    simp [emitCall, unaryOp, writeArgs, writeArg, hown 4096 (by omega), hown 0 (by omega)]
  have hemit : emit ((.addInput [0] :: (List.range 4097).map .fresh) ++ [unaryOp 4096 0]) =
      some { em with ops := em.ops ++ [⟨.unaryF16, [.temp 4096, .temp 0]⟩] } := by
    unfold emit runCalls
    unfold runCalls at hrun
    rw [List.foldlM_append, hrun, Option.bind_eq_bind, Option.bind_some, List.foldlM_cons, hwrite]
    simp [hslots]
  have hmean := hall _ _ hemit ⟨.unaryF16, [.temp 4096, .temp 0]⟩
    (List.mem_append_right _ (List.mem_singleton_self _))
  have hdec := hmean 0 (.temp 4096) .ref (.temp 4096) rfl rfl rfl .null
    (by decide)
  cases hdec

end Gehtp.Analysis.RefsAgree
