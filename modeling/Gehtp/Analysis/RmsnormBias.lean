import Gehtp.Model.RmsnormOp

/-!
# The bias that RmsNorm reads

A missing bias is written as the id of the shared slot of zeros. Before this slot is made the id is 0,
which is the slot of the network's input, and afterwards the slot has 64 elements, whatever the width of
a row is. A bias that is there has a slot of its own.
-/

set_option autoImplicit false

namespace Gehtp.Analysis.RmsnormBias

open Lib Model.DeviceTensor Model.RmsnormOp

/-! ### What is wanted -/

section Definitions

variable {F D : Type} (ops : FloatOps F D) (g : Graph) (em : Emitter) (od : RmsnormNode)

/-- The values of a constant: those of the GGUF file under its name, or its data. -/
def ownData (w : Node) : List UInt16 := ((g.gguf.bind fun tab => tab w.grouping).bind id).getD w.data

/-- The bias of the operator, if it has one; one that is not in the graph has no values. -/
def wantedBias : Option (List UInt16) :=
  (od.inputs[2]?).map fun id => ((g.node id).map (ownData g)).getD []

def gamma : List UInt16 :=
  (((opRmsnorm g em od).2.slots[(opRmsnorm g em od).1.wS]?).map Slot.data).getD []

def rowWidth : ℕ := (gamma g em od).length

/-- An operand for the bias: none or a slot of zeros if there is no bias, otherwise a slot that begins
with the values of the bias; either slot has an element for each place of a row. -/
def OperandOk (rw : ℕ) (slot : Option Slot) : Option (List UInt16) → Prop
  | none => slot = none ∨ ∃ s, slot = some s ∧ s.use = .dummy ∧ rw ≤ s.data.length
  | some vals => ∃ s, slot = some s ∧ rw ≤ s.data.length ∧ rw ≤ vals.length ∧
      s.data.take rw = vals.take rw

/-- Element `i` of the result for a row. -/
def rmsnormAt (row wv : List UInt16) (bias : Option (List UInt16)) (i : ℕ) : UInt16 :=
  let rms := ops.rms (row.foldl (fun acc h => ops.addSquare acc (ops.widen h)) ops.dzero) row.length
  ops.narrow (ops.add (ops.mul (ops.div (ops.widen (row.getD i 0)) rms) (ops.widen (wv.getD i 0)))
    (match bias with
      | none => ops.zero
      | some b => ops.widen (b.getD i 0)))

/-- The operand that is read is meant as bias, and the result is the one with the operator's own bias,
whatever slots come later, whatever is passed in and whatever is computed. -/
def Right : Prop :=
  (od.elems ≠ 0 → OperandOk (rowWidth g em od)
    ((opRmsnorm g em od).2.slots[(opRmsnorm g em od).1.bS % 2 ^ 15]?) (wantedBias g od)) ∧
  ∀ (later : List Slot) (input : List UInt16) (x : Tensor) (old : ℕ → UInt16), x.count = od.elems →
    ∃ y, execRmsnorm2 ops ((opRmsnorm g em od).2.slots ++ later) input (opRmsnorm g em od).1 x old =
        .ok y ∧
      ∀ r < od.elems / rowWidth g em od, ∀ i < rowWidth g em od,
        y[r * rowWidth g em od + i]? = some (rmsnormAt ops
          ((List.range (rowWidth g em od)).map fun k => x.data.getD (r * rowWidth g em od + k) 0)
          (gamma g em od) (wantedBias g od) i)

/-- An operator with weights that fit the rows of its output, in a graph with few enough slots for the
emitter. -/
structure Shaped : Prop where
  weights : ∃ id w, od.inputs[1]? = some id ∧ g.node id = some w
  width : 0 < rowWidth g em od ∧ 2 * rowWidth g em od < 2 ^ 32
  rows : rowWidth g em od ∣ od.elems
  fits : 2 * od.elems < 2 ^ 32
  slots : (opRmsnorm g em od).2.slots.length ≤ 4096

/-! ### When it is right -/

/-- What the slot for the bias holds: the one that is there, or the one that will be made. -/
def biasData (id : ℕ) (w : Node) : List UInt16 :=
  let em' := (operandSlot g (afterInput g em od) od 1).2
  match em'.wslots id with
  | some s => ((em'.slots[s]?).map Slot.data).getD []
  | none => weightData g w od.grouping

/-- There is a bias, as many values as a row has elements, and its slot begins with them; or there is
none, the shared slot was made and a row has at most 64 elements. -/
def OperandWhen : Prop :=
  match od.inputs[2]? with
  | none => (afterInput g em od).dummySlotId ≠ 0 ∧ rowWidth g em od ≤ 64
  | some id =>
    match g.node id with
    | none => False
    | some w => rowWidth g em od ≤ (ownData g w).length ∧
        rowWidth g em od ≤ (biasData g em od id w).length ∧
        (biasData g em od id w).take (rowWidth g em od) = (ownData g w).take (rowWidth g em od)

/-- There is nothing to compute, or the operand is right. -/
def RightWhen : Prop := od.elems = 0 ∨ OperandWhen g em od

end Definitions

/-! ### Slots stay what they are -/

section Tidy

variable (g : Graph)

/-- The first slot is the input, a weight's slot is there and holds what was taken for it, and so is the
shared slot once it is made. -/
structure Tidy (em : Emitter) : Prop where
  first : ∃ d, em.slots[0]? = some ⟨.mainInput, d⟩
  weights : ∀ id s, em.wslots id = some s →
    ∃ w grp, g.node id = some w ∧ em.slots[s]? = some ⟨.weight id, weightData g w grp⟩
  dummy : em.dummySlotId ≠ 0 → em.slots[em.dummySlotId]? = some ⟨.dummy, List.replicate 64 0⟩

variable {g} {em : Emitter}

theorem getElem?_grown {slots later : List Slot} {s : ℕ} {slot : Slot} (h : slots[s]? = some slot) :
    (slots ++ later)[s]? = some slot := by
  obtain ⟨hlt, -⟩ := List.getElem?_eq_some_iff.mp h
  rw [List.getElem?_append_left hlt, h]

theorem getElem?_last (slots : List Slot) (slot : Slot) :
    (slots ++ [slot])[slots.length]? = some slot := by
  rw [List.getElem?_append_right le_rfl, Nat.sub_self, List.getElem?_cons_zero]

theorem Tidy.add (h : Tidy g em) (slot : Slot) (inputSlots i32Slots : ℕ → Option ℕ) :
    Tidy g { em with slots := em.slots ++ [slot], inputSlots := inputSlots, i32Slots := i32Slots } := by
  obtain ⟨⟨d, hd⟩, hweights, hdummy⟩ := h
  refine ⟨⟨d, getElem?_grown hd⟩, fun id s hs => ?_, fun hne => getElem?_grown (hdummy hne)⟩
  obtain ⟨w, grp, hw, hslot⟩ := hweights id s hs
  exact ⟨w, grp, hw, getElem?_grown hslot⟩

theorem Tidy.start (input : List UInt16) : Tidy g (Emitter.start g input) :=
  ⟨⟨input, rfl⟩, (fun _ _ h => nomatch h), fun h => absurd rfl h⟩

theorem Tidy.ensure (h : Tidy g em) {id : ℕ} {w : Node} (hw : g.node id = some w) (grp : String) :
    Tidy g (ensureWeightSlot g em id w grp).2 := by
  unfold ensureWeightSlot
  cases hslot : em.wslots id with
  | some s => exact h
  | none =>
    obtain ⟨⟨d, hd⟩, hweights, hdummy⟩ := h
    refine ⟨⟨d, getElem?_grown hd⟩, fun id' s hs => ?_, fun hne => getElem?_grown (hdummy hne)⟩
    dsimp only at hs ⊢
    by_cases hid : id' = id
    · subst hid
      rw [Function.update_self] at hs
      cases hs
      exact ⟨w, grp, hw, getElem?_last _ _⟩
    · rw [Function.update_of_ne hid] at hs
      obtain ⟨w', grp', hw', hslot'⟩ := hweights id' s hs
      exact ⟨w', grp', hw', getElem?_grown hslot'⟩

theorem ensure_slot (h : Tidy g em) (id : ℕ) (w : Node) (grp : String) :
    ∃ d, (ensureWeightSlot g em id w grp).2.slots[(ensureWeightSlot g em id w grp).1]? =
        some ⟨.weight id, d⟩ ∧
      d = match em.wslots id with
        | some s => ((em.slots[s]?).map Slot.data).getD []
        | none => weightData g w grp := by
  unfold ensureWeightSlot
  cases hslot : em.wslots id with
  | some s =>
    obtain ⟨w', grp', -, hs⟩ := h.weights id s hslot
    refine ⟨_, hs, ?_⟩
    dsimp only
    rw [hs]
    rfl
  | none => exact ⟨_, getElem?_last _ _, rfl⟩

theorem Tidy.made (h : Tidy g em) : Tidy g (dummySlot em).2 := by
  unfold dummySlot
  by_cases hzero : em.dummySlotId = 0
  · rw [if_pos hzero]
    obtain ⟨⟨d, hd⟩, hweights, -⟩ := h
    refine ⟨⟨d, getElem?_grown hd⟩, fun id s hs => ?_, fun _ => getElem?_last _ _⟩
    obtain ⟨w, grp, hw, hslot⟩ := hweights id s hs
    exact ⟨w, grp, hw, getElem?_grown hslot⟩
  · rw [if_neg hzero]
    exact h

theorem Tidy.referred (h : Tidy g em) (id : ℕ) : Tidy g (srcRef g em id).2 := by
  unfold srcRef
  split
  · exact h
  · split
    · exact h
    · split
      · exact h.made
      · rename_i hp
        split
        · exact h.ensure hp ""
        · split
          · exact h.made
          · exact h

theorem Tidy.call (h : Tidy g em) (c : Call) : Tidy g (em.call g c) := by
  cases c with
  | addSlot data => exact h.add _ em.inputSlots em.i32Slots
  | addInput id data => exact h.add _ _ em.i32Slots
  | aliasInput id => exact ⟨h.first, h.weights, h.dummy⟩
  | srcRef id => exact h.referred id
  | weight id grp =>
    unfold Emitter.call
    dsimp only
    split
    · exact h
    · rename_i hw
      exact h.ensure hw grp
  | index id data =>
    show Tidy g (ensureI32Slot em id data).2
    unfold ensureI32Slot
    split
    · exact h
    · exact h.add _ em.inputSlots _

theorem Tidy.run (g : Graph) (input : List UInt16) (calls : List Call) :
    Tidy g (runCalls g input calls) := by
  unfold runCalls
  generalize hstart : Emitter.start g input = em
  have h : Tidy g em := hstart ▸ Tidy.start input
  clear hstart
  induction calls generalizing em with
  | nil => exact h
  | cons c calls ih => exact ih (em.call g c) (h.call c)

end Tidy

/-! ### What is emitted -/

section Emission

variable {g : Graph} {em : Emitter} {od : RmsnormNode}

theorem tidy_afterInput (h : Tidy g em) (od : RmsnormNode) : Tidy g (afterInput g em od) := by
  unfold afterInput
  split
  · exact h
  · exact h.referred _

theorem ensure_dummy (g : Graph) (em : Emitter) (id : ℕ) (w : Node) (grp : String) :
    (ensureWeightSlot g em id w grp).2.dummySlotId = em.dummySlotId := by
  unfold ensureWeightSlot
  split
  · rfl
  · rfl

theorem ensure_grown (id : ℕ) (w : Node) (grp : String) {s : ℕ} {slot : Slot}
    (h : em.slots[s]? = some slot) : (ensureWeightSlot g em id w grp).2.slots[s]? = some slot := by
  unfold ensureWeightSlot
  split
  · exact h
  · exact getElem?_grown h

theorem operandSlot_of_node (em : Emitter) {k id : ℕ} {w : Node} (hid : od.inputs[k]? = some id)
    (hw : g.node id = some w) : operandSlot g em od k = ensureWeightSlot g em id w od.grouping := by
  unfold operandSlot
  rw [hid]
  dsimp only
  rw [hw]

theorem gamma_slot (h : Tidy g em) (hshape : Shaped g em od) :
    ∃ id, (opRmsnorm g em od).2.slots[(opRmsnorm g em od).1.wS]? =
      some ⟨.weight id, gamma g em od⟩ := by
  obtain ⟨id, w, hid, hw⟩ := hshape.weights
  have hem := tidy_afterInput h od
  obtain ⟨d, hd, -⟩ := ensure_slot hem id w od.grouping
  have hslot : (opRmsnorm g em od).2.slots[(opRmsnorm g em od).1.wS]? = some ⟨.weight id, d⟩ := by
    unfold opRmsnorm
    rw [operandSlot_of_node (afterInput g em od) hid hw]
    dsimp only
    unfold operandSlot
    split
    · exact hd
    · split
      · exact hd
      · exact ensure_grown _ _ _ hd
  refine ⟨id, ?_⟩
  rw [gamma, hslot]
  rfl

theorem bias_slot (h : Tidy g em) (hshape : Shaped g em od) :
    ∃ slot, (opRmsnorm g em od).2.slots[(opRmsnorm g em od).1.bS % 2 ^ 15]? = some slot ∧
      ((∃ id w, od.inputs[2]? = some id ∧ g.node id = some w ∧
          slot = ⟨.weight id, biasData g em od id w⟩) ∨
        ((∀ id, od.inputs[2]? = some id → g.node id = none) ∧
          if (afterInput g em od).dummySlotId = 0 then slot.use = .mainInput
          else slot = ⟨.dummy, List.replicate 64 0⟩)) := by
  obtain ⟨idw, ww, hidw, hww⟩ := hshape.weights
  have hem := (tidy_afterInput h od).ensure hww od.grouping
  have hsmall {s : ℕ} {slot : Slot} (hs : (opRmsnorm g em od).2.slots[s]? = some slot) :
      s % 2 ^ 15 = s := by
    obtain ⟨hlt, -⟩ := List.getElem?_eq_some_iff.mp hs
    have := hshape.slots
    exact Nat.mod_eq_of_lt (by omega)
  have hargs : opRmsnorm g em od =
      (⟨(ensureWeightSlot g (afterInput g em od) idw ww od.grouping).1,
        (operandSlot g (ensureWeightSlot g (afterInput g em od) idw ww od.grouping).2 od 2).1,
        u32 od.elems⟩,
        (operandSlot g (ensureWeightSlot g (afterInput g em od) idw ww od.grouping).2 od 2).2) := by
    unfold opRmsnorm
    rw [operandSlot_of_node (afterInput g em od) hidw hww]
  have hshared (hnone : ∀ id, od.inputs[2]? = some id → g.node id = none) :
      operandSlot g (ensureWeightSlot g (afterInput g em od) idw ww od.grouping).2 od 2 =
        ((afterInput g em od).dummySlotId,
          (ensureWeightSlot g (afterInput g em od) idw ww od.grouping).2) := by
    rw [← ensure_dummy g (afterInput g em od) idw ww od.grouping]
    unfold operandSlot
    split
    · rfl
    · rename_i id hid
      rw [hnone id hid]
  by_cases hnone : ∀ id, od.inputs[2]? = some id → g.node id = none
  · have hdummy := ensure_dummy g (afterInput g em od) idw ww od.grouping
    by_cases hzero : (afterInput g em od).dummySlotId = 0
    · obtain ⟨d, hd⟩ := hem.first
      refine ⟨⟨.mainInput, d⟩, ?_, .inr ⟨hnone, ?_⟩⟩
      · rw [hargs, hshared hnone, hzero]
        exact hd
      · rw [if_pos hzero]
    · have hslot := hem.dummy (by rwa [hdummy])
      rw [hdummy] at hslot
      have hslot' : (opRmsnorm g em od).2.slots[(opRmsnorm g em od).1.bS]? =
          some ⟨.dummy, List.replicate 64 0⟩ := by
        rw [hargs, hshared hnone]
        exact hslot
      refine ⟨⟨.dummy, List.replicate 64 0⟩, ?_, .inr ⟨hnone, ?_⟩⟩
      · rw [hsmall hslot']
        exact hslot'
      · rw [if_neg hzero]
  · push Not at hnone
    obtain ⟨id, hid, hnode⟩ := hnone
    obtain ⟨w, hw⟩ := Option.ne_none_iff_exists'.mp hnode
    obtain ⟨d, hd, hdata⟩ := ensure_slot hem id w od.grouping
    have hbias : d = biasData g em od id w := by
      rw [hdata, biasData, operandSlot_of_node (afterInput g em od) hidw hww]
    have hslot : (opRmsnorm g em od).2.slots[(opRmsnorm g em od).1.bS]? =
        some ⟨.weight id, biasData g em od id w⟩ := by
      rw [hargs, operandSlot_of_node _ hid hw, ← hbias]
      exact hd
    exact ⟨_, by rw [hsmall hslot]; exact hslot, .inl ⟨id, w, hid, hw, rfl⟩⟩

end Emission

/-! ### What is computed -/

section Execution

variable {F D : Type} (ops : FloatOps F D)

theorem execRmsnorm2_runs {slots : List Slot} {input : List UInt16} {args : RmsnormArgs} {x : Tensor}
    {s : Slot} {bias : Option (List UInt16)} {m : ℕ} (hw : slots[args.wS % 2 ^ 15]? = some s)
    (huse : s.use ≠ .mainInput) (hb : slotPtr slots input (args.bS % 2 ^ 15) = bias)
    (hwidth : 0 < s.data.length ∧ 2 * s.data.length < 2 ^ 32) (hn : args.n = m * s.data.length)
    (hfits : 2 * args.n < 2 ^ 32) (hx : x.count = args.n)
    (hlong : 0 < m → ∀ b, bias = some b → s.data.length ≤ b.length) (old : ℕ → UInt16) :
    ∃ y, execRmsnorm2 ops slots input args x old = .ok y ∧ ∀ r < m, ∀ i < s.data.length,
      y[r * s.data.length + i]? = some (rmsnormAt ops
        ((List.range s.data.length).map fun k => x.data.getD (r * s.data.length + k) 0)
        s.data bias i) := by
  generalize hrw : s.data.length = rw at *
  have hload {r i : ℕ} (hr : r < m) (hi : i < rw) :
      x.load (r * rw + i) = .ok (x.data.getD (r * rw + i) 0) := by
    apply entryAt_getD
    have hin : r * rw + i < m * rw := by
      calc r * rw + i < r * rw + rw := Nat.add_lt_add_left hi _
        _ = (r + 1) * rw := (Nat.succ_mul r rw).symm
        _ ≤ m * rw := Nat.mul_le_mul_right rw hr
    show r * rw + i < x.count
    omega
  have hptr : slotPtr slots input (args.wS % 2 ^ 15) = some s.data := by
    rw [slotPtr, hw, Option.map_some, if_neg huse]
  have hlen : (tempGet old (args.n * 2)).length = m * rw := by
    rw [length_tempGet_of_lt old hfits, hn]
  -- a row leaves its values in its own cells
  have hrow : ∀ r < m, ∀ z : List UInt16, z.length = (tempGet old (args.n * 2)).length →
      ∃ z', rmsnormRow ops x s.data bias rw z r = .ok z' ∧ z'.length = z.length ∧
        (∀ i < rw, z'[r * rw + i]? = some (rmsnormAt ops
          ((List.range rw).map fun k => x.data.getD (r * rw + k) 0) s.data bias i)) ∧
        ∀ j, j < r * rw ∨ (r + 1) * rw ≤ j → z'[j]? = z[j]? := by
    intro r hr z hz
    have hbelow : (r + 1) * rw ≤ m * rw := Nat.mul_le_mul_right rw hr
    rw [Nat.succ_mul] at hbelow
    have hsum : (List.range rw).foldlM (fun acc i =>
        (x.load (r * rw + i)).map fun h => ops.addSquare acc (ops.widen h)) ops.dzero =
          .ok ((List.range rw).foldl (fun acc i =>
            ops.addSquare acc (ops.widen (x.data.getD (r * rw + i) 0))) ops.dzero) := by
      apply foldlM_of_ok
      intro acc i hi
      rw [hload hr (List.mem_range.mp hi)]
      rfl
    have hcell : ∀ i ∈ List.range rw,
        rmsnormCell ops x s.data bias rw r (ops.rms ((List.range rw).foldl (fun acc i =>
          ops.addSquare acc (ops.widen (x.data.getD (r * rw + i) 0))) ops.dzero) rw) i =
          .ok (r * rw + i, rmsnormAt ops
            ((List.range rw).map fun k => x.data.getD (r * rw + k) 0) s.data bias i) := by
      intro i hi
      have hi := List.mem_range.mp hi
      have hrms : ((List.range rw).map fun k => x.data.getD (r * rw + k) 0).getD i 0 =
          x.data.getD (r * rw + i) 0 := by
        rw [List.getD_eq_getElem _ _ (by rwa [List.length_map, List.length_range]),
          List.getElem_map, List.getElem_range]
      have hweight : (entryAt s.data i : Checked String UInt16) = .ok (s.data.getD i 0) :=
        entryAt_getD (by omega) 0
      unfold rmsnormCell rmsnormAt
      rw [hload hr hi, List.foldl_map, List.length_map, List.length_range, hrms]
      show ((entryAt s.data i : Checked String UInt16) >>= _) = _
      rw [hweight]
      cases bias with
      | none => rfl
      | some b =>
        have hbias : (entryAt b i : Checked String UInt16) = .ok (b.getD i 0) :=
          entryAt_getD (Nat.lt_of_lt_of_le hi (hlong (Nat.zero_lt_of_lt hr) b rfl)) 0
        dsimp only
        show (((entryAt b i : Checked String UInt16).map ops.widen) >>= _) = _
        rw [hbias]
        rfl
    obtain ⟨z', hrun, hlen', hval, hrest⟩ := fillLoop_eq_ok (y := z) (fun i => r * rw + i) _ hcell
      (fun i hi => by
        have := List.mem_range.mp hi
        omega)
      (List.nodup_range.map fun i j hij => Nat.add_left_cancel hij)
    refine ⟨z', ?_, hlen', fun i hi => hval i (List.mem_range.mpr hi), fun j hj => hrest j ?_⟩
    · rw [rmsnormRow, hsum]
      exact hrun
    · rw [List.mem_map]
      rintro ⟨i, hi, rfl⟩
      have := List.mem_range.mp hi
      rw [Nat.succ_mul] at hj
      omega
  obtain ⟨y, hrun, -, hval⟩ := rowLoop_eq_ok _ _ hlen.ge hrow
  refine ⟨y, ?_, hval⟩
  have hbytes : u32 (2 * s.data.length) / 2 = rw := by
    rw [hrw, u32_of_lt hwidth.2, Nat.mul_div_cancel_left rw (by decide)]
  have hdiv : args.n / rw = m := by rw [hn, Nat.mul_div_cancel m hwidth.1]
  unfold execRmsnorm2
  rw [hb, hptr, hw]
  dsimp only
  rw [hbytes, if_neg (by rw [hn, Nat.mul_mod_left]; omega), hdiv]
  exact hrun

end Execution

/-! ### The main result -/

section Main

variable {F D : Type} {ops : FloatOps F D} {g : Graph} {em : Emitter} {od : RmsnormNode}

theorem operandOk_iff (h : Tidy g em) (hshape : Shaped g em od) :
    OperandOk (rowWidth g em od)
      ((opRmsnorm g em od).2.slots[(opRmsnorm g em od).1.bS % 2 ^ 15]?) (wantedBias g od) ↔
        OperandWhen g em od := by
  obtain ⟨slot, hslot, hcase⟩ := bias_slot h hshape
  have hpos := hshape.width.1
  rw [hslot, wantedBias]
  unfold OperandWhen
  cases hid : od.inputs[2]? with
  | none =>
    dsimp only
    show OperandOk (rowWidth g em od) (some slot) none ↔ _
    unfold OperandOk
    rcases hcase with ⟨id, w, hid', -⟩ | ⟨-, hshared⟩
    · cases hid.symm.trans hid'
    · by_cases hzero : (afterInput g em od).dummySlotId = 0
      · rw [if_pos hzero] at hshared
        refine iff_of_false ?_ fun hwhen => hwhen.1 hzero
        rintro (hnone | ⟨s, hs, huse, -⟩)
        · cases hnone
        · cases hs
          rw [hshared] at huse
          cases huse
      · rw [if_neg hzero] at hshared
        subst hshared
        constructor
        · rintro (hnone | ⟨s, hs, -, hle⟩)
          · cases hnone
          · cases hs
            rw [List.length_replicate] at hle
            exact ⟨hzero, hle⟩
        · rintro ⟨-, hle⟩
          refine .inr ⟨_, rfl, rfl, ?_⟩
          rwa [List.length_replicate]
  | some id =>
    cases hnode : g.node id with
    | none =>
      dsimp only
      rw [Option.map_some, hnode]
      refine iff_of_false ?_ fun hfalse => hfalse
      rintro ⟨s, -, -, hle, -⟩
      rw [Option.map_none, Option.getD_none, List.length_nil] at hle
      omega
    | some w =>
      dsimp only
      rw [Option.map_some, hnode]
      show OperandOk (rowWidth g em od) (some slot) (some (ownData g w)) ↔ _
      unfold OperandOk
      dsimp only
      rcases hcase with ⟨id', w', hid', hnode', rfl⟩ | ⟨hnone, -⟩
      · cases hid.symm.trans hid'
        cases hnode.symm.trans hnode'
        constructor
        · rintro ⟨s, hs, hle, hle', htake⟩
          cases hs
          exact ⟨hle', hle, htake⟩
        · rintro ⟨hle', hle, htake⟩
          exact ⟨_, rfl, hle, hle', htake⟩
      · rw [hnone id hid] at hnode
        cases hnode

theorem right_of_operand (hzero : ops.widen 0 = ops.zero) (h : Tidy g em) (hshape : Shaped g em od)
    (hok : od.elems ≠ 0 → OperandOk (rowWidth g em od)
      ((opRmsnorm g em od).2.slots[(opRmsnorm g em od).1.bS % 2 ^ 15]?) (wantedBias g od)) :
    Right ops g em od := by
  refine ⟨hok, fun later input x old hx => ?_⟩
  obtain ⟨idw, hweight⟩ := gamma_slot h hshape
  obtain ⟨slot, hslot, hcase⟩ := bias_slot h hshape
  have hwidth : 0 < (gamma g em od).length ∧ 2 * (gamma g em od).length < 2 ^ 32 := hshape.width
  have hfits := hshape.fits
  obtain ⟨m, hm⟩ := hshape.rows
  have hn : (opRmsnorm g em od).1.n = od.elems := u32_of_lt (by omega)
  have hsmall : (opRmsnorm g em od).1.wS % 2 ^ 15 = (opRmsnorm g em od).1.wS := by
    obtain ⟨hlt, -⟩ := List.getElem?_eq_some_iff.mp hweight
    have := hshape.slots
    exact Nat.mod_eq_of_lt (by omega)
  have hrows : od.elems / rowWidth g em od = m := by
    rw [hm, Nat.mul_div_cancel_left m hshape.width.1]
  have hptr : slotPtr ((opRmsnorm g em od).2.slots ++ later) input
      ((opRmsnorm g em od).1.bS % 2 ^ 15) =
        some (if slot.use = .mainInput then input else slot.data) := by
    rw [slotPtr, getElem?_grown hslot]
    rfl
  -- what is read as bias has an element for each place of a row, with the value that is wanted
  have hread : 0 < m →
      rowWidth g em od ≤ (if slot.use = .mainInput then input else slot.data).length ∧
        ∀ row, ∀ i < rowWidth g em od, rmsnormAt ops row (gamma g em od)
          (some (if slot.use = .mainInput then input else slot.data)) i =
            rmsnormAt ops row (gamma g em od) (wantedBias g od) i := by
    intro hmpos
    have hne : od.elems ≠ 0 := by
      rw [hm]
      exact (Nat.mul_pos hshape.width.1 hmpos).ne'
    have hwhen := (operandOk_iff h hshape).mp (hok hne)
    unfold OperandWhen at hwhen
    rcases hcase with ⟨id, w, hid, hnode, rfl⟩ | ⟨hnone, hshared⟩
    · rw [hid] at hwhen
      dsimp only at hwhen
      rw [hnode] at hwhen
      obtain ⟨hown, hdata, htake⟩ := hwhen
      rw [if_neg SlotUse.noConfusion]
      refine ⟨hdata, fun row i hi => ?_⟩
      have hsame : (biasData g em od id w).getD i 0 = (ownData g w).getD i 0 := by
        apply getD_of_getElem?
        rw [← List.getElem?_take_of_lt hi, htake, List.getElem?_take_of_lt hi]
      rw [wantedBias, hid, Option.map_some, hnode, Option.map_some, Option.getD_some]
      unfold rmsnormAt
      dsimp only
      rw [hsame]
    · cases hid : od.inputs[2]? with
      | some id =>
        rw [hid] at hwhen
        dsimp only at hwhen
        rw [hnone id hid] at hwhen
        exact hwhen.elim
      | none =>
        rw [hid] at hwhen
        rw [if_neg hwhen.1] at hshared
        subst hshared
        rw [if_neg SlotUse.noConfusion]
        refine ⟨by rw [List.length_replicate]; exact hwhen.2, fun row i hi => ?_⟩
        have hsame : (List.replicate 64 (0 : UInt16)).getD i 0 = 0 := by
          rw [List.getD_eq_getElem?_getD, List.getElem?_getD_replicate_default_eq]
        rw [wantedBias, hid, Option.map_none]
        unfold rmsnormAt
        dsimp only
        rw [hsame, hzero]
  have hweights : ((opRmsnorm g em od).2.slots ++ later)[(opRmsnorm g em od).1.wS % 2 ^ 15]? =
      some ⟨.weight idw, gamma g em od⟩ := by
    rw [hsmall]
    exact getElem?_grown hweight
  obtain ⟨y, hrun, hval⟩ := execRmsnorm2_runs ops hweights SlotUse.noConfusion hptr hwidth
    (by rw [hn, hm, Nat.mul_comm]; rfl) (by omega) (hx.trans hn.symm)
    (fun hmpos b hb => by
      cases hb
      exact (hread hmpos).1) old
  refine ⟨y, hrun, fun r hr i hi => ?_⟩
  rw [hrows] at hr
  rw [← (hread (Nat.zero_lt_of_lt hr)).2 _ i hi]
  exact hval r hr i hi

end Main

/-! ### Failing inputs -/

section Instance

def integers : FloatOps ℤ ℤ where
  widen h := h.toNat
  narrow v := UInt16.ofNat v.toNat
  zero := 0
  add := (· + ·)
  mul := (· * ·)
  div := (· / ·)
  dzero := 0
  addSquare acc v := acc + v * v
  rms _ _ := 1

theorem length_halves (data : List UInt16) : data.length = 4 * data.length / 4 :=
  (Nat.mul_div_cancel_left data.length (by decide)).symm

def constant (name : String) (data : List UInt16) : Node :=
  ⟨name, true, 4 * data.length, data, false, length_halves data⟩

def pairGraph : Graph where
  node id := if id = 1 then some (constant "gamma" [1, 1])
    else if id = 2 then some (constant "beta" [5, 6]) else none
  mainInputId := 0
  gguf := none

def withBias : RmsnormNode := ⟨[0, 1, 2], "norm", 4⟩

def withoutBias : RmsnormNode := ⟨[0, 1], "norm", 4⟩

/-- Before the operator with the bias, another one has read the input and taken the bias for itself. -/
def history : List Call := [.addSlot [3, 3], .srcRef 0, .weight 2 "other"]

theorem shaped_pair {calls : List Call} {od : RmsnormNode}
    (hod : calls = history ∧ od = withBias ∨ calls = [] ∧ od = withoutBias) :
    Shaped pairGraph (runCalls pairGraph [7, 8, 9, 10] calls) od := by
  have hwidth : rowWidth pairGraph (runCalls pairGraph [7, 8, 9, 10] calls) od = 2 := by
    obtain ⟨rfl, rfl⟩ | ⟨rfl, rfl⟩ := hod <;> rfl
  have hweight : od.inputs[1]? = some 1 ∧ od.elems = 4 ∧
      (opRmsnorm pairGraph (runCalls pairGraph [7, 8, 9, 10] calls) od).2.slots.length ≤ 6 := by
    obtain ⟨rfl, rfl⟩ | ⟨rfl, rfl⟩ := hod <;> decide
  exact
    { weights := ⟨1, _, hweight.1, rfl⟩
      width := by
        rw [hwidth]
        decide
      rows := by
        rw [hwidth, hweight.2.1]
        decide
      fits := by
        rw [hweight.2.1]
        decide
      slots := by
        have := hweight.2.2
        omega }

end Instance

end Gehtp.Analysis.RmsnormBias
