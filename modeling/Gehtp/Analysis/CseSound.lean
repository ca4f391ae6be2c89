import Mathlib.Algebra.Order.Ring.Nat
import Mathlib.Data.List.Induction
import Gehtp.Lib.Dataflow
import Gehtp.Model.Cse

/-!
# What common-subexpression elimination preserves

Merging one operator into another keeps all values if the two agree in everything that
their meaning depends on. The signature covers only a part of that: of the output
definition just the rank, the type and the first dimensions, of the tensor parameters
only which ones they are, and all of it through a 64-bit mix. The pass compares nothing
but the inputs again. Beside it stands a pass that compares the operators
themselves. The meaning of a graph is kept exactly if on the way of that pass the mix tells
operators of the same inputs apart, nothing that it leaves out differs, and the readers of a merged
operator are on its list.
-/

set_option autoImplicit false

namespace Gehtp.Analysis.CseSound

open Lib.Dataflow Model.OpGraph Model.Cse

/-! ### The meaning of a graph -/

/-- What the value of an operator may depend on besides its inputs. For one that may be
merged: its type, tensor parameters, data and output definition; any other one may have
a meaning of its own. -/
inductive OpLabel where
  | shared (nameTag : Option String) (tensorParamIds : List ℕ) (opData : List UInt8)
      (outputDef : OutputDef)
  | own (id : ℕ)
  deriving DecidableEq

def labelOf (cfg : CseConfig) (id : ℕ) (od : OpDef) : OpLabel :=
  if candidate cfg id od then .shared od.nameTag od.tensorParamIds od.opData od.outputDef
  else .own id

/-- An operator as a node. One that is not enabled is not run, and reads nothing. -/
def nodeOf (cfg : CseConfig) (id : ℕ) (od : OpDef) : Node OpLabel :=
  ⟨labelOf cfg id od, if od.isEnabled then od.inputs.map fun c => (c.srcId, c.outIdx) else []⟩

/-- The dataflow graph of the operators. -/
def dataflow (cfg : CseConfig) (g : OpMap) (id : ℕ) : Option (Node OpLabel) :=
  (g.getOpAt id).map (nodeOf cfg id)

/-- Two operators of the same type, inputs, tensor parameters, data and output definition. -/
structure SameOp (a b : OpDef) : Prop where
  nameTag : a.nameTag = b.nameTag
  inputs : a.inputs = b.inputs
  tensorParamIds : a.tensorParamIds = b.tensorParamIds
  opData : a.opData = b.opData
  outputDef : a.outputDef = b.outputDef

instance (a b : OpDef) : Decidable (SameOp a b) :=
  decidable_of_iff (a.nameTag = b.nameTag ∧ a.inputs = b.inputs ∧
    a.tensorParamIds = b.tensorParamIds ∧ a.opData = b.opData ∧ a.outputDef = b.outputDef)
    ⟨fun h => ⟨h.1, h.2.1, h.2.2.1, h.2.2.2.1, h.2.2.2.2⟩,
      fun h => ⟨h.nameTag, h.inputs, h.tensorParamIds, h.opData, h.outputDef⟩⟩

/-- What the signature is mixed from besides the inputs. -/
structure Mixed where
  nameTag : Option String
  tensorParams : List ℕ
  opData : List UInt8
  rank : ℕ
  dtype : ℕ
  shape : List ℕ
  deriving DecidableEq

def mixed (od : OpDef) : Mixed :=
  ⟨od.nameTag, od.tensorParamIds.insertionSort (· ≤ ·), od.opData, od.outputDef.rank,
    od.outputDef.dtype, od.outputDef.shape⟩

/-- What it leaves out: the order of the tensor parameters, and the rest of the output
definition. -/
structure Unmixed where
  tensorParamIds : List ℕ
  flags : ℕ
  quantParams : ℕ
  dims : Vector ℕ 5
  elementSize : ℕ
  quantScale : ℕ
  quantOffset : ℕ
  extra : Vector ℕ 3
  deriving DecidableEq

def unmixed (od : OpDef) : Unmixed :=
  ⟨od.tensorParamIds, od.outputDef.flags, od.outputDef.quantParams, od.outputDef.dims,
    od.outputDef.elementSize, od.outputDef.quantScale, od.outputDef.quantOffset,
    od.outputDef.extra⟩

/-- The inputs, what is mixed and what is left out make up the operator. -/
theorem sameOp_iff {a b : OpDef} :
    SameOp a b ↔ a.inputs = b.inputs ∧ mixed a = mixed b ∧ unmixed a = unmixed b := by
  constructor
  · rintro ⟨hname, hinputs, htp, hdata, hdef⟩
    simp only [mixed, unmixed, hname, hinputs, htp, hdata, hdef, and_self]
  · rintro ⟨hinputs, hmixed, hunmixed⟩
    unfold mixed at hmixed
    unfold unmixed at hunmixed
    rw [Mixed.mk.injEq] at hmixed
    rw [Unmixed.mk.injEq] at hunmixed
    obtain ⟨hname, -, hdata, hrank, hdtype, -⟩ := hmixed
    obtain ⟨htp, hflags, hqp, hdims, hes, hqs, hqo, hextra⟩ := hunmixed
    refine ⟨hname, hinputs, htp, hdata, ?_⟩
    cases ha : a.outputDef
    cases hb : b.outputDef
    simp_all

/-- The signature sees the inputs and what is mixed. -/
theorem computeSignature_congr {a b : OpDef} (hinputs : a.inputs = b.inputs)
    (hmixed : mixed a = mixed b) : computeSignature a = computeSignature b := by
  unfold mixed at hmixed
  rw [Mixed.mk.injEq] at hmixed
  obtain ⟨hname, htp, hdata, hrank, hdtype, hshape⟩ := hmixed
  have hhash : hashKey a = hashKey b := by
    unfold hashKey
    rw [hname]
  simp only [computeSignature, hhash, hinputs, htp, hdata, hrank, hdtype, hshape]

theorem candidate_isEnabled {cfg : CseConfig} {id : ℕ} {od : OpDef}
    (h : candidate cfg id od = true) : od.isEnabled = true := by
  simp only [candidate, Bool.and_eq_true] at h
  exact h.1.1.1.1.1

theorem SameOp.nodeOf_eq {cfg : CseConfig} {a b : OpDef} {i j : ℕ} (h : SameOp a b)
    (ha : candidate cfg i a = true) (hb : candidate cfg j b = true) :
    nodeOf cfg i a = nodeOf cfg j b := by
  simp only [nodeOf, labelOf, ha, hb, if_true, candidate_isEnabled ha, candidate_isEnabled hb,
    h.nameTag, h.inputs, h.tensorParamIds, h.opData, h.outputDef]

/-! ### One merge -/

/-- An operator after `a` has taken the place of `b` in the operators `l`. -/
def redirected (ops : OpMap) (b a : ℕ) (l : List ℕ) (id : ℕ) (od : OpDef) : OpDef :=
  { od with
    inputs := if id ∈ l then od.inputs.map (redirectInput b a) else od.inputs
    consumers :=
      if id = a then od.consumers ++ l.filter fun c => (ops.getOpAt c).isSome
      else od.consumers }

theorem redirectInput_idem {b a : ℕ} (hab : a ≠ b) (c : InputConn) :
    redirectInput b a (redirectInput b a c) = redirectInput b a c := by
  unfold redirectInput
  by_cases hc : c.srcId = b
  · simp [hc, hab]
  · simp [hc]

theorem redirectConsumer_getOpAt (ops : OpMap) (b a c id : ℕ) :
    (redirectConsumer b a ops c).getOpAt id =
      (ops.getOpAt id).map (redirected ops b a [c] id) := by
  unfold redirectConsumer
  cases hc : ops.getOpAt c with
  | none =>
    simp only [Option.isSome_none, Bool.false_eq_true, if_false]
    cases hid : ops.getOpAt id with
    | none => rfl
    | some od =>
      have hne : id ≠ c := by
        rintro rfl
        rw [hc] at hid
        cases hid
      simp [redirected, hc, hne]
  | some odc =>
    simp only [Option.isSome_some, if_true, OpMap.modify]
    cases hid : ops.getOpAt id with
    | none => simp
    | some od =>
      simp only [redirected, List.mem_singleton, List.filter_cons, List.filter_nil, hc,
        Option.isSome_some, if_true, Option.map_some]
      split_ifs <;> rfl

theorem redirected_cons {ops ops' : OpMap} {b a : ℕ} (hab : a ≠ b)
    (hsome : ∀ c, (ops'.getOpAt c).isSome = (ops.getOpAt c).isSome) (c : ℕ) (l : List ℕ) (id : ℕ)
    (od : OpDef) :
    redirected ops' b a l id (redirected ops b a [c] id od) = redirected ops b a (c :: l) id od := by
  have hinputs : (od.inputs.map (redirectInput b a)).map (redirectInput b a) =
      od.inputs.map (redirectInput b a) := by
    rw [List.map_map]
    apply List.map_congr_left
    intro x _
    exact redirectInput_idem hab x
  unfold redirected
  simp only [hsome, List.mem_cons, OpDef.mk.injEq, true_and, and_true]
  constructor
  · by_cases h1 : id = c <;> by_cases h2 : id ∈ l <;> simp only [h1, h2, if_true, if_false,
      true_or, or_true, or_false, hinputs]
    all_goals simp_all
  · by_cases h1 : id = a
    · simp only [h1, if_true, List.append_assoc, List.filter_cons, List.filter_nil]
      split <;> simp
    · simp only [h1, if_false]

theorem foldl_redirectConsumer {b a : ℕ} (hab : a ≠ b) (l : List ℕ) (ops : OpMap) (id : ℕ) :
    (l.foldl (redirectConsumer b a) ops).getOpAt id =
      (ops.getOpAt id).map (redirected ops b a l id) := by
  induction l generalizing ops with
  | nil =>
    cases hid : ops.getOpAt id with
    | none => simp [hid]
    | some od => simp [hid, redirected]
  | cons c l ih =>
    have hsome : ∀ x, ((redirectConsumer b a ops c).getOpAt x).isSome =
        (ops.getOpAt x).isSome := by
      intro x
      rw [redirectConsumer_getOpAt, Option.isSome_map]
    rw [List.foldl_cons, ih, redirectConsumer_getOpAt, Option.map_map]
    congr 1
    funext od
    exact redirected_cons hab hsome c l id od

@[simp] theorem candidate_redirected (cfg : CseConfig) (ops : OpMap) (b a : ℕ) (l : List ℕ)
    (i id : ℕ) (od : OpDef) :
    candidate cfg i (redirected ops b a l id od) = candidate cfg i od := rfl

@[simp] theorem isEnabled_redirected (ops : OpMap) (b a : ℕ) (l : List ℕ) (id : ℕ) (od : OpDef) :
    (redirected ops b a l id od).isEnabled = od.isEnabled := rfl

theorem mem_redirected_inputs {ops : OpMap} {b a : ℕ} {l : List ℕ} {id : ℕ} {od : OpDef}
    {c : InputConn} (hc : c ∈ (redirected ops b a l id od).inputs) :
    (c.srcId = a ∧ id ∈ l) ∨ (c ∈ od.inputs ∧ (c.srcId = b → id ∉ l)) := by
  simp only [redirected] at hc
  split at hc
  · rename_i hid
    obtain ⟨c', hc', rfl⟩ := List.mem_map.mp hc
    unfold redirectInput
    by_cases hb : c'.srcId = b
    · simp [hb, hid]
    · simp [hb, hc']
  · rename_i hid
    exact .inr ⟨hc, fun _ => hid⟩

/-- Inputs from another operator stay. -/
theorem mem_redirected_of_ne {ops : OpMap} {b a : ℕ} {l : List ℕ} {id : ℕ} {od : OpDef}
    {c : InputConn} (hc : c ∈ od.inputs) (hne : c.srcId ≠ b) :
    c ∈ (redirected ops b a l id od).inputs := by
  simp only [redirected]
  split
  · exact List.mem_map.mpr ⟨c, hc, if_neg hne⟩
  · exact hc

theorem nodeOf_redirected (cfg : CseConfig) (ops : OpMap) (b a : ℕ) (l : List ℕ) (id : ℕ)
    (od : OpDef) :
    ∃ f : ℕ × ℕ → ℕ × ℕ,
      nodeOf cfg id (redirected ops b a l id od) =
          ⟨(nodeOf cfg id od).label, (nodeOf cfg id od).args.map f⟩ ∧
        ∀ p, f p = p ∨ (p.1 = b ∧ f p = (a, p.2)) := by
  by_cases hid : id ∈ l
  · refine ⟨fun p => if p.1 = b then (a, p.2) else p, ?_, ?_⟩
    · simp only [nodeOf, isEnabled_redirected, Node.mk.injEq]
      constructor
      · rfl
      · by_cases hen : od.isEnabled = true
        · simp only [hen, redirected, hid, if_true, List.map_map]
          apply List.map_congr_left
          intro c _
          simp only [Function.comp_apply, redirectInput]
          split <;> rfl
        · simp [hen]
    · intro p
      by_cases hp : p.1 = b
      · exact .inr ⟨hp, by simp [hp]⟩
      · exact .inl (by simp [hp])
  · refine ⟨fun p => p, ?_, fun p => .inl rfl⟩
    simp [nodeOf, labelOf, redirected, hid, candidate, OpDef.isEnabled, OpDef.isConst, OpDef.isDead]

/-! ### The walk -/

/-- What the map and the list of the removed ones hold after the entries `seen`. -/
structure Kept (cfg : CseConfig) (seen : List ℕ) (s : CseState) : Prop where
  kept : ∀ sig a, s.cseMap sig = some a →
    a ∈ seen ∧ a ∉ s.toRemove ∧ ∃ od, s.ops.getOpAt a = some od ∧ candidate cfg a od = true
  removed : ∀ b ∈ s.toRemove, b ∈ seen ∧ (s.ops.getOpAt b).isSome = true

/-- What else holds if all merges so far were of the same operators with their readers listed. -/
structure WalkInv (cfg : CseConfig) (g : OpMap) (seen : List ℕ) (s : CseState) : Prop
    extends Kept cfg seen s where
  unread : ∀ r od, s.ops.getOpAt r = some od → od.isEnabled = true → r ∉ s.toRemove →
    ∀ c ∈ od.inputs, c.srcId ∉ s.toRemove
  values : ∀ (V : Type) (m : Meaning OpLabel V) (n id : ℕ),
    value m (dataflow cfg s.ops) n id = value m (dataflow cfg g) n id

theorem mergeAt_eq_some {cfg : CseConfig} {s : CseState} {id : ℕ} {od existing : OpDef} :
    mergeAt cfg s id = some (od, existing) ↔
      s.ops.getOpAt id = some od ∧ candidate cfg id od = true ∧
        (∃ a, s.cseMap (computeSignature od) = some a ∧ s.ops.getOpAt a = some existing) ∧
        existing.inputs = od.inputs := by
  unfold mergeAt
  cases hid : s.ops.getOpAt id with
  | none => simp
  | some od' =>
    by_cases hc : candidate cfg id od' = true
    · simp only [hc, if_true]
      cases hb : (s.cseMap (computeSignature od')).bind s.ops.getOpAt with
      | none =>
        simp only [reduceCtorEq, false_iff, not_and]
        rintro h _ ⟨a, ha, hex⟩ _
        obtain rfl := Option.some.inj h
        simp [ha, hex] at hb
      | some ex =>
        obtain ⟨a, ha, hex⟩ := Option.bind_eq_some_iff.mp hb
        dsimp only
        constructor
        · intro h
          split at h
          · rename_i heq
            obtain ⟨rfl, rfl⟩ := Prod.mk.inj (Option.some.inj h)
            exact ⟨rfl, hc, ⟨a, ha, hex⟩, heq⟩
          · cases h
        · rintro ⟨h, _, ⟨a', ha', hex'⟩, heq⟩
          obtain rfl := Option.some.inj h
          obtain rfl : a = a' := Option.some.inj (ha.symm.trans ha')
          obtain rfl : ex = existing := Option.some.inj (hex.symm.trans hex')
          simp [heq]
    · simp only [hc]
      simp only [Bool.false_eq_true, if_false, reduceCtorEq, false_iff, not_and]
      rintro h hc'
      obtain rfl := Option.some.inj h
      exact absurd hc' hc

section Supersede

variable {cfg : CseConfig} {g : OpMap} {seen : List ℕ} {s : CseState} {b a : ℕ} {od existing : OpDef}

/-- What a merge reads: a candidate `od` with the id `b`, and the kept `existing` with
the id `a`, which has the same inputs. -/
structure MergeOf (cfg : CseConfig) (s : CseState) (b a : ℕ) (od existing : OpDef) : Prop where
  at_b : s.ops.getOpAt b = some od
  candidate_b : candidate cfg b od = true
  at_a : s.ops.getOpAt a = some existing
  candidate_a : candidate cfg a existing = true
  kept : a ∉ s.toRemove
  ne : a ≠ b
  inputs : existing.inputs = od.inputs

theorem Kept.mergeOf (h : Kept cfg seen s) {id : ℕ} (hid : id ∉ seen)
    (hm : mergeAt cfg s id = some (od, existing)) : ∃ a, MergeOf cfg s id a od existing := by
  obtain ⟨hod, hcand, ⟨a, ha, hex⟩, hinputs⟩ := mergeAt_eq_some.mp hm
  obtain ⟨hseen, hkept, ex, hex', hcanda⟩ := h.kept _ a ha
  obtain rfl : ex = existing := Option.some.inj (hex'.symm.trans hex)
  exact ⟨a, hod, hcand, hex, hcanda, hkept, fun he => hid (he ▸ hseen), hinputs⟩

theorem MergeOf.toRemove_supersede (hm : MergeOf cfg s b a od existing) :
    (supersede s od existing.opId).toRemove = s.toRemove ++ [b] := by
  rw [supersede, s.ops.keyed b od hm.at_b]

theorem MergeOf.supersede_getOpAt (hm : MergeOf cfg s b a od existing) (id : ℕ) :
    (supersede s od existing.opId).ops.getOpAt id =
      (s.ops.getOpAt id).map (redirected s.ops b a od.consumers id) := by
  rw [supersede, s.ops.keyed b od hm.at_b, s.ops.keyed a existing hm.at_a]
  exact foldl_redirectConsumer hm.ne od.consumers s.ops id

theorem MergeOf.value_supersede (hm : MergeOf cfg s b a od existing) (hsame : SameOp existing od)
    {V : Type} (m : Meaning OpLabel V) (n id : ℕ) :
    value m (dataflow cfg (supersede s od existing.opId).ops) n id =
      value m (dataflow cfg s.ops) n id := by
  have hnode : nodeOf cfg a existing = nodeOf cfg b od :=
    hsame.nodeOf_eq hm.candidate_a hm.candidate_b
  have ha : dataflow cfg s.ops a = some (nodeOf cfg b od) := by
    rw [dataflow, hm.at_a, Option.map_some, hnode]
  have hb : dataflow cfg s.ops b = some (nodeOf cfg b od) := by
    rw [dataflow, hm.at_b, Option.map_some]
  apply value_redirect m (value_eq_of_node_eq m (dataflow cfg s.ops) ha hb)
  · intro i hi
    have hnone : s.ops.getOpAt i = none := Option.map_eq_none_iff.mp hi
    rw [dataflow, hm.supersede_getOpAt, hnone]
    rfl
  · intro i nd hi
    obtain ⟨odi, hodi, rfl⟩ := Option.map_eq_some_iff.mp hi
    obtain ⟨f, hf, hfp⟩ := nodeOf_redirected cfg s.ops b a od.consumers i odi
    refine ⟨f, ?_, fun p _ => hfp p⟩
    rw [dataflow, hm.supersede_getOpAt, hodi, Option.map_some, Option.map_some, hf]

theorem Kept.supersede (h : Kept cfg seen s) (hm : MergeOf cfg s b a od existing)
    (hb : b ∉ seen) : Kept cfg (seen ++ [b]) (supersede s od existing.opId) where
  kept := by
    intro sig x hx
    obtain ⟨hseen, hremain, odx, hodx, hcand⟩ := h.kept sig x hx
    refine ⟨List.mem_append_left _ hseen, ?_, redirected s.ops b a od.consumers x odx, ?_, ?_⟩
    · rw [hm.toRemove_supersede, List.mem_append, List.mem_singleton]
      rintro (hmem | rfl)
      · exact hremain hmem
      · exact hb hseen
    · rw [hm.supersede_getOpAt, hodx, Option.map_some]
    · exact hcand
  removed := by
    intro x hx
    rw [hm.toRemove_supersede, List.mem_append, List.mem_singleton] at hx
    rw [hm.supersede_getOpAt, Option.isSome_map, List.mem_append, List.mem_singleton]
    rcases hx with hx | rfl
    · exact ⟨.inl (h.removed x hx).1, (h.removed x hx).2⟩
    · exact ⟨.inr rfl, by rw [hm.at_b]; rfl⟩

/-- The readers of the operator `b` that are run and not removed are on the list `l`. -/
def ReadersListed (s : CseState) (b : ℕ) (l : List ℕ) : Prop :=
  ∀ r ≠ b, r ∉ s.toRemove → ∀ odr, s.ops.getOpAt r = some odr → odr.isEnabled = true →
    ∀ c ∈ odr.inputs, c.srcId = b → r ∈ l

theorem WalkInv.supersede (h : WalkInv cfg g seen s) (hm : MergeOf cfg s b a od existing)
    (hsame : SameOp existing od) (hlisted : ReadersListed s b od.consumers) (hb : b ∉ seen) :
    WalkInv cfg g (seen ++ [b]) (supersede s od existing.opId) where
  toKept := h.toKept.supersede hm hb
  unread := by
    intro r odr hr hen hremain c hc
    rw [hm.toRemove_supersede, List.mem_append, List.mem_singleton, not_or] at hremain ⊢
    rw [hm.supersede_getOpAt] at hr
    obtain ⟨old, hold, rfl⟩ := Option.map_eq_some_iff.mp hr
    rcases mem_redirected_inputs hc with ⟨hca, -⟩ | ⟨hcold, hnot⟩
    · rw [hca]
      exact ⟨hm.kept, hm.ne⟩
    · refine ⟨h.unread r old hold hen hremain.1 c hcold, fun hcb => hnot hcb ?_⟩
      exact hlisted r hremain.2 hremain.1 old hold hen c hcold hcb
  values := by
    intro V m n id
    rw [hm.value_supersede hsame, h.values]

/-- Complete consumer lists stay complete. -/
theorem MergeOf.listed_supersede (hm : MergeOf cfg s b a od existing)
    (hlisted : ConsumersListed s.ops) :
    ConsumersListed (supersede s od existing.opId).ops := by
  intro r odr hr hen c hc src hsrc
  rw [hm.supersede_getOpAt] at hr hsrc
  obtain ⟨old, hold, rfl⟩ := Option.map_eq_some_iff.mp hr
  obtain ⟨src', hsrc', rfl⟩ := Option.map_eq_some_iff.mp hsrc
  rcases mem_redirected_inputs hc with ⟨hca, hrl⟩ | ⟨hcold, -⟩
  · -- a redirected reader has just been appended
    simp [redirected, hca, hrl, hold]
  · have hin := hlisted r old hold hen c hcold src' hsrc'
    simp only [redirected]
    split
    · exact List.mem_append_left _ hin
    · exact hin

/-- An operator that is run and remains reads the operator `b`. -/
def ReadsRemoved (s : CseState) (b : ℕ) : Prop :=
  b ∈ s.toRemove ∧ ∃ r odr, s.ops.getOpAt r = some odr ∧ odr.isEnabled = true ∧ r ∉ s.toRemove ∧
    ∃ c ∈ odr.inputs, c.srcId = b

/-- A reader that is not on the list goes on reading. -/
theorem MergeOf.readsRemoved (hm : MergeOf cfg s b a od existing)
    (hnot : ¬ ReadersListed s b od.consumers) :
    ReadsRemoved (Model.Cse.supersede s od existing.opId) b := by
  unfold ReadersListed at hnot
  push Not at hnot
  obtain ⟨r, hrb, hremain, odr, hodr, hen, c, hc, hcb, hlist⟩ := hnot
  refine ⟨?_, r, redirected s.ops b a od.consumers r odr, ?_, hen, ?_, c, ?_, hcb⟩
  · rw [hm.toRemove_supersede]
    simp
  · rw [hm.supersede_getOpAt, hodr, Option.map_some]
  · rw [hm.toRemove_supersede, List.mem_append, List.mem_singleton, not_or]
    exact ⟨hremain, hrb⟩
  · simp only [redirected, if_neg hlist]
    exact hc

/-- If the reader is merged away, the operator in its place reads the same. -/
theorem ReadsRemoved.supersede {x : ℕ} (h : ReadsRemoved s x) (hk : Kept cfg seen s)
    (hm : MergeOf cfg s b a od existing) (hb : b ∉ seen) :
    ReadsRemoved (Model.Cse.supersede s od existing.opId) x := by
  obtain ⟨hx, r, odr, hodr, hen, hremain, c, hc, hcx⟩ := h
  have hne : c.srcId ≠ b := by
    rintro rfl
    exact hb (hcx ▸ (hk.removed x hx).1)
  unfold ReadsRemoved
  simp only [hm.toRemove_supersede, List.mem_append, List.mem_singleton, not_or,
    hm.supersede_getOpAt]
  refine ⟨.inl hx, ?_⟩
  by_cases hrb : r = b
  · subst hrb
    obtain rfl : od = odr := Option.some.inj (hm.at_b.symm.trans hodr)
    refine ⟨a, redirected s.ops r a od.consumers a existing, by rw [hm.at_a]; rfl,
      candidate_isEnabled hm.candidate_a, ⟨hm.kept, hm.ne⟩, c, ?_, hcx⟩
    exact mem_redirected_of_ne (hm.inputs ▸ hc) hne
  · exact ⟨r, redirected s.ops b a od.consumers r odr, by rw [hodr]; rfl, hen, ⟨hremain, hrb⟩, c,
      mem_redirected_of_ne hc hne, hcx⟩

end Supersede

/-! ### The visits -/

section Visits

variable {cfg : CseConfig} {g : OpMap} {seen : List ℕ} {s : CseState} {id : ℕ}

theorem keep_ops : (keep cfg s id).ops = s.ops := by
  unfold keep
  split
  · rfl
  · split <;> rfl

theorem keep_toRemove : (keep cfg s id).toRemove = s.toRemove := by
  unfold keep
  split
  · rfl
  · split <;> rfl

theorem Kept.keep (h : Kept cfg seen s) (hid : id ∉ seen) :
    Kept cfg (seen ++ [id]) (keep cfg s id) where
  kept := by
    have hold : ∀ sig a, s.cseMap sig = some a → a ∈ seen ++ [id] ∧ a ∉ s.toRemove ∧
        ∃ od, s.ops.getOpAt a = some od ∧ candidate cfg a od = true := fun sig a ha =>
      ⟨List.mem_append_left _ (h.kept sig a ha).1, (h.kept sig a ha).2⟩
    intro sig a ha
    rw [keep_ops, keep_toRemove]
    unfold Model.Cse.keep at ha
    cases hod : s.ops.getOpAt id with
    | none =>
      rw [hod] at ha
      exact hold sig a ha
    | some od =>
      rw [hod] at ha
      dsimp only at ha
      split at ha
      · rename_i hc
        rw [Bool.and_eq_true] at hc
        dsimp only at ha
        by_cases hsig : sig = computeSignature od
        · subst hsig
          rw [Function.update_self, s.ops.keyed id od hod] at ha
          obtain rfl := Option.some.inj ha
          exact ⟨by simp, fun hr => hid (h.removed _ hr).1, od, hod, hc.1⟩
        · rw [Function.update_of_ne hsig] at ha
          exact hold sig a ha
      · exact hold sig a ha
  removed := by
    intro b hb
    rw [keep_toRemove] at hb
    rw [keep_ops]
    exact ⟨List.mem_append_left _ (h.removed b hb).1, (h.removed b hb).2⟩

theorem WalkInv.keep (h : WalkInv cfg g seen s) (hid : id ∉ seen) :
    WalkInv cfg g (seen ++ [id]) (keep cfg s id) where
  toKept := h.toKept.keep hid
  unread := by
    rw [keep_ops, keep_toRemove]
    exact h.unread
  values := by
    rw [keep_ops]
    exact h.values

theorem Kept.visit (h : Kept cfg seen s) (hid : id ∉ seen) :
    Kept cfg (seen ++ [id]) (visit cfg s id) := by
  unfold Model.Cse.visit
  cases hm : mergeAt cfg s id with
  | none => exact h.keep hid
  | some p =>
    obtain ⟨a, hmerge⟩ := h.mergeOf hid hm
    exact h.supersede hmerge hid

theorem ReadsRemoved.visit {x : ℕ} (h : ReadsRemoved s x) (hk : Kept cfg seen s)
    (hid : id ∉ seen) : ReadsRemoved (visit cfg s id) x := by
  unfold Model.Cse.visit
  cases hm : mergeAt cfg s id with
  | none =>
    unfold ReadsRemoved
    rw [keep_ops, keep_toRemove]
    exact h
  | some p =>
    obtain ⟨a, hmerge⟩ := hk.mergeOf hid hm
    exact h.supersede hk hmerge hid

theorem walk_concat (cfg : CseConfig) (g : OpMap) (pre : List ℕ) (id : ℕ) :
    walk cfg g (pre ++ [id]) = visit cfg (walk cfg g pre) id := by
  simp [walk]

theorem notMem_of_nodup {keys pre post : List ℕ} (hkeys : keys.Nodup)
    (heq : keys = pre ++ id :: post) : id ∉ pre := by
  rw [heq, List.nodup_append] at hkeys
  exact fun hmem => hkeys.2.2 id hmem id List.mem_cons_self rfl

theorem kept_walk (hkeys : cfg.keys.Nodup) (pre post : List ℕ) (heq : cfg.keys = pre ++ post) :
    Kept cfg pre (walk cfg g pre) := by
  induction pre using List.reverseRecOn generalizing post with
  | nil => exact ⟨fun sig a ha => by simp [walk] at ha, fun b hb => by simp [walk] at hb⟩
  | append_singleton pre id ih =>
    have heq' : cfg.keys = pre ++ id :: post := by simpa using heq
    rw [walk_concat]
    exact (ih (id :: post) heq').visit (notMem_of_nodup hkeys heq')

/-- A removed operator that is read stays so to the end of the walk. -/
theorem readsRemoved_walk (hkeys : cfg.keys.Nodup) {x : ℕ} {pre : List ℕ} (post : List ℕ)
    (heq : cfg.keys = pre ++ post) (h : ReadsRemoved (walk cfg g pre) x) :
    ReadsRemoved (walk cfg g cfg.keys) x := by
  induction post generalizing pre with
  | nil =>
    rw [heq, List.append_nil]
    exact h
  | cons id post ih =>
    have heq' : cfg.keys = (pre ++ [id]) ++ post := by simpa using heq
    apply ih heq'
    rw [walk_concat]
    exact h.visit (kept_walk hkeys pre (id :: post) heq) (notMem_of_nodup hkeys heq)

/-- The pass merges the operator `b` into the operator `a`. -/
def MergedInto (cfg : CseConfig) (g : OpMap) (b a : OpDef) : Prop :=
  ∃ pre id post, cfg.keys = pre ++ id :: post ∧ mergeAt cfg (walk cfg g pre) id = some (b, a)

end Visits

/-! ### A pass that compares the operators -/

/-- The visit of a pass that merges an operator only into the same one. -/
def carefulVisit (cfg : CseConfig) (s : CseState) (id : ℕ) : CseState :=
  match mergeAt cfg s id with
  | some (od, existing) => if SameOp existing od then supersede s od existing.opId else s
  | none => keep cfg s id

def carefulWalk (cfg : CseConfig) (ops : OpMap) (l : List ℕ) : CseState :=
  l.foldl (carefulVisit cfg) ⟨ops, fun _ => none, []⟩

/-- An operator `od` at `id`, and the one of the same inputs that is kept under its signature:
the mix has told the two apart if they differ in what is mixed, they do not differ in what is left
out, and the readers of `od` are on its list. -/
structure Decides (s : CseState) (id : ℕ) (od existing : OpDef) : Prop where
  mixed_eq : mixed existing = mixed od
  unmixed_eq : unmixed existing = unmixed od
  listed : ReadersListed s id od.consumers

/-- The signature and the inputs decide all along the pass that compares the operators. -/
def SignaturesDecide (cfg : CseConfig) (g : OpMap) : Prop :=
  ∀ pre id post, cfg.keys = pre ++ id :: post → ∀ od a existing,
    (carefulWalk cfg g pre).ops.getOpAt id = some od → candidate cfg id od = true →
    (carefulWalk cfg g pre).cseMap (computeSignature od) = some a →
    (carefulWalk cfg g pre).ops.getOpAt a = some existing → existing.inputs = od.inputs →
    Decides (carefulWalk cfg g pre) id od existing

section Careful

variable {cfg : CseConfig} {g : OpMap}

theorem SignaturesDecide.decides (h : SignaturesDecide cfg g) {pre post : List ℕ} {id : ℕ}
    (heq : cfg.keys = pre ++ id :: post) {od existing : OpDef}
    (hm : mergeAt cfg (carefulWalk cfg g pre) id = some (od, existing)) :
    Decides (carefulWalk cfg g pre) id od existing := by
  obtain ⟨hod, hcand, ⟨a, ha, hex⟩, hinputs⟩ := mergeAt_eq_some.mp hm
  exact h pre id post heq od a existing hod hcand ha hex hinputs

theorem Decides.sameOp {s : CseState} {id : ℕ} {od existing : OpDef}
    (h : Decides s id od existing) (hm : mergeAt cfg s id = some (od, existing)) :
    SameOp existing od :=
  sameOp_iff.mpr ⟨(mergeAt_eq_some.mp hm).2.2.2, h.mixed_eq, h.unmixed_eq⟩

/-- As long as the merges are of the same operators, the two passes go the same way. -/
theorem carefulWalk_eq_walk (h : ∀ pre id post, cfg.keys = pre ++ id :: post →
      carefulWalk cfg g pre = walk cfg g pre → ∀ od existing,
        mergeAt cfg (walk cfg g pre) id = some (od, existing) → SameOp existing od)
    (pre post : List ℕ) (heq : cfg.keys = pre ++ post) :
    carefulWalk cfg g pre = walk cfg g pre := by
  induction pre using List.reverseRecOn generalizing post with
  | nil => rfl
  | append_singleton pre id ih =>
    have heq' : cfg.keys = pre ++ id :: post := by simpa using heq
    have hpre := ih (id :: post) heq'
    have hconcat : carefulWalk cfg g (pre ++ [id]) =
        carefulVisit cfg (carefulWalk cfg g pre) id := by simp [carefulWalk]
    rw [hconcat, walk_concat, hpre]
    unfold carefulVisit Model.Cse.visit
    cases hm : mergeAt cfg (walk cfg g pre) id with
    | none => rfl
    | some p => exact if_pos (h pre id post heq' hpre p.1 p.2 hm)

theorem SignaturesDecide.carefulWalk_eq (h : SignaturesDecide cfg g) (pre post : List ℕ)
    (heq : cfg.keys = pre ++ post) : carefulWalk cfg g pre = walk cfg g pre := by
  apply carefulWalk_eq_walk ?_ pre post heq
  intro pre' id post' heq' hpre od existing hm
  rw [← hpre] at hm
  exact (h.decides heq' hm).sameOp hm

theorem SignaturesDecide.walkInv (h : SignaturesDecide cfg g) (hkeys : cfg.keys.Nodup)
    (pre post : List ℕ) (heq : cfg.keys = pre ++ post) : WalkInv cfg g pre (walk cfg g pre) := by
  induction pre using List.reverseRecOn generalizing post with
  | nil =>
    exact ⟨kept_walk hkeys [] post heq, fun r od _ _ _ c _ => by simp [walk], fun V m n id => rfl⟩
  | append_singleton pre id ih =>
    have heq' : cfg.keys = pre ++ id :: post := by simpa using heq
    have hinv := ih (id :: post) heq'
    have hid := notMem_of_nodup hkeys heq'
    rw [walk_concat]
    unfold Model.Cse.visit
    cases hm : mergeAt cfg (walk cfg g pre) id with
    | none => exact hinv.keep hid
    | some p =>
      have hpre := h.carefulWalk_eq pre (id :: post) heq'
      have hdecides := h.decides heq' (hpre.symm ▸ hm)
      rw [hpre] at hdecides
      obtain ⟨a, hmerge⟩ := hinv.toKept.mergeOf hid hm
      exact hinv.supersede hmerge (hdecides.sameOp hm) hdecides.listed hid

/-- Complete consumer lists are complete after every visit. -/
theorem listed_walk (hkeys : cfg.keys.Nodup) (hlisted : ConsumersListed g) (pre post : List ℕ)
    (heq : cfg.keys = pre ++ post) : ConsumersListed (walk cfg g pre).ops := by
  induction pre using List.reverseRecOn generalizing post with
  | nil => exact hlisted
  | append_singleton pre id ih =>
    have heq' : cfg.keys = pre ++ id :: post := by simpa using heq
    rw [walk_concat]
    unfold Model.Cse.visit
    cases hm : mergeAt cfg (walk cfg g pre) id with
    | none =>
      rw [keep_ops]
      exact ih (id :: post) heq'
    | some p =>
      obtain ⟨a, hmerge⟩ :=
        (kept_walk hkeys pre (id :: post) heq').mergeOf (notMem_of_nodup hkeys heq') hm
      exact hmerge.listed_supersede (ih (id :: post) heq')

/-- With complete consumer lists, what is mixed and what is left out decide. -/
theorem signaturesDecide_of_listed (hkeys : cfg.keys.Nodup) (hlisted : ConsumersListed g)
    (h : ∀ pre id post, cfg.keys = pre ++ id :: post → ∀ od existing,
      mergeAt cfg (walk cfg g pre) id = some (od, existing) →
        mixed existing = mixed od ∧ unmixed existing = unmixed od) : SignaturesDecide cfg g := by
  intro pre id post heq od a existing hod hcand ha hex hinputs
  have hpre : carefulWalk cfg g pre = walk cfg g pre :=
    carefulWalk_eq_walk (fun pre' id' post' heq' _ od' existing' hm =>
      sameOp_iff.mpr ⟨(mergeAt_eq_some.mp hm).2.2.2, h pre' id' post' heq' od' existing' hm⟩)
      pre (id :: post) heq
  rw [hpre] at hod ha hex ⊢
  obtain ⟨hmixed, hunmixed⟩ := h pre id post heq od existing
    (mergeAt_eq_some.mpr ⟨hod, hcand, ⟨a, ha, hex⟩, hinputs⟩)
  refine ⟨hmixed, hunmixed, ?_⟩
  intro r _ _ odr hodr hen c hc hcid
  apply listed_walk hkeys hlisted pre (id :: post) heq r odr hodr hen c hc
  rw [hcid]
  exact hod

end Careful

/-! ### Rebuilt consumer lists are complete -/

/-- The operator `r`, if enabled, is listed with the sources of its inputs. -/
def ListedAt (g : OpMap) (r : ℕ) : Prop :=
  ∀ od, g.getOpAt r = some od → od.isEnabled = true → ∀ c ∈ od.inputs,
    ∀ src, g.getOpAt c.srcId = some src → r ∈ src.consumers

/-- The same operators, with longer consumer lists. -/
def Grown (g g' : OpMap) : Prop :=
  ∀ id od', g'.getOpAt id = some od' → ∃ od, g.getOpAt id = some od ∧
    od'.inputs = od.inputs ∧ od'.isEnabled = od.isEnabled ∧ od.consumers ⊆ od'.consumers

theorem Grown.refl (g : OpMap) : Grown g g :=
  fun _ od h => ⟨od, h, rfl, rfl, List.Subset.refl _⟩

theorem Grown.trans {g g' g'' : OpMap} (h : Grown g g') (h' : Grown g' g'') : Grown g g'' := by
  intro id od'' hod''
  obtain ⟨od', hod', hin', hen', hsub'⟩ := h' id od'' hod''
  obtain ⟨od, hod, hin, hen, hsub⟩ := h id od' hod'
  exact ⟨od, hod, hin'.trans hin, hen'.trans hen, fun _ hx => hsub' (hsub hx)⟩

theorem Grown.listedAt {g g' : OpMap} (h : Grown g g') {r : ℕ} (hr : ListedAt g r) :
    ListedAt g' r := by
  intro od' hod' hen' c hc src' hsrc'
  obtain ⟨od, hod, hin, hen, -⟩ := h r od' hod'
  obtain ⟨src, hsrc, -, -, hsub⟩ := h c.srcId src' hsrc'
  exact hsub (hr od hod (hen ▸ hen') c (hin ▸ hc) src hsrc)

theorem linkConsumer_getOpAt (id : ℕ) (g : OpMap) (c : InputConn) (i : ℕ) :
    (linkConsumer id g c).getOpAt i =
      if i = c.srcId then (g.getOpAt i).map (addConsumerOnce id) else g.getOpAt i := rfl

theorem mem_addConsumerOnce (id : ℕ) (src : OpDef) : id ∈ (addConsumerOnce id src).consumers := by
  unfold addConsumerOnce addConsumer
  split <;> simp_all

theorem grown_linkConsumer (id : ℕ) (g : OpMap) (c : InputConn) :
    Grown g (linkConsumer id g c) := by
  intro i od' hod'
  rw [linkConsumer_getOpAt] at hod'
  split at hod'
  · obtain ⟨od, hod, rfl⟩ := Option.map_eq_some_iff.mp hod'
    unfold addConsumerOnce
    split
    · exact ⟨od, hod, rfl, rfl, List.Subset.refl _⟩
    · exact ⟨od, hod, rfl, rfl, List.subset_append_left _ _⟩
  · exact ⟨od', hod', rfl, rfl, List.Subset.refl _⟩

theorem grown_foldl_linkConsumer (id : ℕ) (l : List InputConn) (g : OpMap) :
    Grown g (l.foldl (linkConsumer id) g) := by
  induction l generalizing g with
  | nil => exact Grown.refl g
  | cons c l ih => exact (grown_linkConsumer id g c).trans (ih _)

theorem listed_foldl_linkConsumer (id : ℕ) (l : List InputConn) (g : OpMap) :
    ∀ c ∈ l, ∀ src, (l.foldl (linkConsumer id) g).getOpAt c.srcId = some src →
      id ∈ src.consumers := by
  induction l generalizing g with
  | nil => simp
  | cons c l ih =>
    intro x hx src hsrc
    rcases List.mem_cons.mp hx with rfl | hx
    · obtain ⟨old, hold, -, -, hsub⟩ := grown_foldl_linkConsumer id l _ _ src hsrc
      rw [linkConsumer_getOpAt, if_pos rfl] at hold
      obtain ⟨older, -, rfl⟩ := Option.map_eq_some_iff.mp hold
      exact hsub (mem_addConsumerOnce id older)
    · exact ih _ x hx src hsrc

theorem grown_linkInputs (g : OpMap) (id : ℕ) : Grown g (linkInputs g id) := by
  unfold linkInputs
  cases hod : g.getOpAt id with
  | none => exact Grown.refl g
  | some od =>
    dsimp only
    split
    · exact grown_foldl_linkConsumer id od.inputs g
    · exact Grown.refl g

theorem listedAt_linkInputs (g : OpMap) (id : ℕ) : ListedAt (linkInputs g id) id := by
  intro od' hod' hen' c hc src hsrc
  obtain ⟨od, hod, hin, hen, -⟩ := grown_linkInputs g id id od' hod'
  have henold : od.isEnabled = true := hen ▸ hen'
  have heq : linkInputs g id = od.inputs.foldl (linkConsumer id) g := by
    simp only [linkInputs, hod, henold, if_true]
  rw [heq] at hsrc
  exact listed_foldl_linkConsumer id od.inputs g c (hin ▸ hc) src hsrc

theorem listedAt_foldl_linkInputs (keys : List ℕ) (g : OpMap) (r : ℕ)
    (hr : r ∈ keys ∨ ListedAt g r) : ListedAt (keys.foldl linkInputs g) r := by
  induction keys generalizing g with
  | nil => simpa using hr
  | cons k keys ih =>
    apply ih
    rcases hr with hr | hr
    · rcases List.mem_cons.mp hr with rfl | hr
      · exact .inr (listedAt_linkInputs g r)
      · exact .inl hr
    · exact .inr ((grown_linkInputs g k).listedAt hr)

theorem isSome_foldl_clearConsumers (keys : List ℕ) (g : OpMap) (id : ℕ) :
    ((keys.foldl clearConsumers g).getOpAt id).isSome = (g.getOpAt id).isSome := by
  induction keys generalizing g with
  | nil => rfl
  | cons k keys ih =>
    rw [List.foldl_cons, ih]
    simp only [clearConsumers, OpMap.modify]
    split
    · rw [Option.isSome_map]
    · rfl

theorem grown_foldl_linkInputs (keys : List ℕ) (g : OpMap) :
    Grown g (keys.foldl linkInputs g) := by
  induction keys generalizing g with
  | nil => exact Grown.refl g
  | cons k keys ih => exact (grown_linkInputs g k).trans (ih _)

/-- `rebuild_consumers` makes the consumer lists complete.
SOURCE: graph_prepare.cpp:4017-4036 -/
theorem consumersListed_rebuildConsumers (keys : List ℕ) (g : OpMap)
    (hkeys : ∀ id, (g.getOpAt id).isSome = true → id ∈ keys) :
    ConsumersListed (rebuildConsumers keys g) := by
  intro r od hod
  have hr : r ∈ keys := by
    obtain ⟨old, hold, -⟩ := grown_foldl_linkInputs keys _ r od hod
    apply hkeys r
    rw [← isSome_foldl_clearConsumers keys, hold]
    rfl
  exact listedAt_foldl_linkInputs keys _ r (.inl hr) od hod

/-! ### The pass -/

section Pass

variable {cfg : CseConfig} {g : OpMap} {graphDirty : Bool}

theorem eliminated_getOpAt (id : ℕ) :
    (commonSubexprEliminate cfg g graphDirty).ops.getOpAt id =
      if id ∈ (walk cfg g cfg.keys).toRemove then none
      else (walk cfg g cfg.keys).ops.getOpAt id := rfl

theorem notMem_of_remains {id : ℕ}
    (h : ((commonSubexprEliminate cfg g graphDirty).ops.getOpAt id).isSome = true) :
    id ∉ (walk cfg g cfg.keys).toRemove := by
  intro hmem
  rw [eliminated_getOpAt, if_pos hmem] at h
  cases h

/-- If no operator that remains reads a removed one, the removal changes no value. -/
theorem value_eliminate (h : WalkInv cfg g cfg.keys (walk cfg g cfg.keys)) {V : Type}
    (m : Meaning OpLabel V) (n id : ℕ)
    (hid : ((commonSubexprEliminate cfg g graphDirty).ops.getOpAt id).isSome = true) :
    value m (dataflow cfg (commonSubexprEliminate cfg g graphDirty).ops) n id =
      value m (dataflow cfg g) n id := by
  rw [← h.values V m n id]
  apply @value_prune _ _ m _ _ (· ∈ (walk cfg g cfg.keys).toRemove) ?_ ?_ n id
    (notMem_of_remains hid)
  · intro i hi
    rw [dataflow, dataflow, eliminated_getOpAt, if_neg hi]
  · intro i nd hi hnd p hp
    obtain ⟨od, hod, rfl⟩ := Option.map_eq_some_iff.mp hnd
    simp only [nodeOf] at hp
    split at hp
    · rename_i hen
      obtain ⟨c, hc, rfl⟩ := List.mem_map.mp hp
      exact h.unread i od hod hen hi c hc
    · cases hp

theorem isSome_walk (hkeys : cfg.keys.Nodup) (pre post : List ℕ) (heq : cfg.keys = pre ++ post)
    (id : ℕ) : ((walk cfg g pre).ops.getOpAt id).isSome = (g.getOpAt id).isSome := by
  induction pre using List.reverseRecOn generalizing post with
  | nil => rfl
  | append_singleton pre x ih =>
    have heq' : cfg.keys = pre ++ x :: post := by simpa using heq
    rw [walk_concat, ← ih (x :: post) heq']
    unfold Model.Cse.visit
    cases hm : mergeAt cfg (walk cfg g pre) x with
    | none => rw [keep_ops]
    | some p =>
      obtain ⟨a, hmerge⟩ :=
        (kept_walk hkeys pre (x :: post) heq').mergeOf (notMem_of_nodup hkeys heq') hm
      dsimp only
      rw [hmerge.supersede_getOpAt, Option.isSome_map]

/-- A removed operator that is still read has left a gap that some meaning sees. -/
theorem value_ne_of_readsRemoved (hkeys : cfg.keys.Nodup) {x : ℕ}
    (h : ReadsRemoved (walk cfg g cfg.keys) x) :
    ∃ (m : Meaning OpLabel Bool) (n id : ℕ),
      ((commonSubexprEliminate cfg g graphDirty).ops.getOpAt id).isSome = true ∧
      value m (dataflow cfg (commonSubexprEliminate cfg g graphDirty).ops) n id ≠
        value m (dataflow cfg g) n id := by
  obtain ⟨hx, r, odr, hodr, hen, hremain, c, hc, hcx⟩ := h
  have hat : (commonSubexprEliminate cfg g graphDirty).ops.getOpAt r = some odr := by
    rw [eliminated_getOpAt, if_neg hremain, hodr]
  refine ⟨findsAbsent x, 2, r, by rw [hat]; rfl, ?_⟩
  have hnew : value (findsAbsent x)
      (dataflow cfg (commonSubexprEliminate cfg g graphDirty).ops) 2 r = true := by
    have hread : (c.srcId, c.outIdx) ∈ (nodeOf cfg r odr).args := by
      simp only [nodeOf, hen, if_true]
      exact List.mem_map.mpr ⟨c, hc, rfl⟩
    apply value_findsAbsent_of_read ?_ hread hcx ?_
    · rw [dataflow, hat, Option.map_some]
    · rw [dataflow, eliminated_getOpAt, if_pos hx, Option.map_none]
  have hold : value (findsAbsent x) (dataflow cfg g) 2 r = false := by
    apply value_findsAbsent_of_isSome
    rw [dataflow, Option.isSome_map, ← isSome_walk hkeys cfg.keys [] (by simp)]
    exact ((kept_walk hkeys cfg.keys [] (by simp)).removed x hx).2
  rw [hnew, hold]
  exact Bool.noConfusion

end Pass

/-- An operator of one output of four bytes, quantized by `scale`. -/
def quantOp (id : ℕ) (name : String) (scale : ℕ) (srcs : List ℕ) : OpDef :=
  ⟨id, 1, some name, OutputDef.vector 4 2 1 scale,
    srcs.map fun s => ⟨s, 0⟩, [], [], []⟩

/-- Operator 4 adds operators 2 and 3, which quantize the input 1; the output is 5. -/
def quantPair (scale₂ scale₃ : ℕ) : OpMap :=
  rebuildConsumers [1, 2, 3, 4, 5] (OpMap.ofList
    [quantOp 1 "Input" 0 [], quantOp 2 "Quantize" scale₂ [1], quantOp 3 "Quantize" scale₃ [1],
      quantOp 4 "Add" 0 [2, 3], quantOp 5 "Output" 0 [4]])

def quantCfg : CseConfig := ⟨[1, 2, 3, 4, 5], 1, 5⟩

theorem consumersListed_quantPair (scale₂ scale₃ : ℕ) :
    ConsumersListed (quantPair scale₂ scale₃) := by
  apply consumersListed_rebuildConsumers
  intro id hid
  obtain ⟨od, hod⟩ := Option.isSome_iff_exists.mp hid
  have hmem := List.mem_of_find?_eq_some hod
  have hkey := (OpMap.ofList _).keyed id od hod
  simp only [List.mem_cons, List.not_mem_nil, or_false] at hmem
  rcases hmem with rfl | rfl | rfl | rfl | rfl <;> simp [← hkey, quantOp]

/-- Add the scale of an operator to the values of its inputs. -/
def sumOfScales : Meaning OpLabel ℕ where
  apply l args :=
    match l with
    | .shared _ _ _ od => od.quantScale + (args.map Prod.fst).sum
    | .own _ => 0
  absent _ := 0
  cut := 0

end Gehtp.Analysis.CseSound
