import Mathlib.Data.List.Forall2
import Mathlib.Data.List.Induction
import Gehtp.Model.HtpInject

/-!
# What the injection adds to a graph

Every node of the graph stays, with inputs appended to it. An appended input is a parameter
tensor of the operator, a constant of the graph that serves as a scale, or a constant that the
pass created for its key. The last holds as long as no operator of the graph has one of the ids
that the pass hands out.
-/

set_option autoImplicit false

namespace Gehtp.Analysis.HtpInjectFresh

open Model.OpGraph Model.HtpInject

/-! ### The consumers -/

/-- The maps differ in consumers only. -/
def SameButConsumers (g g' : OpMap) : Prop :=
  ∀ id, ∃ f, g'.getOpAt id = (g.getOpAt id).map (withConsumers f)

theorem SameButConsumers.refl (g : OpMap) : SameButConsumers g g := by
  intro j
  refine ⟨fun cs => cs, ?_⟩
  cases g.getOpAt j with
  | none => rfl
  | some od => rfl

variable {g : OpMap} {s s' : Injection} {key : ConstKey} {id n nid : ℕ} {gp : Prep} {od : OpDef}
  {steps : List InjectStep} {byN : ℕ → Option ℕ} {done : List ℕ}

theorem SameButConsumers.trans {g' g'' : OpMap} (h : SameButConsumers g g')
    (h' : SameButConsumers g' g'') : SameButConsumers g g'' := by
  intro id
  obtain ⟨f, hf⟩ := h id
  obtain ⟨f', hf'⟩ := h' id
  refine ⟨f' ∘ f, ?_⟩
  rw [hf', hf, Option.map_map]
  rfl

theorem onConsumers_same (g : OpMap) (id : ℕ) (f : List ℕ → List ℕ) :
    SameButConsumers g (onConsumers g id f) := by
  intro j
  by_cases hj : j = id
  · refine ⟨f, ?_⟩
    show (if j = id then _ else _) = _
    rw [if_pos hj]
  · obtain ⟨f', hf'⟩ := SameButConsumers.refl g j
    refine ⟨f', ?_⟩
    show (if j = id then _ else _) = _
    rw [if_neg hj]
    exact hf'

theorem foldl_same {α : Type} (step : OpMap → α → OpMap)
    (hstep : ∀ g a, SameButConsumers g (step g a)) (l : List α) (g : OpMap) :
    SameButConsumers g (l.foldl step g) := by
  induction l generalizing g with
  | nil => exact SameButConsumers.refl g
  | cons a l ih => exact (hstep g a).trans (ih (step g a))

theorem linkInputs_same (g : OpMap) (id : ℕ) : SameButConsumers g (linkInputs g id) := by
  unfold linkInputs
  split
  · exact SameButConsumers.refl g
  · split
    · exact foldl_same _ (fun g (c : InputConn) => onConsumers_same g c.srcId _) _ g
    · exact SameButConsumers.refl g

theorem rebuildConsumers_same (order : List ℕ) (g : OpMap) :
    SameButConsumers g (rebuildConsumers order g) :=
  (foldl_same _ (fun g id => onConsumers_same g id _) order g).trans
    (foldl_same _ linkInputs_same order _)

theorem registerParams_same (order : List ℕ) (g : OpMap) :
    SameButConsumers g (registerParams order g) := by
  apply foldl_same
  intro g id
  split
  · exact SameButConsumers.refl g
  · exact foldl_same _ (fun g tpid => onConsumers_same g tpid _) _ g

/-! ### The constants that are created -/

/-- The node `id` is the constant of the key, with its zeros in the pool. -/
structure Created (gp : Prep) (key : ConstKey) (id : ℕ) : Prop where
  node : ∃ cs, gp.ops.getOpAt id = some { constNode id key.outputDef with consumers := cs }
  data : ∃ off, gp.constExtent id = some (off, key.zdata.length) ∧
    (gp.constPool.drop off).take key.zdata.length = key.zdata

/-- The ids that are handed out, up to `s.nextInjectedId`, are those of the keys. -/
structure KeysCreated (s : Injection) : Prop where
  state : s.gp.constructionState = 1
  first : 0x10000 ≤ s.nextInjectedId
  range : ∀ e ∈ s.dedup, 0x10000 ≤ e.2 ∧ e.2 < s.nextInjectedId
  created : ∀ e ∈ s.dedup, Created s.gp e.1 e.2

theorem find_mem (h : s.find key = some id) : (key, id) ∈ s.dedup := by
  obtain ⟨e, he, rfl⟩ := Option.map_eq_some_iff.mp h
  have hkey : e.1 = key := by simpa using List.find?_some he
  rw [← hkey]
  exact List.mem_of_find?_eq_some he

theorem take_drop_append {pool more data : List UInt8} {off : ℕ}
    (h : (pool.drop off).take data.length = data) :
    ((pool ++ more).drop off).take data.length = data := by
  have hlen : data.length ≤ (pool.drop off).length := by
    have := congrArg List.length h
    rw [List.length_take] at this
    omega
  by_cases hoff : off ≤ pool.length
  · rw [List.drop_append_of_le_length hoff, List.take_append_of_le_length hlen]
    exact h
  · have hnil : data = [] := by
      rw [List.length_drop] at hlen
      exact List.length_eq_zero_iff.mp (by omega)
    simp [hnil]

theorem startedPool_append (pool : List UInt8) :
    ∃ more, startedPool pool = pool ++ more := by
  unfold startedPool
  split
  · rename_i h
    exact ⟨[0, 0, 0, 0], by rw [h]; rfl⟩
  · exact ⟨[], (List.append_nil pool).symm⟩

theorem appended_pool (pool data : List UInt8) :
    ∃ more, (if data = [] then startedPool pool else appendData pool data) = pool ++ more := by
  obtain ⟨more, hmore⟩ := startedPool_append pool
  split
  · exact ⟨more, hmore⟩
  · unfold appendData
    rw [hmore]
    exact ⟨_, by rw [List.append_assoc, List.append_assoc]⟩

theorem appended_data (pool data : List UInt8) :
    ((if data = [] then startedPool pool else appendData pool data).drop
      (if data = [] then 0 else (startedPool pool).length)).take data.length = data := by
  split
  · rename_i h
    simp [h]
  · unfold appendData
    rw [List.append_assoc, List.drop_left, List.take_left]

theorem appendConstNode_free (od : OutputDef) (data : List UInt8)
    (hstate : gp.constructionState = 1) (hid : id ≠ 0) (hfree : gp.ops.getOpAt id = none) :
    ∃ more off next, (appendConstNode gp id od data).2 = { gp with
        nextOpId := next
        constPool := gp.constPool ++ more
        constExtent := Function.update gp.constExtent id (some (off, data.length))
        ops := insertOp gp.ops (constNode id od) } ∧
      ((gp.constPool ++ more).drop off).take data.length = data := by
  obtain ⟨more, hmore⟩ := appended_pool gp.constPool data
  refine ⟨more, if data = [] then 0 else (startedPool gp.constPool).length,
    max gp.nextOpId (id + 1), ?_, ?_⟩
  · unfold appendConstNode
    simp only [hstate, ne_eq, not_true_eq_false, if_false, hid, not_false_eq_true, if_true, hfree,
      Option.isSome_none, Bool.false_eq_true, hmore]
  · rw [← hmore]
    exact appended_data gp.constPool data

theorem insertOp_self (g : OpMap) (od : OpDef) : (insertOp g od).getOpAt od.opId = some od :=
  if_pos rfl

theorem insertOp_other (g : OpMap) (od : OpDef) {j : ℕ} (h : j ≠ od.opId) :
    (insertOp g od).getOpAt j = g.getOpAt j := if_neg h

/-- What asking for a key does: the constant is there, and nothing else of the graph changed. -/
structure Asked (s s' : Injection) (key : ConstKey) (id : ℕ) : Prop where
  keys : KeysCreated s'
  mem : (key, id) ∈ s'.dedup
  kept : ∀ e ∈ s.dedup, e ∈ s'.dedup
  next_le : s.nextInjectedId ≤ s'.nextInjectedId
  ops : ∀ j od, s.gp.ops.getOpAt j = some od → s'.gp.ops.getOpAt j = some od
  new : ∀ j, s.gp.ops.getOpAt j = none → (s'.gp.ops.getOpAt j).isSome → ∃ k, (k, j) ∈ s'.dedup
  fresh : ∀ e ∈ s'.dedup, e ∈ s.dedup ∨ s.gp.ops.getOpAt e.2 = none

theorem getOrCreate_asked (h : KeysCreated s) (key : ConstKey)
    (hfree : (getOrCreate s key).2.nextInjectedId ≤ 2 ^ 32 →
      s.nextInjectedId < (getOrCreate s key).2.nextInjectedId →
        s.gp.ops.getOpAt s.nextInjectedId = none)
    (hsmall : (getOrCreate s key).2.nextInjectedId ≤ 2 ^ 32) :
    Asked s (getOrCreate s key).2 key (getOrCreate s key).1 := by
  unfold getOrCreate at hfree hsmall ⊢
  cases hfind : s.find key with
  | some id =>
    simp only
    refine ⟨h, find_mem hfind, fun _ he => he, le_rfl, fun _ _ ho => ho, ?_, fun _ he => .inl he⟩
    intro j hj hs
    rw [hj] at hs
    cases hs
  | none =>
    simp only [hfind] at hfree hsmall ⊢
    have hnone := hfree hsmall (Nat.lt_succ_self _)
    have hfirst := h.first
    have hmod : s.nextInjectedId % 2 ^ 32 = s.nextInjectedId := Nat.mod_eq_of_lt hsmall
    have hne : s.nextInjectedId ≠ 0 := by omega
    obtain ⟨more, off, next, hgp, hdata⟩ :=
      appendConstNode_free key.outputDef key.zdata h.state hne hnone
    rw [hmod, hgp]
    refine ⟨⟨h.state, Nat.le_succ_of_le h.first, ?_, ?_⟩, List.mem_cons_self,
      fun _ he => List.mem_cons_of_mem _ he, Nat.le_succ _, ?_, ?_, ?_⟩
    · intro e he
      rcases List.mem_cons.mp he with rfl | he
      · exact ⟨h.first, Nat.lt_succ_self _⟩
      · exact ⟨(h.range e he).1, Nat.lt_succ_of_lt (h.range e he).2⟩
    · intro e he
      rcases List.mem_cons.mp he with rfl | he
      · exact ⟨⟨[], insertOp_self _ _⟩, off, Function.update_self _ _ _, hdata⟩
      · have hold : e.2 ≠ s.nextInjectedId := Nat.ne_of_lt (h.range e he).2
        obtain ⟨⟨cs, hnode⟩, off', hext, hpool⟩ := h.created e he
        refine ⟨⟨cs, ?_⟩, off', ?_, take_drop_append hpool⟩
        · rw [← hnode]
          exact insertOp_other _ _ hold
        · rw [← hext]
          exact Function.update_of_ne hold _ _
    · intro j od hj
      have hjne : j ≠ s.nextInjectedId := by
        rintro rfl
        rw [hnone] at hj
        cases hj
      rw [← hj]
      exact insertOp_other _ _ hjne
    · intro j hj hsome
      by_cases hje : j = s.nextInjectedId
      · exact ⟨key, by rw [hje]; exact List.mem_cons_self⟩
      · have hsame := insertOp_other s.gp.ops (constNode s.nextInjectedId key.outputDef) hje
        rw [hsame, hj] at hsome
        cases hsome
    · intro e he
      rcases List.mem_cons.mp he with rfl | he
      · exact .inr hnone
      · exact .inl he

/-! ### One operator -/

def Stands (s : Injection) : InjectStep → InputConn → Prop
  | .shared key, c => c.outIdx = 0 ∧ (key, c.srcId) ∈ s.dedup
  | .node nid, c => c = ⟨nid, 0⟩

theorem Stands.mono (h : ∀ e ∈ s.dedup, e ∈ s'.dedup) {st : InjectStep} {c : InputConn}
    (hc : Stands s st c) : Stands s' st c := by
  cases st with
  | shared key => exact ⟨hc.1, h _ hc.2⟩
  | node nid => exact hc

/-- The steps were made for the operator `id`, which was `od` before. -/
structure Injected (id : ℕ) (s : Injection) (od : OpDef) (steps : List InjectStep)
    (s' : Injection) : Prop where
  keys : KeysCreated s'
  apart : ∀ e ∈ s'.dedup, e.2 ≠ id
  kept : ∀ e ∈ s.dedup, e ∈ s'.dedup
  op : ∃ added, s'.gp.ops.getOpAt id = some { od with inputs := od.inputs ++ added } ∧
    List.Forall₂ (Stands s') steps added
  others : ∀ j ≠ id, ∀ od', s.gp.ops.getOpAt j = some od' → s'.gp.ops.getOpAt j = some od'
  new : ∀ j, s.gp.ops.getOpAt j = none → (s'.gp.ops.getOpAt j).isSome → ∃ k, (k, j) ∈ s'.dedup

theorem addInput_other (s : Injection) {j : ℕ} (cid : ℕ) (h : j ≠ id) :
    (addInput s id cid).gp.ops.getOpAt j = s.gp.ops.getOpAt j := if_neg h

theorem addInput_self (s : Injection) (id cid : ℕ) :
    (addInput s id cid).gp.ops.getOpAt id = (s.gp.ops.getOpAt id).map (withInput cid) := if_pos rfl

theorem addInput_keys (h : KeysCreated s) (hid : ∀ e ∈ s.dedup, e.2 ≠ id) (cid : ℕ) :
    KeysCreated (addInput s id cid) where
  state := h.state
  first := h.first
  range := h.range
  created := by
    intro e he
    obtain ⟨⟨cs, hnode⟩, hdata⟩ := h.created e he
    refine ⟨⟨cs, ?_⟩, hdata⟩
    rw [addInput_other s cid (hid e he)]
    exact hnode

theorem Injected.addInput (h : Injected id s od steps s') {st : InjectStep} {cid : ℕ}
    (hst : Stands s' st ⟨cid, 0⟩) :
    Injected id s od (steps ++ [st]) (addInput s' id cid) where
  keys := addInput_keys h.keys h.apart cid
  apart := h.apart
  kept := h.kept
  op := by
    obtain ⟨added, hop, hall⟩ := h.op
    refine ⟨added ++ [⟨cid, 0⟩], ?_, ?_⟩
    · rw [addInput_self, hop]
      simp [withInput]
    · exact List.rel_append hall (List.Forall₂.cons hst List.Forall₂.nil)
  others := by
    intro j hj od' hod'
    rw [addInput_other s' cid hj]
    exact h.others j hj od' hod'
  new := by
    intro j hj hsome
    by_cases hje : j = id
    · subst hje
      obtain ⟨added, hop, -⟩ := h.op
      exact h.new j hj (by rw [hop]; rfl)
    · rw [addInput_other s' cid hje] at hsome
      exact h.new j hj hsome

theorem Injected.asked {s'' : Injection} (h : Injected id s od steps s') {cid : ℕ}
    (ha : Asked s' s'' key cid) : Injected id s od steps s'' := by
  obtain ⟨added, hop, hall⟩ := h.op
  refine ⟨ha.keys, ?_, fun e he => ha.kept e (h.kept e he), ?_, ?_, ?_⟩
  · intro e he heq
    rcases ha.fresh e he with hold | hnone
    · exact h.apart e hold heq
    · rw [heq, hop] at hnone
      cases hnone
  · exact ⟨added, ha.ops _ _ hop, hall.imp fun _ _ => Stands.mono ha.kept⟩
  · intro j hj od' hod'
    exact ha.ops j od' (h.others j hj od' hod')
  · intro j hj hsome
    cases hmid : s'.gp.ops.getOpAt j with
    | none => exact ha.new j hmid hsome
    | some _ =>
      obtain ⟨k, hk⟩ := h.new j hj (by rw [hmid]; rfl)
      exact ⟨k, ha.kept _ hk⟩

theorem next_le_injectStep (id : ℕ) (s : Injection) (st : InjectStep) :
    s.nextInjectedId ≤ (injectStep id s st).nextInjectedId := by
  cases st with
  | shared key =>
    show s.nextInjectedId ≤ (getOrCreate s key).2.nextInjectedId
    unfold getOrCreate
    split
    · exact le_rfl
    · exact Nat.le_succ _
  | node nid => exact le_rfl

theorem next_le_foldl (id : ℕ) (steps : List InjectStep) (s : Injection) :
    s.nextInjectedId ≤ (steps.foldl (injectStep id) s).nextInjectedId := by
  induction steps generalizing s with
  | nil => exact le_rfl
  | cons st steps ih => exact (next_le_injectStep id s st).trans (ih (injectStep id s st))

theorem foldl_injected (h : KeysCreated s) (hod : s.gp.ops.getOpAt id = some od)
    (hid : ∀ e ∈ s.dedup, e.2 ≠ id) (steps : List InjectStep) (limit : ℕ)
    (hlimit : limit ≤ 2 ^ 32)
    (hfree : ∀ j, s.nextInjectedId ≤ j → j < limit → s.gp.ops.getOpAt j = none)
    (hreach : (steps.foldl (injectStep id) s).nextInjectedId ≤ limit) :
    Injected id s od steps (steps.foldl (injectStep id) s) := by
  induction steps using List.reverseRecOn with
  | nil =>
    refine ⟨h, hid, fun _ he => he, ⟨[], ?_, List.Forall₂.nil⟩, fun _ _ _ ho => ho, ?_⟩
    · rw [List.append_nil]
      exact hod
    · intro j hj hs
      rw [List.foldl_nil, hj] at hs
      cases hs
  | append_singleton steps st ih =>
    rw [List.foldl_concat] at hreach ⊢
    have hle := next_le_injectStep id (steps.foldl (injectStep id) s) st
    have hinit := ih (hle.trans hreach)
    cases st with
    | shared key =>
      have hnew : (getOrCreate (steps.foldl (injectStep id) s) key).2.nextInjectedId ≤ 2 ^ 32 →
          (steps.foldl (injectStep id) s).nextInjectedId <
            (getOrCreate (steps.foldl (injectStep id) s) key).2.nextInjectedId →
          (steps.foldl (injectStep id) s).gp.ops.getOpAt
            (steps.foldl (injectStep id) s).nextInjectedId = none := by
        intro _ hlt
        by_contra hsome
        have hnone := hfree _ (next_le_foldl id steps s) (hlt.trans_le hreach)
        obtain ⟨k, hk⟩ := hinit.new _ hnone (Option.isSome_iff_ne_none.mpr hsome)
        exact absurd (hinit.keys.range _ hk).2 (Nat.lt_irrefl _)
      have hasked := getOrCreate_asked hinit.keys key hnew (hreach.trans hlimit)
      exact (hinit.asked hasked).addInput ⟨rfl, hasked.mem⟩
    | node nid => exact hinit.addInput rfl

/-! ### The loop over the operators -/

/-- The steps that the pass takes for an operator, in the graph it finds then. -/
def StepsFor (byN : ℕ → Option ℕ) (od : OpDef) (steps : List InjectStep) : Prop :=
  steps = [] ∨ ∃ g, steps = injectSteps g byN od (od.nameTag.getD "")

/-- After the operators `done`. -/
structure LoopInv (gp : Prep) (byN : ℕ → Option ℕ) (done : List ℕ) (s : Injection) : Prop where
  keys : KeysCreated s
  fresh : ∀ e ∈ s.dedup, gp.ops.getOpAt e.2 = none
  todo : ∀ id ∉ done, ∀ od, gp.ops.getOpAt id = some od → s.gp.ops.getOpAt id = some od
  made : ∀ id ∈ done, ∀ od, gp.ops.getOpAt id = some od → ∃ steps added,
    s.gp.ops.getOpAt id = some { od with inputs := od.inputs ++ added } ∧
    List.Forall₂ (Stands s) steps added ∧ StepsFor byN od steps
  new : ∀ j, gp.ops.getOpAt j = none → (s.gp.ops.getOpAt j).isSome → ∃ k, (k, j) ∈ s.dedup

theorem loopInv_start (hstate : gp.constructionState = 1) (byN : ℕ → Option ℕ) :
    LoopInv gp byN [] ⟨gp, 0x10000, []⟩ where
  keys := ⟨hstate, le_rfl, fun _ he => (List.not_mem_nil he).elim,
    fun _ he => (List.not_mem_nil he).elim⟩
  fresh := fun _ he => (List.not_mem_nil he).elim
  todo := fun _ _ _ hod => hod
  made := fun _ he => (List.not_mem_nil he).elim
  new := by
    intro j hj hs
    rw [hj] at hs
    cases hs

theorem LoopInv.skip (h : LoopInv gp byN done s) (hid : id ∉ done) :
    LoopInv gp byN (done ++ [id]) s where
  keys := h.keys
  fresh := h.fresh
  todo := fun j hj => h.todo j fun hmem => hj (List.mem_append_left _ hmem)
  made := by
    intro j hj od hod
    rcases List.mem_append.mp hj with hj | hj
    · exact h.made j hj od hod
    · obtain rfl := List.mem_singleton.mp hj
      refine ⟨[], [], ?_, List.Forall₂.nil, .inl rfl⟩
      rw [List.append_nil]
      exact h.todo j hid od hod
  new := h.new

theorem LoopInv.inject (h : LoopInv gp byN done s) (hid : id ∉ done)
    (hgp : gp.ops.getOpAt id = some od) (hsteps : StepsFor byN od steps)
    (hin : Injected id s od steps s') (hfresh : ∀ e ∈ s'.dedup, gp.ops.getOpAt e.2 = none) :
    LoopInv gp byN (done ++ [id]) s' where
  keys := hin.keys
  fresh := hfresh
  todo := by
    intro j hj od' hod'
    rw [List.mem_append, not_or, List.mem_singleton] at hj
    exact hin.others j hj.2 od' (h.todo j hj.1 od' hod')
  made := by
    intro j hj od' hod'
    rcases List.mem_append.mp hj with hdone | hj
    · have hne : j ≠ id := by
        rintro rfl
        exact hid hdone
      obtain ⟨steps', added, hop, hall, hfor⟩ := h.made j hdone od' hod'
      exact ⟨steps', added, hin.others j hne _ hop, hall.imp fun _ _ => Stands.mono hin.kept, hfor⟩
    · obtain rfl := List.mem_singleton.mp hj
      obtain rfl := Option.some.inj (hgp.symm.trans hod')
      obtain ⟨added, hop, hall⟩ := hin.op
      exact ⟨steps, added, hop, hall, hsteps⟩
  new := by
    intro j hj hsome
    cases hmid : s.gp.ops.getOpAt j with
    | none => exact hin.new j hmid hsome
    | some _ =>
      obtain ⟨k, hk⟩ := h.new j hj (by rw [hmid]; rfl)
      exact ⟨k, hin.kept _ hk⟩

theorem next_le_injectOp (byN : ℕ → Option ℕ) (s : Injection) (id : ℕ) :
    s.nextInjectedId ≤ (injectOp byN s id).nextInjectedId := by
  unfold injectOp
  split
  · exact le_rfl
  · dsimp only
    split
    · exact le_rfl
    · exact next_le_foldl id _ s

theorem injectOp_loopInv (h : LoopInv gp byN done s) (hid : id ∉ done) {limit : ℕ}
    (hlimit : limit ≤ 2 ^ 32) (hfree : ∀ j, 0x10000 ≤ j → j < limit → gp.ops.getOpAt j = none)
    (hreach : (injectOp byN s id).nextInjectedId ≤ limit) (hkey : (gp.ops.getOpAt id).isSome) :
    LoopInv gp byN (done ++ [id]) (injectOp byN s id) := by
  obtain ⟨od, hod⟩ := Option.isSome_iff_exists.mp hkey
  have hnow := h.todo id hid od hod
  unfold injectOp at hreach ⊢
  simp only [hnow] at hreach ⊢
  split_ifs at hreach ⊢
  · exact h.skip hid
  · have hin := foldl_injected h.keys hnow (fun e he heq => by
      have := h.fresh e he
      rw [heq, hod] at this
      cases this) _ limit hlimit (fun j hj hlt => by
        by_contra hsome
        have hnone := hfree j (h.keys.first.trans hj) hlt
        obtain ⟨k, hk⟩ := h.new j hnone (Option.isSome_iff_ne_none.mpr hsome)
        exact absurd (h.keys.range _ hk).2 (Nat.not_lt.mpr hj)) hreach
    apply h.inject hid hod (.inr ⟨_, rfl⟩) hin
    intro e he
    exact hfree e.2 (hin.keys.range e he).1 ((hin.keys.range e he).2.trans_le hreach)

theorem foldl_loopInv (hstate : gp.constructionState = 1) (byN : ℕ → Option ℕ) (keys : List ℕ)
    (hnd : keys.Nodup) (hkeys : ∀ id ∈ keys, (gp.ops.getOpAt id).isSome) {limit : ℕ}
    (hlimit : limit ≤ 2 ^ 32) (hfree : ∀ j, 0x10000 ≤ j → j < limit → gp.ops.getOpAt j = none)
    (hreach : (keys.foldl (injectOp byN) ⟨gp, 0x10000, []⟩).nextInjectedId ≤ limit) :
    LoopInv gp byN keys (keys.foldl (injectOp byN) ⟨gp, 0x10000, []⟩) := by
  induction keys using List.reverseRecOn with
  | nil => exact loopInv_start hstate byN
  | append_singleton keys id ih =>
    rw [List.foldl_concat] at hreach ⊢
    have hmid := ih (List.nodup_append.mp hnd).1
      (fun j hj => hkeys j (List.mem_append_left _ hj))
      ((next_le_injectOp byN _ id).trans hreach)
    have hid : id ∉ keys := by
      intro hmem
      exact (List.nodup_append.mp hnd).2.2 id hmem id (List.mem_singleton_self id) rfl
    exact injectOp_loopInv hmid hid hlimit hfree hreach (hkeys id (by simp))

/-! ### The pass -/

theorem node_of_scaleStep (h : scaleStep byN n = .node nid) : byN n = some nid := by
  unfold scaleStep at h
  split at h
  · rename_i hby
    cases h
    exact hby
  · cases h

theorem node_of_scale_if {p : Prop} [Decidable p]
    (h : .node nid ∈ if p then [scaleStep byN n] else []) : byN n = some nid := by
  split at h
  · exact node_of_scaleStep (List.mem_singleton.mp h).symm
  · cases h

theorem node_of_paramSteps {kind : ParamKind} (h : .node nid ∈ paramSteps g od kind) :
    nid ∈ od.tensorParamIds := by
  unfold paramSteps at h
  split at h
  · rename_i tpid hlast
    split at h
    · cases h
    · cases List.mem_singleton.mp h
      exact (List.mem_filter.mp (List.mem_of_getLast? hlast)).1
  · cases h

theorem node_of_injectSteps {nm : String} (h : .node nid ∈ injectSteps g byN od nm) :
    nid ∈ od.tensorParamIds ∨ ∃ n, byN n = some nid := by
  unfold injectSteps at h
  split at h
  · simp only [List.mem_append, List.mem_singleton, reduceCtorEq, or_false] at h
    rcases h with (((h | h) | h) | h)
    · exact .inr ⟨_, node_of_scale_if h⟩
    · exact .inl (node_of_paramSteps h)
    · exact .inl (node_of_paramSteps h)
    · exact .inl (node_of_paramSteps h)
  split at h
  · obtain ⟨tpid, htp, heq⟩ := List.mem_map.mp h
    cases heq
    exact .inl (List.mem_of_mem_take htp)
  split at h
  · simp only [List.mem_append] at h
    rcases h with (((h | h) | h) | h)
    · exact .inr ⟨_, node_of_scale_if h⟩
    · exact .inl (node_of_paramSteps h)
    · exact .inl (node_of_paramSteps h)
    · exact .inl (node_of_paramSteps h)
  split at h
  · simp only [List.mem_append, List.mem_singleton, reduceCtorEq, or_false] at h
    exact .inr ⟨_, node_of_scale_if h⟩
  split at h
  · simp only [List.mem_append, List.mem_cons, List.not_mem_nil, reduceCtorEq, or_false] at h
    exact .inr ⟨_, node_of_scale_if h⟩
  -- the other operators get shared constants only
  split_ifs at h <;> simp at h

theorem constByN_spec {keys : List ℕ} (h : constByN g keys n = some id) :
    ∃ od, g.getOpAt id = some od ∧ isScaleOf od n = true := by
  have hany := List.find?_some h
  simpa [Option.any_eq_true] using hany

/-- Where the counter of the pass ends. -/
def handedOut (keys : List ℕ) (gp : Prep) : ℕ :=
  (keys.foldl (injectOp (constByN gp.ops keys)) ⟨gp, 0x10000, []⟩).nextInjectedId

/-- An appended input and the step it was appended for: a node that was created for the key, or an id
that the operator lists as a tensor parameter, or a scale of the graph. A listed parameter is taken
over without a look at the graph. -/
def InputFor (gp gp' : Prep) (od : OpDef) : InjectStep → InputConn → Prop
  | .shared key, c => c.outIdx = 0 ∧ gp.ops.getOpAt c.srcId = none ∧ Created gp' key c.srcId
  | .node nid, c => c = ⟨nid, 0⟩ ∧ (nid ∈ od.tensorParamIds ∨
      ∃ n src, gp.ops.getOpAt nid = some src ∧ isScaleOf src n = true)

theorem Created.of_same (h : SameButConsumers gp.ops g) (hc : Created gp key id) :
    Created { gp with ops := g } key id := by
  obtain ⟨⟨cs, hnode⟩, hdata⟩ := hc
  obtain ⟨f, hf⟩ := h id
  refine ⟨⟨f cs, ?_⟩, hdata⟩
  show g.getOpAt id = _
  rw [hf, hnode]
  rfl

/-- A graph whose nodes are those of a list. -/
def listed (ops : List OpDef) : Prep := ⟨OpMap.ofList ops, 1, 0, [], fun _ => none⟩

/-- An operator that reads the input node 1. -/
def reader (id : ℕ) (nm : String) (tensorParamIds : List ℕ) : OpDef :=
  ⟨id, 1, some nm, OutputDef.vector 4 0 4 0, [⟨1, 0⟩], [], [], tensorParamIds⟩

/-- A softmax and a transposition with its permutation. -/
def softmaxAndTranspose : List OpDef :=
  [⟨1, 1, some "Input", OutputDef.vector 4 0 4 0, [], [], [], []⟩, reader 2 "Softmax" [],
    constNode 3 (OutputDef.vector 4 50 4 0), reader 4 "Transpose" [3]]

theorem softmaxAndTranspose_keys (id : ℕ) :
    id ∈ [1, 2, 3, 4] ↔ ((listed softmaxAndTranspose).ops.getOpAt id).isSome := by
  show _ ↔ (softmaxAndTranspose.find? fun od => decide (od.opId = id)).isSome
  rw [List.find?_isSome]
  simp only [softmaxAndTranspose, reader, constNode, List.mem_cons, List.not_mem_nil, or_false,
    decide_eq_true_eq]
  constructor
  · rintro (rfl | rfl | rfl | rfl) <;> simp
  · rintro ⟨od, (rfl | rfl | rfl | rfl), h⟩ <;> simp_all

theorem softmaxAndTranspose_handedOut : handedOut [1, 2, 3, 4] (listed softmaxAndTranspose) = 65538 := by
  decide

theorem softmaxAndTranspose_free (j : ℕ) (hj : 0x10000 ≤ j) :
    (listed softmaxAndTranspose).ops.getOpAt j = none := by
  by_contra hne
  have hmem := (softmaxAndTranspose_keys j).mpr (Option.isSome_iff_ne_none.mpr hne)
  simp only [List.mem_cons, List.not_mem_nil, or_false] at hmem
  omega

/-- The inputs of an operator after the pass. -/
def inputsAfter (keys : List ℕ) (gp : Prep) (id : ℕ) : List ℕ :=
  (((injectHtpPrepareInputs keys keys gp).ops.getOpAt id).map fun od =>
    od.inputs.map InputConn.srcId).getD []

end Gehtp.Analysis.HtpInjectFresh
