import Mathlib.Data.List.ReduceOption
import Gehtp.Model.TempEmit

/-!
# Who owns a temp

Every temp that a device op names belongs, at that moment, to the output for which the op
uses it. So between two uses of a temp for one output it is used for no other output;
reads of an output come from its own operator or from consumers; and if every id that is
handed out again goes to an output with the same planned place, the table holds for each
temp the place of every output that ever used it.
-/

set_option autoImplicit false

namespace Gehtp.Analysis.TempOwners

open Lib.Lease Model.OpGraph Model.TempEmit

/-! ### Keys -/

def colsKey : ℕ := tkey colsId 0

theorem tkey_div (opId outIdx : ℕ) : tkey opId outIdx / 2 ^ 32 = opId % 2 ^ 32 := by
  unfold tkey
  omega

theorem tkey_mod (opId outIdx : ℕ) : tkey opId outIdx % 2 ^ 32 = outIdx % 2 ^ 32 := by
  unfold tkey
  omega

theorem tkey_div_of_lt {opId : ℕ} (h : opId < colsId) (outIdx : ℕ) :
    tkey opId outIdx / 2 ^ 32 = opId := by
  rw [tkey_div, Nat.mod_eq_of_lt]
  unfold colsId at h
  omega

theorem tkey_ne_colsKey {opId : ℕ} (h : opId < colsId) (outIdx : ℕ) :
    tkey opId outIdx ≠ colsKey := by
  intro heq
  have hdiv := congrArg (· / 2 ^ 32) heq
  simp only [tkey_div_of_lt h, colsKey] at hdiv
  rw [tkey_div] at hdiv
  unfold colsId at h hdiv
  omega

theorem tkey_inj {a b i j : ℕ} (ha : a < colsId) (hb : b < colsId) (h : tkey a i = tkey b j) :
    a = b ∧ i % 2 ^ 32 = j % 2 ^ 32 := by
  constructor
  · have hdiv := congrArg (· / 2 ^ 32) h
    simpa only [tkey_div_of_lt ha, tkey_div_of_lt hb] using hdiv
  · have hmod := congrArg (· % 2 ^ 32) h
    simpa only [tkey_mod] using hmod

/-! ### The calls of the loop -/

/-- Ids that can be told from each other in 32 bits, and from the id of the columns. -/
def IdsOk (g : OpMap) : Prop :=
  ∀ id od, g.getOpAt id = some od → id < colsId ∧ ∀ c ∈ od.inputs, c.srcId < colsId

/-- An operator for which the emitter makes calls. -/
def Emitted (cfg : EmitConfig) (pos id : ℕ) (od : OpDef) : Prop :=
  cfg.order[pos]? = some id ∧ cfg.g.getOpAt id = some od ∧ passedOver od = false

/-- The calls that are made for an operator. -/
inductive CallFor (id : ℕ) (od : OpDef) : EmitCall → Prop
  | fill (c : InputConn) (hc : c ∈ od.inputs) : CallFor id od (.fill c)
  | fresh (outIdx : ℕ) : CallFor id od (.fresh id outIdx)
  | freshCols : CallFor id od (.fresh colsId 0)
  | addOp (reads : List TempRef) (dst : Option (TempRef × ℕ)) : CallFor id od (.addOp od reads dst)
  | spill : CallFor id od (.spill id)
  | release (c : InputConn) (hc : c ∈ od.inputs) : CallFor id od (.release c)
  | abort : CallFor id od .abort

theorem callFor_of_mem {cfg : EmitConfig} {id : ℕ} {call : EmitCall} (h : call ∈ callsOf cfg id) :
    ∃ od, cfg.g.getOpAt id = some od ∧ passedOver od = false ∧ CallFor id od call := by
  unfold callsOf at h
  cases hod : cfg.g.getOpAt id with
  | none => simp [hod] at h
  | some od =>
    refine ⟨od, rfl, ?_⟩
    rw [hod] at h
    dsimp only at h
    split at h
    · simp at h
    · rename_i hskip
      refine ⟨by simpa using hskip, ?_⟩
      have hid : od.opId = id := cfg.g.keyed id od hod
      cases hrecipe : handlerOf cfg od with
      | none =>
        simp only [hrecipe, List.mem_singleton] at h
        exact h ▸ .abort
      | some recipe =>
        simp only [hrecipe, List.mem_append, List.mem_map, List.mem_singleton] at h
        rcases h with ((⟨c, hc, rfl⟩ | ⟨st, -, rfl⟩) | rfl) | ⟨c, hc, rfl⟩
        · exact .fill c hc
        · cases st with
          | fresh outIdx => exact hid ▸ .fresh outIdx
          | freshCols => exact .freshCols
          | addOp reads dst => exact .addOp reads dst
        · exact .spill
        · exact .release c hc

theorem mem_emitCalls {cfg : EmitConfig} {c : ℕ × EmitCall} (h : c ∈ emitCalls cfg) :
    ∃ id od, Emitted cfg c.1 id od ∧ CallFor id od c.2 := by
  obtain ⟨e, he, hc⟩ := List.mem_flatMap.mp h
  obtain ⟨call, hcall, rfl⟩ := List.mem_map.mp hc
  obtain ⟨od, hod, hskip, hfor⟩ := callFor_of_mem hcall
  exact ⟨e.1, od, ⟨List.mem_zipIdx_iff_getElem?.mp he, hod, hskip⟩, hfor⟩

theorem order_zipIdx_lt (cfg : EmitConfig) :
    cfg.order.zipIdx.Pairwise fun a b => a.2 < b.2 := by
  have hmap : (cfg.order.zipIdx.map Prod.snd).Pairwise (· < ·) := by
    rw [List.zipIdx_map_snd]
    exact List.pairwise_lt_range'
  exact List.pairwise_map.mp hmap

/-- The calls come in the order of the operators. -/
theorem emitCalls_sorted (cfg : EmitConfig) :
    (emitCalls cfg).Pairwise fun a b => a.1 ≤ b.1 := by
  unfold emitCalls
  rw [List.pairwise_flatMap]
  constructor
  · intro e _
    rw [List.pairwise_map]
    exact List.pairwise_of_forall fun _ _ => Nat.le_refl _
  · apply (order_zipIdx_lt cfg).imp
    intro a b hab x hx y hy
    obtain ⟨_, _, rfl⟩ := List.mem_map.mp hx
    obtain ⟨_, _, rfl⟩ := List.mem_map.mp hy
    exact Nat.le_of_lt hab

/-- The calls before a call are of operators at the same place or before. -/
theorem le_of_emitCalls_split {cfg : EmitConfig} {done rest : List (ℕ × EmitCall)}
    {c : ℕ × EmitCall} (hsplit : emitCalls cfg = done ++ c :: rest) : ∀ b ∈ done, b.1 ≤ c.1 := by
  have hsorted := emitCalls_sorted cfg
  rw [hsplit, List.pairwise_append] at hsorted
  exact fun b hb => hsorted.2.2 b hb c List.mem_cons_self

/-- The key of an output that a call asks a temp for. -/
def freshKey (c : ℕ × EmitCall) : Option ℕ :=
  match c.2 with
  | .fresh opId outIdx => if opId = colsId then none else some (tkey opId outIdx)
  | _ => none

theorem filterMap_freshKey_steps (pos : ℕ) (od : OpDef) (hid : od.opId ≠ colsId)
    (steps : List HandlerStep) :
    (steps.map (handlerCall od)).filterMap (fun c => freshKey (pos, c)) =
      (freshOuts steps).map (tkey od.opId) := by
  induction steps with
  | nil => rfl
  | cons st steps ih =>
    cases st with
    | fresh outIdx =>
      have hkey : freshKey (pos, handlerCall od (.fresh outIdx)) =
          some (tkey od.opId (outIdx % 2 ^ 32)) := by
        simp [freshKey, handlerCall, hid, tkey]
      rw [List.map_cons, List.filterMap_cons, hkey, ih]
      rfl
    | freshCols =>
      rw [List.map_cons, List.filterMap_cons, ih]
      rfl
    | addOp reads dst =>
      rw [List.map_cons, List.filterMap_cons, ih]
      rfl

theorem filterMap_freshKey_map (pos : ℕ) (f : InputConn → EmitCall)
    (hf : ∀ c, freshKey (pos, f c) = none) (l : List InputConn) :
    (l.map f).filterMap (fun c => freshKey (pos, c)) = [] := by
  rw [List.filterMap_eq_nil_iff]
  intro c hc
  obtain ⟨x, -, rfl⟩ := List.mem_map.mp hc
  exact hf x

theorem freshKeys_callsOf (cfg : EmitConfig) (hids : IdsOk cfg.g) (pos id : ℕ) :
    ((callsOf cfg id).filterMap fun c => freshKey (pos, c)).Nodup ∧
      ∀ k ∈ (callsOf cfg id).filterMap fun c => freshKey (pos, c), k / 2 ^ 32 = id := by
  unfold callsOf
  cases hod : cfg.g.getOpAt id with
  | none => simp
  | some od =>
    dsimp only
    split
    · simp
    · cases hrecipe : handlerOf cfg od with
      | none => simp [freshKey]
      | some recipe =>
        have hlt : id < colsId := (hids id od hod).1
        have hopId : od.opId = id := cfg.g.keyed id od hod
        simp only [List.filterMap_append, filterMap_freshKey_map pos .fill fun _ => rfl,
          filterMap_freshKey_map pos .release fun _ => rfl, List.append_nil, List.nil_append,
          filterMap_freshKey_steps pos od (by omega), hopId]
        have hspill : [EmitCall.spill id].filterMap (fun c => freshKey (pos, c)) = [] := rfl
        rw [hspill, List.append_nil]
        constructor
        · apply recipe.once.map_on
          intro i hi j hj hij
          have hmod := (tkey_inj hlt hlt hij).2
          have hsmall : ∀ x ∈ freshOuts recipe.steps, x % 2 ^ 32 = x := by
            intro x hx
            obtain ⟨st, -, hst⟩ := List.mem_filterMap.mp hx
            cases st with
            | fresh outIdx =>
              obtain rfl := Option.some.inj hst
              exact Nat.mod_mod _ _
            | freshCols => cases hst
            | addOp reads dst => cases hst
          rwa [hsmall i hi, hsmall j hj] at hmod
        · intro k hk
          obtain ⟨outIdx, -, rfl⟩ := List.mem_map.mp hk
          exact tkey_div_of_lt hlt outIdx

/-- No output asks for a temp twice. -/
theorem freshKeys_nodup (cfg : EmitConfig) (hids : IdsOk cfg.g) (hnd : cfg.order.Nodup) :
    ((emitCalls cfg).filterMap freshKey).Nodup := by
  unfold emitCalls
  rw [List.filterMap_flatMap]
  simp only [List.filterMap_map]
  rw [List.nodup_flatMap]
  constructor
  · intro e _
    exact (freshKeys_callsOf cfg hids e.2 e.1).1
  · have hne : cfg.order.zipIdx.Pairwise fun a b => a.1 ≠ b.1 := by
      have hmap : (cfg.order.zipIdx.map Prod.fst).Pairwise (· ≠ ·) := by
        rw [List.zipIdx_map_fst]
        exact hnd
      exact List.pairwise_map.mp hmap
    apply hne.imp
    intro a b hab k hka hkb
    apply hab
    rw [← (freshKeys_callsOf cfg hids a.2 a.1).2 k hka, (freshKeys_callsOf cfg hids b.2 b.1).2 k hkb]

/-! ### What a call does -/

def placeOfKey (cfg : EmitConfig) (key : ℕ) : Option TempPlace :=
  cfg.usablePlace (key / 2 ^ 32) (key % 2 ^ 32)

theorem placeOfKey_tkey (cfg : EmitConfig) {opId : ℕ} (h : opId < colsId ∨ opId = colsId)
    (outIdx : ℕ) : placeOfKey cfg (tkey opId outIdx) = cfg.usablePlace opId outIdx := by
  have hdiv : tkey opId outIdx / 2 ^ 32 = opId := by
    rw [tkey_div, Nat.mod_eq_of_lt]
    unfold colsId at h
    omega
  unfold placeOfKey EmitConfig.usablePlace
  rw [hdiv, tkey_mod, Nat.mod_mod]

/-- The output behind a reference of a handler. -/
def refKey (od : OpDef) : TempRef → Option ℕ
  | .input i => od.inputs[i]?.map fun c => tkey c.srcId c.outIdx
  | .out outIdx => some (tkey od.opId outIdx)
  | .cols => some colsKey

theorem lookup_eq_some {em : Emitter} {key : ℕ} {u : ℕ × ℕ} (h : em.lookup key = some u) :
    em.desk.own u.2 = some u.1 ∧ u.2 = key := by
  obtain ⟨t, ht, rfl⟩ := Option.map_eq_some_iff.mp h
  exact ⟨ht, rfl⟩

/-- A resolved reference names a temp that its key owns. -/
theorem resolve_eq_some {cfg : EmitConfig} {em : Emitter} {od : OpDef} {r : TempRef} {u : ℕ × ℕ}
    (h : resolve cfg em od r = some (some u)) :
    em.desk.own u.2 = some u.1 ∧ refKey od r = some u.2 := by
  have hlookup : ∀ key, (em.lookup key).map some = some (some u) →
      em.desk.own u.2 = some u.1 ∧ u.2 = key := by
    intro key hkey
    obtain ⟨u', hu', heq⟩ := Option.map_eq_some_iff.mp hkey
    obtain rfl := Option.some.inj heq
    exact lookup_eq_some hu'
  cases r with
  | input i =>
    simp only [resolve] at h
    split at h
    · cases h
    · rename_i c hc
      split at h
      · cases h
      · obtain ⟨hown, hkey⟩ := hlookup _ h
        exact ⟨hown, by simp [refKey, hc, hkey]⟩
  | out outIdx =>
    obtain ⟨hown, hkey⟩ := hlookup _ h
    exact ⟨hown, by simp [refKey, hkey]⟩
  | cols =>
    obtain ⟨hown, hkey⟩ := hlookup _ h
    exact ⟨hown, by simp [refKey, hkey, colsKey]⟩

theorem mem_of_mapM {α β : Type} {f : α → Option β} {l : List α} {l' : List β}
    (h : l.mapM f = some l') {y : β} (hy : y ∈ l') : ∃ x ∈ l, f x = some y := by
  induction l generalizing l' with
  | nil =>
    obtain rfl : [] = l' := by simpa using h
    simp at hy
  | cons x l ih =>
    rw [List.mapM_cons] at h
    obtain ⟨a, ha, h⟩ := Option.bind_eq_some_iff.mp h
    obtain ⟨as, has, h⟩ := Option.bind_eq_some_iff.mp h
    obtain rfl : a :: as = l' := Option.some.inj h
    rcases List.mem_cons.mp hy with rfl | hy
    · exact ⟨x, by simp, ha⟩
    · obtain ⟨x', hx', hfx'⟩ := ih has hy
      exact ⟨x', by simp [hx'], hfx'⟩

/-- A request is not too large for the pool, and fits in the planned place of the output. -/
def Fits (cfg : EmitConfig) (key bytes : ℕ) : Prop :=
  bytes + 127 + 2 ^ 31 + 2 ^ 26 < 2 ^ 32 ∧ ∀ p, placeOfKey cfg key = some p → bytes ≤ p.size

/-- The device op that a call adds, if any, asks for no more than what fits. -/
def WriteFits (cfg : EmitConfig) : EmitCall → Prop
  | .addOp od _ (some (r, bytes)) => ∀ key, refKey od r = some key → Fits cfg key bytes
  | .fill c =>
    ∀ size, cfg.ddrSpillMap c.srcId = some size →
      Fits cfg (tkey c.srcId c.outIdx) (fillBytes cfg size)
  | _ => True

/-- The output `key` is read for the operator `od` with the id `id`. -/
def ReadFor (id : ℕ) (od : OpDef) (key : ℕ) : Prop :=
  key = colsKey ∨ key / 2 ^ 32 = id ∨ ∃ c ∈ od.inputs, key = tkey c.srcId c.outIdx

/-- The output `key` is written for the operator `od`: one that the handler names, or a spilled
input that comes back. -/
inductive WriteFor (cfg : EmitConfig) (od : OpDef) (op : DeviceOp) (key : ℕ) : EmitCall → Prop
  | handler (reads : List TempRef) (r : TempRef) (bytes : ℕ) (hkey : refKey od r = some key) :
      WriteFor cfg od op key (.addOp od reads (some (r, bytes)))
  | fill (c : InputConn) (size : ℕ) (hkey : key = tkey c.srcId c.outIdx)
      (hsize : cfg.ddrSpillMap c.srcId = some size) (hreads : op.reads = []) :
      WriteFor cfg od op key (.fill c)

/-- A device op that is added for an operator by a call. -/
structure OpFor (cfg : EmitConfig) (em : Emitter) (pos id : ℕ) (od : OpDef) (call : EmitCall)
    (op : DeviceOp) : Prop where
  pos : op.pos = pos
  owned : ∀ u ∈ op.uses, em.desk.own u.2 = some u.1
  reads : ∀ u ∈ op.reads, ReadFor id od u.2
  writes : ∀ t bytes, op.dst = some (t, bytes) → WriteFor cfg od op t.2 call
  fits : WriteFits cfg call → ∀ t bytes, op.dst = some (t, bytes) → Fits cfg t.2 bytes

theorem readFor_of_refKey {id : ℕ} {od : OpDef} (hid : id < colsId) (hopId : od.opId = id)
    {r : TempRef} {key : ℕ} (h : refKey od r = some key) : ReadFor id od key := by
  cases r with
  | input i =>
    obtain ⟨c, hc, rfl⟩ := Option.map_eq_some_iff.mp h
    exact .inr (.inr ⟨c, List.mem_of_getElem? hc, rfl⟩)
  | out outIdx =>
    obtain rfl := Option.some.inj h
    exact .inr (.inl (by rw [hopId, tkey_div_of_lt hid]))
  | cols =>
    obtain rfl := Option.some.inj h
    exact .inl rfl

theorem opFor_addOp {cfg : EmitConfig} {em em' : Emitter} {pos id : ℕ} {od : OpDef}
    {reads : List TempRef} {dst : Option (TempRef × ℕ)} (hid : id < colsId) (hopId : od.opId = id)
    (h : addOp cfg em pos od reads dst = some em') :
    ∃ op, OpFor cfg em pos id od (.addOp od reads dst) op ∧
      em' = { em with ops := em.ops ++ [op] } := by
  unfold addOp at h
  cases hrs : reads.mapM (resolve cfg em od) with
  | none => simp [hrs] at h
  | some rs =>
    cases hd : resolveDst cfg em od dst with
    | none => simp [hrs, hd] at h
    | some d =>
      simp only [hrs, hd, Option.some.injEq] at h
      have hreads : ∀ u ∈ rs.reduceOption, ∃ r, resolve cfg em od r = some (some u) := by
        intro u hu
        obtain ⟨r, -, hr⟩ := mem_of_mapM hrs (List.reduceOption_mem_iff.mp hu)
        exact ⟨r, hr⟩
      have hdst : ∀ t bytes, d = some (t, bytes) →
          ∃ r, dst = some (r, bytes) ∧ resolve cfg em od r = some (some t) := by
        rintro t bytes rfl
        cases dst with
        | none => simp [resolveDst] at hd
        | some rb =>
          obtain ⟨o, ho, heq⟩ := Option.map_eq_some_iff.mp hd
          obtain ⟨t', rfl, hpair⟩ := Option.map_eq_some_iff.mp heq
          obtain ⟨rfl, hbytes⟩ := Prod.mk.inj hpair
          exact ⟨rb.1, by rw [← hbytes], ho⟩
      refine ⟨_, ⟨rfl, ?_, ?_, ?_, ?_⟩, h.symm⟩
      · intro u hu
        rcases List.mem_append.mp hu with hu | hu
        · obtain ⟨r, hr⟩ := hreads u hu
          exact (resolve_eq_some hr).1
        · cases d with
          | none => simp at hu
          | some tb =>
            obtain rfl : u = tb.1 := by simpa using hu
            obtain ⟨r, -, hr⟩ := hdst tb.1 tb.2 rfl
            exact (resolve_eq_some hr).1
      · intro u hu
        obtain ⟨r, hr⟩ := hreads u hu
        exact readFor_of_refKey hid hopId (resolve_eq_some hr).2
      · intro t bytes htb
        obtain ⟨r, rfl, hr⟩ := hdst t bytes htb
        exact .handler reads r bytes (resolve_eq_some hr).2
      · intro hfit t bytes htb
        obtain ⟨r, rfl, hr⟩ := hdst t bytes htb
        exact hfit t.2 (resolve_eq_some hr).2

/-- What one call does. -/
theorem emitCall_cases {cfg : EmitConfig} {em em' : Emitter} {pos id : ℕ} {od : OpDef}
    {call : EmitCall} (hid : id < colsId) (hopId : od.opId = id) (hfor : CallFor id od call)
    (h : emitCall cfg em pos call = some em') :
    em' = em ∨
      (∃ op, OpFor cfg em pos id od call op ∧ em' = { em with ops := em.ops ++ [op] }) ∨
      (∃ opId outIdx, call = .fresh opId outIdx ∧ (opId = id ∨ opId = colsId ∧ outIdx = 0) ∧
        freshTemp cfg em opId outIdx = some em') ∨
      ∃ c ∈ od.inputs, call = .release c ∧
        em' = { em with desk := em.desk.release (tkey c.srcId c.outIdx) } := by
  cases hfor with
  | fill c hc =>
    obtain rfl : fill cfg em pos c = em' := Option.some.inj h
    unfold fill
    split
    · rename_i size t hsize ht
      obtain ⟨hown, hkey⟩ := lookup_eq_some ht
      refine .inr (.inl ⟨_, ⟨rfl, ?_, by simp, ?_, ?_⟩, rfl⟩)
      · intro u hu
        obtain rfl : u = t := by simpa [DeviceOp.uses] using hu
        exact hown
      · intro t' bytes heq
        obtain ⟨rfl, rfl⟩ := Prod.mk.inj (Option.some.inj heq)
        exact .fill c size hkey hsize rfl
      · intro hfit t' bytes heq
        obtain ⟨rfl, rfl⟩ := Prod.mk.inj (Option.some.inj heq)
        rw [hkey]
        exact hfit size hsize
    · exact .inl rfl
  | fresh outIdx => exact .inr (.inr (.inl ⟨id, outIdx, rfl, .inl rfl, h⟩))
  | freshCols => exact .inr (.inr (.inl ⟨colsId, 0, rfl, .inr ⟨rfl, rfl⟩, h⟩))
  | addOp reads dst => exact .inr (.inl (opFor_addOp hid hopId h))
  | spill =>
    obtain rfl : spill cfg em pos id = em' := Option.some.inj h
    unfold spill
    split
    · rename_i size t hsize ht
      obtain ⟨hown, hkey⟩ := lookup_eq_some ht
      refine .inr (.inl ⟨_, ⟨rfl, ?_, ?_, by simp, by simp⟩, rfl⟩)
      · intro u hu
        obtain rfl : u = t := by simpa [DeviceOp.uses] using hu
        exact hown
      · intro u hu
        obtain rfl : u = t := by simpa using hu
        exact .inr (.inl (by rw [hkey, tkey_div_of_lt hid]))
    · exact .inl rfl
  | release c hc =>
    obtain rfl : releaseAt cfg em (tkey c.srcId c.outIdx) pos = em' := Option.some.inj h
    unfold releaseAt
    split
    · split
      · exact .inl rfl
      · exact .inr (.inr (.inr ⟨c, hc, rfl, rfl⟩))
    · exact .inr (.inr (.inr ⟨c, hc, rfl, rfl⟩))
  | abort => cases h

/-! ### Owners -/

/-- The temp `t` is with the output `k`, or a device op has used it for `k`. -/
def Used (em : Emitter) (t k : ℕ) : Prop :=
  em.desk.own k = some t ∨ ∃ op ∈ em.ops, (t, k) ∈ op.uses

/-- A call that gets an id that was returned gets one whose place in the table is the one
planned for the new output; an id that is handed out for the first time has 14 bits. -/
def ReuseOk (cfg : EmitConfig) (em : Emitter) : EmitCall → Prop
  | .fresh opId outIdx =>
    match em.desk.free with
    | [] => em.desk.next < 2 ^ 14
    | t :: _ => em.tempTab t = cfg.usablePlace opId outIdx
  | _ => True

theorem freshTemp_desk {cfg : EmitConfig} {em em' : Emitter} {opId outIdx : ℕ}
    (h : freshTemp cfg em opId outIdx = some em') :
    em'.desk = em.desk.acquire (tkey opId outIdx) ∧ em'.ops = em.ops := by
  simp only [freshTemp] at h
  split at h
  · cases h
  · obtain rfl := Option.some.inj h
    exact ⟨rfl, rfl⟩

theorem freshTemp_tempTab {cfg : EmitConfig} {em em' : Emitter} {opId outIdx : ℕ}
    (h : freshTemp cfg em opId outIdx = some em') (hreuse : ReuseOk cfg em (.fresh opId outIdx))
    (hnew : em.tempTab em.desk.next = none) :
    em'.tempTab = Function.update em.tempTab em.desk.taken (cfg.usablePlace opId outIdx) := by
  simp only [freshTemp] at h
  split at h
  · cases h
  · obtain rfl := Option.some.inj h
    cases hfree : em.desk.free with
    | nil =>
      have htaken : em.desk.taken = em.desk.next := by simp [Desk.taken, hfree]
      simp only [htaken, hnew]
      cases hp : cfg.usablePlace opId outIdx with
      | none => exact (Function.update_eq_self_iff.mpr hnew.symm).symm
      | some p => simp
    | cons t rest =>
      have htaken : em.desk.taken = t := by simp [Desk.taken, hfree]
      have htab : em.tempTab t = cfg.usablePlace opId outIdx := by
        simpa only [ReuseOk, hfree] using hreuse
      rw [htaken, Function.update_eq_self_iff.mpr htab.symm]
      cases hp : cfg.usablePlace opId outIdx with
      | none => rfl
      | some p => simp [htab, hp]

/-- What holds of the loans after the calls `done`. -/
structure LoanInv (done : List (ℕ × EmitCall)) (em : Emitter) : Prop where
  wf : em.desk.Wf
  log : LogInv em.desk (em.ops.map DeviceOp.uses)
  asked : ∀ t k, Used em t k → k = colsKey ∨ k ∈ done.filterMap freshKey
  single : ∀ t t' k, Used em t k → Used em t' k → k ≠ colsKey → t = t'
  cols : ∀ t, Used em t colsKey → t ∉ em.desk.free ∧ ∀ k, em.desk.own k = some t → k = colsKey

/-- What holds of the owners and of the table after the calls `done`. -/
structure OwnerInv (cfg : EmitConfig) (done : List (ℕ × EmitCall)) (em : Emitter) : Prop
    extends LoanInv done em where
  tab : ∀ t k, Used em t k → em.tempTab t = placeOfKey cfg k
  tabNone : ∀ t, em.desk.next ≤ t → em.tempTab t = none
  planned : ∀ t p, em.tempTab t = some p → ∃ k, placeOfKey cfg k = some p
  next_le : em.desk.next ≤ 2 ^ 14

theorem uses_of_used {em : Emitter} {op : DeviceOp} (hop : op ∈ em.ops) {t k : ℕ}
    (h : (t, k) ∈ op.uses) : ∃ j, Uses (em.ops.map DeviceOp.uses) j t k := by
  obtain ⟨j, hj, rfl⟩ := List.getElem_of_mem hop
  exact ⟨j, _, by simp [hj], h⟩

theorem used_of_uses {em : Emitter} {j t k : ℕ} (h : Uses (em.ops.map DeviceOp.uses) j t k) :
    Used em t k := by
  obtain ⟨us, hus, hmem⟩ := h
  obtain ⟨op, hop, rfl⟩ := List.mem_map.mp (List.mem_of_getElem? hus)
  exact .inr ⟨op, hop, hmem⟩

theorem LoanInv.used_lt {done : List (ℕ × EmitCall)} {em : Emitter} (h : LoanInv done em)
    {t k : ℕ} (hu : Used em t k) : t < em.desk.next := by
  rcases hu with hown | ⟨op, hop, hmem⟩
  · exact h.wf.own_lt k t hown
  · obtain ⟨j, hj⟩ := uses_of_used hop hmem
    exact h.log.lt j t k hj

theorem not_used_new (t k : ℕ) : ¬ Used Emitter.new t k := by
  simp [Used, Emitter.new, Desk.new]

theorem loanInv_new : LoanInv [] Emitter.new where
  wf := Desk.wf_new
  log := LogInv.nil
  asked t k h := absurd h (not_used_new t k)
  single t _ k h := absurd h (not_used_new t k)
  cols t h := absurd h (not_used_new t _)

theorem ownerInv_new (cfg : EmitConfig) : OwnerInv cfg [] Emitter.new where
  toLoanInv := loanInv_new
  tab t k h := absurd h (not_used_new t k)
  tabNone _ _ := rfl
  planned _ _ h := nomatch h
  next_le := Nat.zero_le _

section Steps

variable {cfg : EmitConfig} {done : List (ℕ × EmitCall)} {em : Emitter}

theorem mem_asked_concat {k : ℕ} (c : ℕ × EmitCall)
    (h : k = colsKey ∨ k ∈ done.filterMap freshKey) :
    k = colsKey ∨ k ∈ (done ++ [c]).filterMap freshKey := by
  rw [List.filterMap_append, List.mem_append]
  exact h.imp_right .inl

theorem LoanInv.same (h : LoanInv done em) (c : ℕ × EmitCall) : LoanInv (done ++ [c]) em :=
  { h with asked := fun t k hu => mem_asked_concat c (h.asked t k hu) }

theorem OwnerInv.same (h : OwnerInv cfg done em) (c : ℕ × EmitCall) :
    OwnerInv cfg (done ++ [c]) em :=
  { h with toLoanInv := h.toLoanInv.same c }

theorem used_of_concat {op : DeviceOp} (howned : ∀ u ∈ op.uses, em.desk.own u.2 = some u.1)
    {t k : ℕ} (h : Used { em with ops := em.ops ++ [op] } t k) : Used em t k := by
  rcases h with hown | ⟨op', hop', hmem⟩
  · exact .inl hown
  · rcases List.mem_append.mp hop' with hop' | hop'
    · exact .inr ⟨op', hop', hmem⟩
    · rw [List.mem_singleton.mp hop'] at hmem
      exact .inl (howned (t, k) hmem)

/-- An op that names owned temps only keeps the invariant. -/
theorem LoanInv.concat (h : LoanInv done em) (c : ℕ × EmitCall) {op : DeviceOp}
    (howned : ∀ u ∈ op.uses, em.desk.own u.2 = some u.1) :
    LoanInv (done ++ [c]) { em with ops := em.ops ++ [op] } where
  wf := h.wf
  log := by
    rw [List.map_append]
    exact h.log.concat h.wf howned
  asked t k hu := mem_asked_concat c (h.asked t k (used_of_concat howned hu))
  single t t' k hu hu' := h.single t t' k (used_of_concat howned hu) (used_of_concat howned hu')
  cols t hu := h.cols t (used_of_concat howned hu)

theorem OwnerInv.concat (h : OwnerInv cfg done em) (c : ℕ × EmitCall) {op : DeviceOp}
    (howned : ∀ u ∈ op.uses, em.desk.own u.2 = some u.1) :
    OwnerInv cfg (done ++ [c]) { em with ops := em.ops ++ [op] } where
  toLoanInv := h.toLoanInv.concat c howned
  tab t k hu := h.tab t k (used_of_concat howned hu)
  tabNone := h.tabNone
  planned := h.planned
  next_le := h.next_le

theorem used_of_release {key t k : ℕ}
    (h : Used { em with desk := em.desk.release key } t k) : Used em t k :=
  h.imp_left Desk.release_own

theorem LoanInv.release (h : LoanInv done em) (c : ℕ × EmitCall) {key : ℕ}
    (hkey : key ≠ colsKey) :
    LoanInv (done ++ [c]) { em with desk := em.desk.release key } := by
  constructor
  · exact h.wf.release key
  · exact h.log.release key
  · exact fun t k hu => mem_asked_concat c (h.asked t k (used_of_release hu))
  · exact fun t t' k hu hu' => h.single t t' k (used_of_release hu) (used_of_release hu')
  · intro t hu
    obtain ⟨hfree, hown⟩ := h.cols t (used_of_release hu)
    constructor
    · intro hmem
      rcases Desk.mem_release_free hmem with hmem | hmem
      · exact hfree hmem
      · exact hkey (hown key hmem)
    · exact fun k hk => hown k (Desk.release_own hk)

theorem OwnerInv.release (h : OwnerInv cfg done em) (c : ℕ × EmitCall) {key : ℕ}
    (hkey : key ≠ colsKey) :
    OwnerInv cfg (done ++ [c]) { em with desk := em.desk.release key } where
  toLoanInv := h.toLoanInv.release c hkey
  tab t k hu := h.tab t k (used_of_release hu)
  tabNone t ht := by
    rw [Desk.release_next] at ht
    exact h.tabNone t ht
  planned := h.planned
  next_le := (Desk.release_next em.desk key).trans_le h.next_le

theorem LoanInv.not_used_taken (h : LoanInv done em) {key : ℕ}
    (hkey : key = colsKey ∨ key ∉ done.filterMap freshKey) : ¬ Used em em.desk.taken key := by
  intro hu
  have hlt := h.used_lt hu
  by_cases hcols : key = colsKey
  · subst hcols
    have hfree := (h.cols _ hu).1
    cases hf : em.desk.free with
    | nil =>
      have : em.desk.taken = em.desk.next := by simp [Desk.taken, hf]
      omega
    | cons t rest =>
      apply hfree
      simp [Desk.taken, hf]
  · rcases h.asked _ _ hu with heq | hmem
    · exact hcols heq
    · rcases hkey with heq | hnot
      · exact hcols heq
      · exact hnot hmem

theorem used_of_acquire {em' : Emitter} {key : ℕ} (hdesk : em'.desk = em.desk.acquire key)
    (hops : em'.ops = em.ops) {t k : ℕ} (h : Used em' t k) :
    (k = key ∧ t = em.desk.taken) ∨ Used em t k := by
  rcases h with hown | ⟨op, hop, hmem⟩
  · rw [hdesk] at hown
    by_cases hk : k = key
    · subst hk
      rw [Desk.acquire_own_self] at hown
      exact .inl ⟨rfl, (Option.some.inj hown).symm⟩
    · rw [Desk.acquire_own_of_ne hk] at hown
      exact .inr (.inl hown)
  · rw [hops] at hop
    exact .inr (.inr ⟨op, hop, hmem⟩)

/-- An output that may ask for a temp: the columns, or one that did not ask before. -/
def MayAsk (done : List (ℕ × EmitCall)) (opId outIdx : ℕ) : Prop :=
  opId = colsId ∧ outIdx = 0 ∨
    opId < colsId ∧ tkey opId outIdx ∉ done.filterMap freshKey

theorem MayAsk.key {opId outIdx : ℕ} (h : MayAsk done opId outIdx) :
    tkey opId outIdx = colsKey ∨ tkey opId outIdx ∉ done.filterMap freshKey := by
  rcases h with ⟨rfl, rfl⟩ | ⟨-, hnot⟩
  · exact .inl rfl
  · exact .inr hnot

theorem LoanInv.acquire (h : LoanInv done em) {em' : Emitter} {pos opId outIdx : ℕ}
    (hask : MayAsk done opId outIdx)
    (hdesk : em'.desk = em.desk.acquire (tkey opId outIdx)) (hops : em'.ops = em.ops) :
    LoanInv (done ++ [(pos, .fresh opId outIdx)]) em' := by
  obtain ⟨hfreeOwn, hnotTail, -⟩ := h.wf.taken_spec
  have hnew := h.not_used_taken hask.key
  constructor
  · rw [hdesk]
    exact h.wf.acquire _
  · rw [hdesk, hops]
    exact h.log.acquire fun j hj => hnew (used_of_uses hj)
  · intro t k hu
    rcases used_of_acquire hdesk hops hu with ⟨rfl, -⟩ | hu
    · rcases hask with ⟨rfl, rfl⟩ | ⟨hlt, -⟩
      · exact .inl rfl
      · right
        rw [List.filterMap_append, List.mem_append]
        right
        simp [freshKey, Nat.ne_of_lt hlt]
    · exact mem_asked_concat _ (h.asked t k hu)
  · intro t t' k hu hu' hk
    -- a key that was used before was asked for, and no output asks twice
    have hold : ∀ s, Used em s (tkey opId outIdx) → tkey opId outIdx = colsKey := by
      intro s hs
      rcases h.asked _ _ hs with heq | hmem
      · exact heq
      · exact hask.key.resolve_right fun hnot => hnot hmem
    rcases used_of_acquire hdesk hops hu with ⟨rfl, rfl⟩ | hu <;>
      rcases used_of_acquire hdesk hops hu' with ⟨hk', rfl⟩ | hu'
    · rfl
    · exact absurd (hold _ hu') hk
    · subst hk'
      exact absurd (hold _ hu) hk
    · exact h.single t t' k hu hu' hk
  · intro t hu
    rw [hdesk]
    rcases used_of_acquire hdesk hops hu with ⟨hk, rfl⟩ | hu
    · refine ⟨hnotTail, fun k hown => ?_⟩
      have hself : (em.desk.acquire (tkey opId outIdx)).own colsKey = some em.desk.taken := by
        rw [hk]
        exact Desk.acquire_own_self _ _
      exact (h.wf.acquire _).own_inj k colsKey _ hown hself
    · obtain ⟨hfree, howner⟩ := h.cols t hu
      refine ⟨fun hmem => hfree (Desk.mem_acquire_free hmem), fun k hown => ?_⟩
      by_cases hk : k = tkey opId outIdx
      · subst hk
        rw [Desk.acquire_own_self] at hown
        obtain rfl := Option.some.inj hown
        exact absurd hu (h.not_used_taken (.inl rfl))
      · rw [Desk.acquire_own_of_ne hk] at hown
        exact howner k hown

theorem OwnerInv.acquire (h : OwnerInv cfg done em) {em' : Emitter} {pos opId outIdx : ℕ}
    (hask : MayAsk done opId outIdx) (hreuse : ReuseOk cfg em (.fresh opId outIdx))
    (hrun : freshTemp cfg em opId outIdx = some em') :
    OwnerInv cfg (done ++ [(pos, .fresh opId outIdx)]) em' := by
  obtain ⟨hdesk, hops⟩ := freshTemp_desk hrun
  have htab := freshTemp_tempTab hrun hreuse (h.tabNone _ le_rfl)
  have hplace : placeOfKey cfg (tkey opId outIdx) = cfg.usablePlace opId outIdx :=
    placeOfKey_tkey cfg (hask.symm.imp And.left And.left) outIdx
  refine ⟨h.toLoanInv.acquire hask hdesk hops, ?_, ?_, ?_, ?_⟩
  · intro t k hu
    rw [htab]
    rcases used_of_acquire hdesk hops hu with ⟨rfl, rfl⟩ | hu
    · rw [Function.update_self, hplace]
    · by_cases ht : t = em.desk.taken
      · -- the id was used before, so it comes from the stack
        subst ht
        have hlt := h.used_lt hu
        rw [Function.update_self, ← h.tab _ k hu]
        cases hf : em.desk.free with
        | nil =>
          have : em.desk.taken = em.desk.next := by simp [Desk.taken, hf]
          omega
        | cons s rest =>
          have htaken : em.desk.taken = s := by simp [Desk.taken, hf]
          rw [htaken]
          simpa only [ReuseOk, hf, eq_comm] using hreuse
      · rw [Function.update_of_ne ht]
        exact h.tab t k hu
  · intro t ht
    have hlt : em.desk.taken < em'.desk.next := by
      rw [hdesk]
      exact h.wf.taken_spec.2.2 _
    rw [htab, Function.update_of_ne (by omega)]
    apply h.tabNone
    rw [hdesk] at ht
    exact (Desk.next_le_acquire _ _).trans ht
  · intro t p hp
    rw [htab] at hp
    by_cases ht : t = em.desk.taken
    · subst ht
      rw [Function.update_self, ← hplace] at hp
      exact ⟨_, hp⟩
    · rw [Function.update_of_ne ht] at hp
      exact h.planned t p hp
  · rw [hdesk]
    have hle := h.next_le
    simp only [Desk.acquire]
    split
    · rename_i hf
      have : em.desk.next < 2 ^ 14 := by simpa only [ReuseOk, hf] using hreuse
      omega
    · exact hle

end Steps

/-! ### The trace -/

/-- What holds of the device ops after the calls `done`. -/
structure TraceInv (cfg : EmitConfig) (done : List (ℕ × EmitCall)) (ops : List DeviceOp) :
    Prop where
  pos : ∀ op ∈ ops, ∃ c ∈ done, op.pos = c.1
  sorted : ops.Pairwise fun a b => a.pos ≤ b.pos
  reads : ∀ op ∈ ops, ∃ id od, Emitted cfg op.pos id od ∧ ∀ u ∈ op.reads, ReadFor id od u.2
  asked : ∀ op ∈ ops, ∀ u ∈ op.uses,
    u.2 = colsKey ∨ ∃ q ≤ op.pos, ∃ od, Emitted cfg q (u.2 / 2 ^ 32) od
  fits : ∀ op ∈ ops, ∀ t bytes, op.dst = some (t, bytes) → Fits cfg t.2 bytes

theorem traceInv_nil (cfg : EmitConfig) : TraceInv cfg [] [] := by
  constructor <;> simp

theorem TraceInv.same {cfg : EmitConfig} {done : List (ℕ × EmitCall)} {ops : List DeviceOp}
    (h : TraceInv cfg done ops) (c : ℕ × EmitCall) : TraceInv cfg (done ++ [c]) ops :=
  { h with
    pos := fun op hop => by
      obtain ⟨c', hc', heq⟩ := h.pos op hop
      exact ⟨c', List.mem_append_left _ hc', heq⟩ }

theorem emitted_of_freshKey {cfg : EmitConfig} (hids : IdsOk cfg.g) {c : ℕ × EmitCall}
    (hc : c ∈ emitCalls cfg) {k : ℕ} (hk : freshKey c = some k) :
    ∃ od, Emitted cfg c.1 (k / 2 ^ 32) od := by
  obtain ⟨id, od, hem, hfor⟩ := mem_emitCalls hc
  obtain ⟨pos, call⟩ := c
  have hlt : id < colsId := (hids id od hem.2.1).1
  cases hfor with
  | fresh outIdx =>
    simp only [freshKey] at hk
    split at hk
    · cases hk
    · obtain rfl := Option.some.inj hk
      rw [tkey_div_of_lt hlt]
      exact ⟨od, hem⟩
  | freshCols => simp [freshKey] at hk
  | fill | addOp | spill | release | abort => cases hk

theorem TraceInv.concat {cfg : EmitConfig} {done : List (ℕ × EmitCall)} {em : Emitter}
    (h : TraceInv cfg done em.ops) (hown : OwnerInv cfg done em) (hids : IdsOk cfg.g)
    (hdone : ∀ c ∈ done, c ∈ emitCalls cfg) {c : ℕ × EmitCall}
    (hle : ∀ c' ∈ done, c'.1 ≤ c.1) {id : ℕ} {od : OpDef} (hem : Emitted cfg c.1 id od)
    {op : DeviceOp} (hfit : WriteFits cfg c.2) (hop : OpFor cfg em c.1 id od c.2 op) :
    TraceInv cfg (done ++ [c]) (em.ops ++ [op]) := by
  have hsame := h.same c
  constructor
  · intro op' hop'
    rcases List.mem_append.mp hop' with hop' | hop'
    · exact hsame.pos op' hop'
    · rw [List.mem_singleton.mp hop']
      exact ⟨c, by simp, hop.pos⟩
  · rw [List.pairwise_append]
    refine ⟨h.sorted, List.pairwise_singleton _ _, fun a ha b hb => ?_⟩
    obtain ⟨c', hc', heq⟩ := h.pos a ha
    rw [List.mem_singleton.mp hb, hop.pos, heq]
    exact hle c' hc'
  · intro op' hop'
    rcases List.mem_append.mp hop' with hop' | hop'
    · exact h.reads op' hop'
    · rw [List.mem_singleton.mp hop', hop.pos]
      exact ⟨id, od, hem, hop.reads⟩
  · intro op' hop' u hu
    rcases List.mem_append.mp hop' with hop' | hop'
    · exact h.asked op' hop' u hu
    · rw [List.mem_singleton.mp hop'] at hu ⊢
      rcases hown.asked u.1 u.2 (.inl (hop.owned u hu)) with heq | hmem
      · exact .inl heq
      · obtain ⟨c', hc', hk⟩ := List.mem_filterMap.mp hmem
        right
        rw [hop.pos]
        exact ⟨c'.1, hle c' hc', emitted_of_freshKey hids (hdone c' hc') hk⟩
  · intro op' hop' t bytes hdst
    rcases List.mem_append.mp hop' with hop' | hop'
    · exact h.fits op' hop' t bytes hdst
    · rw [List.mem_singleton.mp hop'] at hdst
      exact hop.fits hfit t bytes hdst

/-! ### The whole loop -/

/-- The writes of all device ops fit. -/
def WritesFit (cfg : EmitConfig) : Prop := ∀ c ∈ emitCalls cfg, WriteFits cfg c.2

/-- Every id that is handed out may be used for the output that it goes to. -/
def ReusesOk (cfg : EmitConfig) : Prop :=
  ∀ done c rest, emitCalls cfg = done ++ c :: rest →
    ∀ em, runCalls cfg Emitter.new done = some em → ReuseOk cfg em c.2

theorem runCalls_concat {cfg : EmitConfig} {em em' : Emitter} {done : List (ℕ × EmitCall)}
    {c : ℕ × EmitCall} (h : runCalls cfg em (done ++ [c]) = some em') :
    ∃ mid, runCalls cfg em done = some mid ∧ emitCall cfg mid c.1 c.2 = some em' := by
  unfold runCalls at h ⊢
  rw [List.foldlM_append] at h
  obtain ⟨mid, hmid, h⟩ := Option.bind_eq_some_iff.mp h
  exact ⟨mid, hmid, by simpa using h⟩

theorem mayAsk_of_split {cfg : EmitConfig} (hids : IdsOk cfg.g) (hnd : cfg.order.Nodup)
    {done rest : List (ℕ × EmitCall)} {pos opId outIdx id : ℕ}
    (hsplit : emitCalls cfg = done ++ (pos, .fresh opId outIdx) :: rest) (hid : id < colsId)
    (hwho : opId = id ∨ opId = colsId ∧ outIdx = 0) : MayAsk done opId outIdx := by
  rcases hwho with rfl | hcols
  · right
    refine ⟨hid, fun hin => ?_⟩
    have hkeys := freshKeys_nodup cfg hids hnd
    rw [hsplit, List.filterMap_append, List.nodup_append] at hkeys
    apply hkeys.2.2 _ hin (tkey opId outIdx) _ rfl
    simp [freshKey, Nat.ne_of_lt hid]
  · exact .inl hcols

/-- Each call keeps both invariants. -/
theorem emitCall_inv {cfg : EmitConfig} (hids : IdsOk cfg.g) (hnd : cfg.order.Nodup)
    (hfits : WritesFit cfg) {done rest : List (ℕ × EmitCall)} {c : ℕ × EmitCall}
    (hsplit : emitCalls cfg = done ++ c :: rest) {em em' : Emitter}
    (hown : OwnerInv cfg done em) (htrace : TraceInv cfg done em.ops)
    (hreuse : ReuseOk cfg em c.2) (hcall : emitCall cfg em c.1 c.2 = some em') :
    OwnerInv cfg (done ++ [c]) em' ∧ TraceInv cfg (done ++ [c]) em'.ops := by
  have hmem : c ∈ emitCalls cfg := by simp [hsplit]
  have hdone : ∀ c' ∈ done, c' ∈ emitCalls cfg := fun c' hc' => by simp [hsplit, hc']
  have hle := le_of_emitCalls_split hsplit
  obtain ⟨id, od, hem, hfor⟩ := mem_emitCalls hmem
  have hid : id < colsId := (hids id od hem.2.1).1
  have hopId : od.opId = id := cfg.g.keyed id od hem.2.1
  rcases emitCall_cases hid hopId hfor hcall with
    rfl | ⟨op, hop, rfl⟩ | ⟨opId, outIdx, hc, hwho, hfresh⟩ | ⟨i, hi, -, rfl⟩
  · exact ⟨hown.same c, htrace.same c⟩
  · exact ⟨hown.concat c hop.owned, htrace.concat hown hids hdone hle hem (hfits c hmem) hop⟩
  · obtain ⟨pos, call⟩ := c
    dsimp only at hc
    subst hc
    have hask := mayAsk_of_split hids hnd hsplit hid hwho
    refine ⟨hown.acquire hask hreuse hfresh, ?_⟩
    rw [(freshTemp_desk hfresh).2]
    exact htrace.same _
  · exact ⟨hown.release c (tkey_ne_colsKey ((hids id od hem.2.1).2 i hi) _), htrace.same c⟩

/-- Both hold at the end of the emission. -/
theorem emit_inv {cfg : EmitConfig} (hids : IdsOk cfg.g) (hnd : cfg.order.Nodup)
    (hfits : WritesFit cfg) (hreuse : ReusesOk cfg) {em : Emitter} (hrun : emit cfg = some em) :
    OwnerInv cfg (emitCalls cfg) em ∧ TraceInv cfg (emitCalls cfg) em.ops := by
  have hall : ∀ done rest, emitCalls cfg = done ++ rest → ∀ em,
      runCalls cfg Emitter.new done = some em →
      OwnerInv cfg done em ∧ TraceInv cfg done em.ops := by
    intro done
    induction done using List.reverseRecOn with
    | nil =>
      intro rest _ em hem
      obtain rfl : Emitter.new = em := by simpa [runCalls] using hem
      exact ⟨ownerInv_new cfg, traceInv_nil cfg⟩
    | append_singleton done c ih =>
      intro rest hsplit em hem
      rw [List.append_assoc, List.singleton_append] at hsplit
      obtain ⟨mid, hmid, hcall⟩ := runCalls_concat hem
      obtain ⟨hown, htrace⟩ := ih (c :: rest) hsplit mid hmid
      exact emitCall_inv hids hnd hfits hsplit hown htrace
        (hreuse done c rest hsplit mid hmid) hcall
  exact hall (emitCalls cfg) [] (by simp) em hrun

instance (cfg : EmitConfig) (em : Emitter) (call : EmitCall) : Decidable (ReuseOk cfg em call) :=
  match call with
  | .fresh opId outIdx =>
    match hf : em.desk.free with
    | [] => decidable_of_iff (em.desk.next < 2 ^ 14) (by simp [ReuseOk, hf])
    | t :: _ => decidable_of_iff (em.tempTab t = cfg.usablePlace opId outIdx) (by simp [ReuseOk, hf])
  | .fill _ | .addOp _ _ _ | .spill _ | .release _ | .abort => isTrue trivial

/-- The reuses of the remaining calls, checked along the run. -/
def reusesCheck (cfg : EmitConfig) (em : Emitter) : List (ℕ × EmitCall) → Bool
  | [] => true
  | c :: rest =>
    decide (ReuseOk cfg em c.2) &&
      match emitCall cfg em c.1 c.2 with
      | none => true
      | some em' => reusesCheck cfg em' rest

theorem reuseOk_of_check {cfg : EmitConfig} {em em' : Emitter} {done rest : List (ℕ × EmitCall)}
    {c : ℕ × EmitCall} (h : reusesCheck cfg em (done ++ c :: rest) = true)
    (hrun : runCalls cfg em done = some em') : ReuseOk cfg em' c.2 := by
  induction done generalizing em with
  | nil =>
    obtain rfl : em = em' := by simpa [runCalls] using hrun
    rw [List.nil_append, reusesCheck, Bool.and_eq_true] at h
    exact of_decide_eq_true h.1
  | cons d done ih =>
    rw [List.cons_append, reusesCheck, Bool.and_eq_true] at h
    unfold runCalls at hrun ih
    rw [List.foldlM_cons] at hrun
    obtain ⟨mid, hmid, hrun⟩ := Option.bind_eq_some_iff.mp hrun
    rw [hmid] at h
    exact ih h.2 hrun

theorem reusesOk_of_check {cfg : EmitConfig}
    (h : reusesCheck cfg Emitter.new (emitCalls cfg) = true) : ReusesOk cfg := by
  intro done c rest hsplit em hrun
  rw [hsplit] at h
  exact reuseOk_of_check h hrun

instance (cfg : EmitConfig) (key bytes : ℕ) : Decidable (Fits cfg key bytes) :=
  inferInstanceAs (Decidable (_ ∧ ∀ p ∈ placeOfKey cfg key, bytes ≤ p.size))

instance (cfg : EmitConfig) (call : EmitCall) : Decidable (WriteFits cfg call) :=
  match call with
  | .addOp od _ (some (r, bytes)) =>
    inferInstanceAs (Decidable (∀ key ∈ refKey od r, Fits cfg key bytes))
  | .fill c =>
    inferInstanceAs (Decidable (∀ size ∈ cfg.ddrSpillMap c.srcId,
      Fits cfg (tkey c.srcId c.outIdx) (fillBytes cfg size)))
  | .addOp _ _ none | .fresh _ _ | .spill _ | .release _ | .abort => isTrue trivial

instance (cfg : EmitConfig) : Decidable (WritesFit cfg) :=
  inferInstanceAs (Decidable (∀ c ∈ emitCalls cfg, WriteFits cfg c.2))

theorem idsOk_ofList {l : List OpDef}
    (h : ∀ od ∈ l, od.opId < colsId ∧ ∀ c ∈ od.inputs, c.srcId < colsId) :
    IdsOk (OpMap.ofList l) := by
  intro id od hod
  obtain ⟨hmem, rfl⟩ := OpMap.mem_of_ofList hod
  exact h od hmem

end Gehtp.Analysis.TempOwners
