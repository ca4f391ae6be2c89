import Gehtp.Analysis.TempDisjoint
import Gehtp.Model.TempHandlers

/-!
# A temp keeps its value until it is read

A temp id that was returned is handed out again, and a device op writes to temps of its own or,
in front of an operator, brings a spilled input back. So from the operator of an output on, up to
any device op that reads the output, its temp is written by that operator alone and by the moves
that restore the same output.
-/

set_option autoImplicit false

namespace Gehtp.Analysis.TempKept

open Lib.Lease Model.OpGraph Model.PlanOrder Model.TempEmit Model.TempHandlers Analysis.TempOwners
  Analysis.TempDisjoint

/-! ### The order of the calls of an operator -/

def IsRelease : EmitCall → Prop
  | .release _ => True
  | _ => False

def IsFresh : EmitCall → Prop
  | .fresh _ _ => True
  | _ => False

theorem callsOf_freshFirst (cfg : EmitConfig) (id : ℕ) :
    (callsOf cfg id).Pairwise fun a b => IsRelease a → ¬ IsFresh b := by
  unfold callsOf
  split
  · exact List.Pairwise.nil
  · rename_i od _
    split
    · exact List.Pairwise.nil
    · split
      · exact List.pairwise_singleton _ _
      · rename_i recipe _
        rw [List.pairwise_append]
        refine ⟨?_, ?_, ?_⟩
        · apply List.Pairwise.imp_of_mem _ (List.pairwise_of_forall fun _ _ => trivial)
          intro a b ha _ _ hrel
          exfalso
          simp only [List.mem_append, List.mem_map, List.mem_singleton] at ha
          rcases ha with (⟨c, -, rfl⟩ | ⟨st, -, rfl⟩) | rfl
          · exact hrel
          · cases st <;> exact hrel
          · exact hrel
        · rw [List.pairwise_map]
          exact List.pairwise_of_forall fun _ _ _ h => h
        · intro a _ b hb _ hfresh
          obtain ⟨c, -, rfl⟩ := List.mem_map.mp hb
          exact hfresh

theorem emitCalls_freshFirst (cfg : EmitConfig) :
    (emitCalls cfg).Pairwise fun a b => a.1 = b.1 → IsRelease a.2 → ¬ IsFresh b.2 := by
  unfold emitCalls
  rw [List.pairwise_flatMap]
  constructor
  · intro e _
    rw [List.pairwise_map]
    apply (callsOf_freshFirst cfg e.1).imp
    intro a b h _
    exact h
  · apply (order_zipIdx_lt cfg).imp
    intro a b hab x hx y hy heq
    obtain ⟨_, _, rfl⟩ := List.mem_map.mp hx
    obtain ⟨_, _, rfl⟩ := List.mem_map.mp hy
    dsimp only at heq
    omega

variable {forms : String → Option (OpDef → Option HandlerForm)} {id p : ℕ} {od : OpDef}
  {op : DeviceOp} {c : ℕ × EmitCall}

theorem writes_of_mem {cfg : EmitConfig} (hforms : cfg.opRegistry = formRegistry forms)
    {reads : List TempRef} {r : TempRef} {bytes : ℕ}
    (h : EmitCall.addOp od reads (some (r, bytes)) ∈ callsOf cfg id) : ∀ i, r ≠ .input i := by
  unfold callsOf at h
  split at h
  · simp at h
  · split at h
    · simp at h
    · split at h
      · simp at h
      · rename_i od' _ _ _ recipe hrecipe
        simp only [List.mem_append, List.mem_map, List.mem_singleton] at h
        rcases h with ((⟨c, -, hc⟩ | ⟨st, hst, heq⟩) | hc) | ⟨c, -, hc⟩
        · cases hc
        · cases st with
          | fresh outIdx => cases heq
          | freshCols => cases heq
          | addOp reads' dst =>
            cases heq
            unfold handlerOf at hrecipe
            rw [hforms] at hrecipe
            obtain ⟨handler, hhandler, hrec⟩ := Option.bind_eq_some_iff.mp hrecipe
            obtain ⟨name, -, hname⟩ := Option.bind_eq_some_iff.mp hhandler
            obtain ⟨form, -, rfl⟩ := Option.map_eq_some_iff.mp hname
            obtain ⟨f, -, rfl⟩ := Option.map_eq_some_iff.mp hrec
            exact recipe_writesOwn _ f reads r bytes hst
        · cases hc
        · cases hc

/-! ### What holds on the way -/

/-- Where the output `key` comes from: the position of its operator; the columns have none. -/
def Origin (cfg : EmitConfig) (q key : ℕ) : Prop :=
  key = colsKey ∨ ∃ od, Emitted cfg q (key / 2 ^ 32) od

/-- From position `q` on the temp `t` is used for `key` alone. -/
def OnlyFor (ops : List DeviceOp) (q t key : ℕ) : Prop :=
  ∀ op ∈ ops, q ≤ op.pos → ∀ k, (t, k) ∈ op.uses → k = key

/-- A device op that brings the spilled output `key` back. -/
def IsFill (cfg : EmitConfig) (op : DeviceOp) (key : ℕ) : Prop :=
  op.reads = [] ∧ ∃ size, cfg.ddrSpillMap (key / 2 ^ 32) = some size

/-- The device op at index `r` finds the temps it uses untouched since their operators. -/
def KeptAt (cfg : EmitConfig) (ops : List DeviceOp) (r : ℕ) (op : DeviceOp) : Prop :=
  ∀ t key, (t, key) ∈ op.uses →
    ∃ q ≤ op.pos, Origin cfg q key ∧ OnlyFor (ops.take (r + 1)) q t key

/-- What holds after the calls `done`. -/
structure KeptInv (cfg : EmitConfig) (done : List (ℕ × EmitCall)) (em : Emitter) : Prop where
  loans : LoanInv done em
  pos : ∀ op ∈ em.ops, ∃ c ∈ done, op.pos = c.1
  since : ∀ t key, em.desk.own key = some t →
    ∃ q, (∃ c ∈ done, q = c.1) ∧ Origin cfg q key ∧ OnlyFor em.ops q t key
  busy : ∀ p, (∀ c ∈ done, c.1 ≤ p) → (∀ c ∈ done, c.1 = p → ¬ IsRelease c.2) →
    ∀ op ∈ em.ops, op.pos = p → ∀ u ∈ op.uses, u.1 ∉ em.desk.free
  kept : ∀ (r : ℕ) op, em.ops[r]? = some op → KeptAt cfg em.ops r op
  writes : ∀ op ∈ em.ops, ∀ t bytes, op.dst = some (t, bytes) →
    t.2 = colsKey ∨ (∃ od, Emitted cfg op.pos (t.2 / 2 ^ 32) od) ∨ IsFill cfg op t.2

theorem keptInv_new (cfg : EmitConfig) : KeptInv cfg [] Emitter.new where
  loans := loanInv_new
  pos _ h := absurd h List.not_mem_nil
  since _ _ h := nomatch h
  busy _ _ _ _ h := absurd h List.not_mem_nil
  kept _ _ h := by simp [Emitter.new] at h
  writes _ h := absurd h List.not_mem_nil

section Steps

variable {cfg : EmitConfig} {done : List (ℕ × EmitCall)} {em : Emitter}

theorem KeptInv.pos_le (h : KeptInv cfg done em) (hle : ∀ c ∈ done, c.1 ≤ p) (hop : op ∈ em.ops) :
    op.pos ≤ p := by
  obtain ⟨c, hc, heq⟩ := h.pos op hop
  rw [heq]
  exact hle c hc

theorem KeptInv.since_concat (h : KeptInv cfg done em) (c : ℕ × EmitCall) {t key : ℕ}
    (hown : em.desk.own key = some t) :
    ∃ q, (∃ c' ∈ done ++ [c], q = c'.1) ∧ Origin cfg q key ∧ OnlyFor em.ops q t key := by
  obtain ⟨q, ⟨c', hc', hq⟩, horigin, honly⟩ := h.since t key hown
  exact ⟨q, ⟨c', List.mem_append_left _ hc', hq⟩, horigin, honly⟩

theorem KeptInv.pos_concat (h : KeptInv cfg done em) (c : ℕ × EmitCall) :
    ∀ op ∈ em.ops, ∃ c' ∈ done ++ [c], op.pos = c'.1 := by
  intro op hop
  obtain ⟨c', hc', heq⟩ := h.pos op hop
  exact ⟨c', List.mem_append_left _ hc', heq⟩

theorem KeptInv.busy_concat (h : KeptInv cfg done em) (c : ℕ × EmitCall) :
    ∀ p, (∀ c' ∈ done ++ [c], c'.1 ≤ p) → (∀ c' ∈ done ++ [c], c'.1 = p → ¬ IsRelease c'.2) →
      ∀ op ∈ em.ops, op.pos = p → ∀ u ∈ op.uses, u.1 ∉ em.desk.free :=
  fun p hle hrel => h.busy p (fun c' hc' => hle c' (List.mem_append_left _ hc'))
    fun c' hc' => hrel c' (List.mem_append_left _ hc')

theorem KeptInv.same (h : KeptInv cfg done em) (c : ℕ × EmitCall) :
    KeptInv cfg (done ++ [c]) em where
  loans := h.loans.same c
  pos := h.pos_concat c
  since _ _ hown := h.since_concat c hown
  busy := h.busy_concat c
  kept := h.kept
  writes := h.writes

theorem KeptInv.release (h : KeptInv cfg done em) (hrel : IsRelease c.2)
    (hle : ∀ c' ∈ done, c'.1 ≤ c.1) {key : ℕ} (hkey : key ≠ colsKey) :
    KeptInv cfg (done ++ [c]) { em with desk := em.desk.release key } where
  loans := h.loans.release c hkey
  pos := h.pos_concat c
  since _ _ hown := h.since_concat c (Desk.release_own hown)
  busy p hp hno op hop hpos := by
    have hcp := hp c (List.mem_append_right _ (List.mem_singleton_self c))
    have hne : c.1 ≠ p := fun heq =>
      hno c (List.mem_append_right _ (List.mem_singleton_self c)) heq hrel
    have hop' := h.pos_le hle hop
    omega
  kept := h.kept
  writes := h.writes

theorem KeptInv.taken_unused (h : KeptInv cfg done em) (hle : ∀ c ∈ done, c.1 ≤ p)
    (hno : ∀ c ∈ done, c.1 = p → ¬ IsRelease c.2) (key : ℕ) :
    OnlyFor em.ops p em.desk.taken key := by
  intro op hop hpos k hu
  exfalso
  have heq : op.pos = p := le_antisymm (h.pos_le hle hop) hpos
  have hbusy := h.busy p hle hno op hop heq (em.desk.taken, k) hu
  have hlt := h.loans.used_lt (.inr ⟨op, hop, hu⟩)
  cases hf : em.desk.free with
  | nil =>
    have htaken : em.desk.taken = em.desk.next := by simp [Desk.taken, hf]
    omega
  | cons t rest =>
    apply hbusy
    simp [Desk.taken, hf]

theorem KeptInv.acquire (h : KeptInv cfg done em) {em' : Emitter} {pos opId outIdx : ℕ}
    (hask : MayAsk done opId outIdx) (horigin : Origin cfg pos (tkey opId outIdx))
    (hle : ∀ c ∈ done, c.1 ≤ pos) (hno : ∀ c ∈ done, c.1 = pos → ¬ IsRelease c.2)
    (hdesk : em'.desk = em.desk.acquire (tkey opId outIdx)) (hops : em'.ops = em.ops) :
    KeptInv cfg (done ++ [(pos, .fresh opId outIdx)]) em' where
  loans := h.loans.acquire hask hdesk hops
  pos := by
    rw [hops]
    exact h.pos_concat _
  since t key hown := by
    rw [hdesk] at hown
    rw [hops]
    by_cases hk : key = tkey opId outIdx
    · subst hk
      rw [Desk.acquire_own_self] at hown
      cases hown
      refine ⟨pos, ⟨_, List.mem_append_right _ (List.mem_singleton_self _), rfl⟩, horigin, ?_⟩
      exact h.taken_unused hle hno _
    · rw [Desk.acquire_own_of_ne hk] at hown
      exact h.since_concat _ hown
  busy p hp hno' op hop hpos u hu := by
    rw [hops] at hop
    rw [hdesk]
    intro hmem
    exact h.busy_concat _ p hp hno' op hop hpos u hu (Desk.mem_acquire_free hmem)
  kept := by
    rw [hops]
    exact h.kept
  writes := by
    rw [hops]
    exact h.writes

theorem KeptInv.concat (h : KeptInv cfg done em) (hle : ∀ c' ∈ done, c'.1 ≤ c.1)
    (hpos : op.pos = c.1) (howned : ∀ u ∈ op.uses, em.desk.own u.2 = some u.1)
    (hwrites : ∀ t bytes, op.dst = some (t, bytes) →
      t.2 = colsKey ∨ (∃ od, Emitted cfg op.pos (t.2 / 2 ^ 32) od) ∨ IsFill cfg op t.2) :
    KeptInv cfg (done ++ [c]) { em with ops := em.ops ++ [op] } := by
  have hc : c ∈ done ++ [c] := List.mem_append_right _ (List.mem_singleton_self c)
  have honly : ∀ q t key, em.desk.own key = some t → OnlyFor em.ops q t key →
      OnlyFor (em.ops ++ [op]) q t key := by
    intro q t key hown hall o ho hq k hu
    cases List.mem_append.mp ho with
    | inl ho => exact hall o ho hq k hu
    | inr ho =>
      rw [List.mem_singleton.mp ho] at hu
      exact h.loans.wf.own_inj k key t (howned (t, k) hu) hown
  constructor
  · exact h.loans.concat c howned
  · intro o ho
    cases List.mem_append.mp ho with
    | inl ho => exact h.pos_concat c o ho
    | inr ho =>
      rw [List.mem_singleton.mp ho]
      exact ⟨c, hc, hpos⟩
  · intro t key hown
    obtain ⟨q, hq, horigin, hall⟩ := h.since_concat c hown
    exact ⟨q, hq, horigin, honly q t key hown hall⟩
  · intro p hp hno o ho heq u hu
    cases List.mem_append.mp ho with
    | inl ho => exact h.busy_concat c p hp hno o ho heq u hu
    | inr ho =>
      rw [List.mem_singleton.mp ho] at hu
      exact h.loans.wf.own_notMem u.2 u.1 (howned u hu)
  · intro r o ho t key hu
    by_cases hr : r < em.ops.length
    · rw [List.getElem?_append_left hr] at ho
      obtain ⟨q, hq, horigin, hall⟩ := h.kept r o ho t key hu
      refine ⟨q, hq, horigin, ?_⟩
      rw [List.take_append_of_le_length hr]
      exact hall
    · have hlt := (List.getElem?_eq_some_iff.mp ho).1
      rw [List.length_append, List.length_singleton] at hlt
      obtain rfl : r = em.ops.length := by omega
      rw [List.getElem?_concat_length] at ho
      cases ho
      have hown := howned (t, key) hu
      obtain ⟨q, ⟨c', hc', hq⟩, horigin, hall⟩ := h.since t key hown
      refine ⟨q, ?_, horigin, ?_⟩
      · rw [hpos, hq]
        exact hle c' hc'
      · rw [List.take_of_length_le (by simp)]
        exact honly q t key hown hall
  · intro o ho t bytes hdst
    cases List.mem_append.mp ho with
    | inl ho => exact h.writes o ho t bytes hdst
    | inr ho =>
      rw [List.mem_singleton.mp ho] at hdst ⊢
      exact hwrites t bytes hdst

end Steps

/-! ### The whole loop -/

theorem writes_cases {cfg : EmitConfig} (hforms : cfg.opRegistry = formRegistry forms)
    (hids : IdsOk cfg.g) {em : Emitter} (hmem : c ∈ emitCalls cfg) (hem : Emitted cfg c.1 id od)
    (hop : OpFor cfg em c.1 id od c.2 op) {t : ℕ × ℕ} {bytes : ℕ}
    (hdst : op.dst = some (t, bytes)) :
    t.2 = colsKey ∨ (∃ od, Emitted cfg op.pos (t.2 / 2 ^ 32) od) ∨ IsFill cfg op t.2 := by
  have hid : id < colsId := (hids id od hem.2.1).1
  have hopId : od.opId = id := cfg.g.keyed id od hem.2.1
  have hwrite := hop.writes t bytes hdst
  obtain ⟨pos, call⟩ := c
  cases hwrite with
  | handler reads r b hkey =>
    obtain ⟨e, -, hc⟩ := List.mem_flatMap.mp hmem
    obtain ⟨call', hcall, heq⟩ := List.mem_map.mp hc
    obtain ⟨-, rfl⟩ := Prod.mk.inj heq
    have hown := writes_of_mem hforms hcall
    cases r with
    | input i => exact absurd rfl (hown i)
    | out outIdx =>
      obtain hkey' : tkey od.opId outIdx = t.2 := Option.some.inj hkey
      right
      left
      rw [hop.pos, ← hkey', hopId, tkey_div_of_lt hid]
      exact ⟨od, hem⟩
    | cols => exact .inl (Option.some.inj hkey).symm
  | fill i size hkey hsize hreads =>
    right
    right
    have hin : i ∈ od.inputs := by
      obtain ⟨id', od', hem', hfor⟩ := mem_emitCalls hmem
      have hsame : id' = id := Option.some.inj (hem'.1.symm.trans hem.1)
      subst hsame
      have hod : od' = od := Option.some.inj (hem'.2.1.symm.trans hem.2.1)
      subst hod
      cases hfor with
      | fill _ hi => exact hi
    have hlt : i.srcId < colsId := (hids id od hem.2.1).2 i hin
    refine ⟨hreads, size, ?_⟩
    rw [hkey, tkey_div_of_lt hlt]
    exact hsize

theorem emitCall_kept {cfg : EmitConfig} (hforms : cfg.opRegistry = formRegistry forms)
    (hids : IdsOk cfg.g) (hnd : cfg.order.Nodup) {done rest : List (ℕ × EmitCall)}
    (hsplit : emitCalls cfg = done ++ c :: rest) {em em' : Emitter} (h : KeptInv cfg done em)
    (hcall : emitCall cfg em c.1 c.2 = some em') : KeptInv cfg (done ++ [c]) em' := by
  have hmem : c ∈ emitCalls cfg := by simp [hsplit]
  have hle := le_of_emitCalls_split hsplit
  obtain ⟨id, od, hem, hfor⟩ := mem_emitCalls hmem
  have hid : id < colsId := (hids id od hem.2.1).1
  have hopId : od.opId = id := cfg.g.keyed id od hem.2.1
  rcases emitCall_cases hid hopId hfor hcall with
    rfl | ⟨op, hop, rfl⟩ | ⟨opId, outIdx, hc, hwho, hfresh⟩ | ⟨i, hi, hrelease, rfl⟩
  · exact h.same c
  · exact h.concat hle hop.pos hop.owned fun t bytes hdst =>
      writes_cases hforms hids hmem hem hop hdst
  · obtain ⟨pos, call⟩ := c
    dsimp only at hc
    subst hc
    have hno : ∀ c' ∈ done, c'.1 = pos → ¬ IsRelease c'.2 := by
      have hfirst := emitCalls_freshFirst cfg
      rw [hsplit, List.pairwise_append] at hfirst
      intro c' hc' heq hrel
      exact hfirst.2.2 c' hc' _ List.mem_cons_self heq hrel trivial
    have horigin : Origin cfg pos (tkey opId outIdx) := by
      rcases hwho with rfl | ⟨rfl, rfl⟩
      · right
        rw [tkey_div_of_lt hid]
        exact ⟨od, hem⟩
      · exact .inl rfl
    obtain ⟨hdesk, hops⟩ := freshTemp_desk hfresh
    exact h.acquire (mayAsk_of_split hids hnd hsplit hid hwho) horigin hle hno hdesk hops
  · have hrel : IsRelease c.2 := by
      rw [hrelease]
      trivial
    exact h.release hrel hle (tkey_ne_colsKey ((hids id od hem.2.1).2 i hi) _)

theorem emit_kept {cfg : EmitConfig} (hforms : cfg.opRegistry = formRegistry forms)
    (hids : IdsOk cfg.g) (hnd : cfg.order.Nodup) {em : Emitter} (hrun : emit cfg = some em) :
    KeptInv cfg (emitCalls cfg) em := by
  have hall : ∀ done rest, emitCalls cfg = done ++ rest → ∀ em,
      runCalls cfg Emitter.new done = some em → KeptInv cfg done em := by
    intro done
    induction done using List.reverseRecOn with
    | nil =>
      intro rest _ em hem
      obtain rfl : Emitter.new = em := by simpa [runCalls] using hem
      exact keptInv_new cfg
    | append_singleton done c ih =>
      intro rest hsplit em hem
      rw [List.append_assoc, List.singleton_append] at hsplit
      obtain ⟨mid, hmid, hcall⟩ := runCalls_concat hem
      exact emitCall_kept hforms hids hnd hsplit (ih (c :: rest) hsplit mid hmid) hcall
  exact hall (emitCalls cfg) [] (by simp) em hrun

theorem emitted_unique {cfg : EmitConfig} (hnd : cfg.order.Nodup) {q : ℕ} {od' : OpDef}
    (h : Emitted cfg p id od) (h' : Emitted cfg q id od') : p = q := by
  obtain ⟨hp, heqp⟩ := List.getElem?_eq_some_iff.mp h.1
  obtain ⟨hq, heqq⟩ := List.getElem?_eq_some_iff.mp h'.1
  exact (hnd.getElem_inj_iff).mp (heqp.trans heqq.symm)

theorem keptAt_host {cfg : EmitConfig} {done : List (ℕ × EmitCall)} {em : Emitter}
    (h : KeptInv cfg done em) (hle : ∀ c ∈ done, c.1 ≤ cfg.order.length) :
    KeptAt cfg (deviceOps cfg em) em.ops.length ⟨cfg.order.length, outputReads cfg em, none⟩ := by
  have howned : ∀ u ∈ (⟨cfg.order.length, outputReads cfg em, none⟩ : DeviceOp).uses,
      em.desk.own u.2 = some u.1 := by
    intro u hu
    have hmem : u ∈ outputReads cfg em := by simpa [DeviceOp.uses] using hu
    unfold outputReads at hmem
    split at hmem
    · simp at hmem
    · split at hmem
      · simp at hmem
      · exact (lookup_eq_some (Option.mem_toList.mp hmem)).1
  have hhost := h.concat (c := (cfg.order.length, .abort)) hle rfl howned (by simp)
  apply hhost.kept em.ops.length
  exact List.getElem?_concat_length

/-- A handler that copies its first input. -/
def copyForm (name : String) : Option (OpDef → Option HandlerForm) :=
  if name = "Reshape" then some fun od => some (.plain [0] [f16Bytes (elemsOf od)]) else none

/-- Two copies in a row. The output of the first one is spilled. -/
def spilledChain : EmitConfig where
  g := OpMap.ofList [vectorNode 1 "Input" 1 32 [] [2], vectorNode 2 "Reshape" 1 32 [1] [3],
    vectorNode 3 "Reshape" 1 32 [2] [4], vectorNode 4 "Output" 1 32 [3] []]
  planOrder := [1, 2, 3, 4]
  plan := ⟨[], 4096, 0, [⟨2, 0, 64⟩], 64⟩
  outputNodeId := 4
  opRegistry := formRegistry copyForm
  mainInputId := 1
  inputSlots := []
  constDataSize := fun _ => 0
  dmaRunlist := false

def spilledEmitter : Emitter := (emit spilledChain).getD Emitter.new

theorem spilledChain_ids : IdsOk spilledChain.g := idsOk_ofList (by decide)

theorem spilledChain_emit : emit spilledChain = some spilledEmitter := rfl

theorem spilledChain_nodup : spilledChain.order.Nodup := by decide

theorem spilledChain_reader : (deviceOps spilledChain spilledEmitter)[3]? =
    some ⟨2, [(0, tkey 2 0)], some ((1, tkey 3 0), 64)⟩ := by
  decide

end Gehtp.Analysis.TempKept
