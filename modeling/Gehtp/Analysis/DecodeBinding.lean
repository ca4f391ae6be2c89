import Gehtp.Analysis.KvRing
import Gehtp.Model.DecodeState

/-!
# The binding of decode states

The indices of the three kinds of states are mapped into one table with fixed bases, and a gather
says with temp 0 that it has no face. When no two kinds meet in the table, the table fits on the
device, every append has a gather, the gathers of a state agree on its slots, and every gather has
a temp that the device knows and that is not 0 and a shape that the device takes, then different
states are different states on the device, of the sizes that the operators expect, and every gather
writes its face. This is also needed.
-/

set_option autoImplicit false

namespace Gehtp.Analysis.DecodeBinding

open Lib Lib.Lease Model.Kvcache Model.KvDecode Model.DecodeState Analysis.KvRing
  Analysis.KvcacheMap
open Lib.Machine hiding bind_eq_ok

/-! ### The table of the emitter -/

/-- The table after some operators. -/
structure TableOf (ops : List StateOp) (t : List (UInt32 × UInt32)) : Prop where
  nodup : (t.map Prod.fst).Nodup
  found : ∀ op ∈ ops, ∀ b, op.stateBytes = some b → t.lookup op.gid = some b
  source : ∀ g b, t.lookup g = some b → ∃ op ∈ ops, op.gid = g ∧ op.stateBytes = some b

theorem lookup_eq_none_iff_notMem {t : List (UInt32 × UInt32)} {g : UInt32} :
    t.lookup g = none ↔ g ∉ t.map Prod.fst := by
  rw [List.lookup_eq_none_iff]
  simp only [List.mem_map, Prod.exists, exists_and_right, exists_eq_right, not_exists, Prod.forall,
    bne_iff_ne]
  constructor
  · exact fun h b hb => h g b hb rfl
  · rintro h a b hb rfl
    exact h b hb

theorem lookup_concat {t : List (UInt32 × UInt32)} {g g' b : UInt32} (h : t.lookup g = none) :
    (t ++ [(g, b)]).lookup g' = if g' = g then some b else t.lookup g' := by
  rw [List.lookup_append, List.lookup_cons]
  by_cases hg : g' = g
  · subst hg
    simp [h]
  · have hbeq : (g' == g) = false := beq_false_of_ne hg
    cases t.lookup g' <;> simp [hg, hbeq]

theorem gid_of_present {op : StateOp} (h : op.u "state_idx" 0xFFFFFFFF ≠ 0xFFFFFFFF) :
    decodeStateGid op.name (op.u "state_idx" 0xFFFFFFFF) = op.gid := by
  unfold StateOp.gid StateOp.stateIdx
  unfold StateOp.u at h ⊢
  cases hl : op.params.lookup "state_idx" with
  | none =>
    rw [hl] at h
    exact absurd rfl h
  | some v => rfl

theorem addState_tableOf {ops : List StateOp} {t t' : List (UInt32 × UInt32)} {op : StateOp}
    (ht : TableOf ops t) (h : addState t op = .ok t') : TableOf (ops ++ [op]) t' := by
  unfold addState at h
  cases hb : op.stateBytes with
  | none =>
    rw [hb] at h
    cases h
    refine ⟨ht.nodup, ?_, ?_⟩
    · intro o ho b hob
      cases List.mem_append.mp ho with
      | inl ho => exact ht.found o ho b hob
      | inr ho =>
        rw [List.mem_singleton.mp ho, hb] at hob
        cases hob
    · intro g b hg
      obtain ⟨o, ho, hog⟩ := ht.source g b hg
      exact ⟨o, List.mem_append_left _ ho, hog⟩
  | some b =>
    rw [hb] at h
    simp only at h
    split at h
    · cases h
    · rename_i hsi
      rw [gid_of_present hsi] at h
      cases hl : t.lookup op.gid with
      | none =>
        rw [hl] at h
        cases h
        refine ⟨?_, ?_, ?_⟩
        · rw [List.map_append, List.map_singleton]
          apply List.Nodup.append ht.nodup (List.nodup_singleton _)
          rw [List.disjoint_singleton]
          exact lookup_eq_none_iff_notMem.mp hl
        · intro o ho b' hob
          rw [lookup_concat hl]
          cases List.mem_append.mp ho with
          | inl ho =>
            have hfound := ht.found o ho b' hob
            have hne : o.gid ≠ op.gid := by
              intro he
              rw [he, hl] at hfound
              cases hfound
            rw [if_neg hne]
            exact hfound
          | inr ho =>
            rw [List.mem_singleton.mp ho] at hob ⊢
            rw [if_pos rfl, ← hb, hob]
        · intro g b' hg
          rw [lookup_concat hl] at hg
          split at hg
          · rename_i he
            cases hg
            exact ⟨op, by simp, he.symm, hb⟩
          · obtain ⟨o, ho, hog⟩ := ht.source g b' hg
            exact ⟨o, List.mem_append_left _ ho, hog⟩
      | some b' =>
        rw [hl] at h
        simp only at h
        split at h
        · rename_i he
          cases h
          refine ⟨ht.nodup, ?_, ?_⟩
          · intro o ho b'' hob
            cases List.mem_append.mp ho with
            | inl ho => exact ht.found o ho b'' hob
            | inr ho =>
              rw [List.mem_singleton.mp ho] at hob ⊢
              rw [hl, he, ← hb, hob]
          · intro g b'' hg
            obtain ⟨o, ho, hog⟩ := ht.source g b'' hg
            exact ⟨o, List.mem_append_left _ ho, hog⟩
        · cases h

theorem tableOf_nil : TableOf [] [] := ⟨List.nodup_nil, by simp, by simp⟩

theorem foldlM_addState_tableOf {ops ops' : List StateOp} {t t' : List (UInt32 × UInt32)}
    (ht : TableOf ops t) (h : ops'.foldlM addState t = .ok t') : TableOf (ops ++ ops') t' := by
  induction ops' generalizing ops t with
  | nil =>
    cases h
    rw [List.append_nil]
    exact ht
  | cons op ops' ih =>
    rw [List.foldlM_cons, bind_eq_ok] at h
    obtain ⟨t₁, h₁, h₂⟩ := h
    have hrest := ih (addState_tableOf ht h₁) h₂
    rw [List.append_assoc] at hrest
    exact hrest

theorem keys_lt {keys : List ℕ} (h : ∀ i < keys.length, i ∈ keys) :
    ∀ k ∈ keys, k < keys.length := by
  intro k hk
  have hsub : List.range keys.length ⊆ keys := fun i hi => h i (List.mem_range.mp hi)
  have hperm := (List.nodup_range.subperm hsub).perm_of_length_le (by rw [List.length_range])
  exact List.mem_range.mp (hperm.mem_iff.mpr hk)

theorem length_le_of_nodup {keys : List UInt32} (hnodup : keys.Nodup) : keys.length ≤ 2 ^ 32 := by
  have hnat : (keys.map UInt32.toNat).Nodup :=
    hnodup.map fun a b hab => UInt32.toNat_inj.mp hab
  have hsub : keys.map UInt32.toNat ⊆ List.range (2 ^ 32) := by
    intro k hk
    obtain ⟨g, -, rfl⟩ := List.mem_map.mp hk
    exact List.mem_range.mpr g.toNat_lt
  have hle := (hnat.subperm hsub).length_le
  rw [List.length_map, List.length_range] at hle
  exact hle

/-- The sizes in the slot: each operator finds the size that it expects at its entry, and each
entry is that of an operator. -/
structure SizesOf (ops : List StateOp) (sizes : List UInt32) : Prop where
  length_le : sizes.length ≤ 2 ^ 32
  found : ∀ op ∈ ops, ∀ b, op.stateBytes = some b → sizes[op.gid.toNat]? = some b
  source : ∀ (i : ℕ) b, sizes[i]? = some b →
    ∃ op ∈ ops, op.gid.toNat = i ∧ op.stateBytes = some b

theorem tableSizes_sizesOf {ops : List StateOp} {t : List (UInt32 × UInt32)} {sizes : List UInt32}
    (ht : TableOf ops t) (h : tableSizes t = .ok sizes) :
    sizes.length = t.length ∧ SizesOf ops sizes := by
  unfold tableSizes at h
  rw [mapM_eq_ok] at h
  have hlen : sizes.length = t.length := by
    rw [← h.length_eq, List.length_range]
  have hle : t.length ≤ 2 ^ 32 := by
    have := length_le_of_nodup ht.nodup
    rwa [List.length_map] at this
  have hentry : ∀ i < t.length, t.lookup (UInt32.ofNat i) = sizes[i]? := by
    intro i hi
    have hi' : i < sizes.length := by omega
    have hround := List.Forall₂.get h (by rwa [List.length_range]) hi'
    simp only [List.get_eq_getElem, List.getElem_range] at hround
    rw [List.getElem?_eq_getElem hi']
    split at hround
    · cases hround
    · rename_i b hb
      cases hround
      exact hb
  have hkeys : ∀ g b, t.lookup g = some b → g.toNat < t.length := by
    intro g b hg
    have hall : ∀ i < (t.map fun e => e.1.toNat).length, i ∈ t.map fun e => e.1.toNat := by
      intro i hi
      rw [List.length_map] at hi
      have hmem : UInt32.ofNat i ∈ t.map Prod.fst := by
        by_contra hno
        have hnone := lookup_eq_none_iff_notMem.mpr hno
        rw [hentry i hi, List.getElem?_eq_getElem (by omega)] at hnone
        cases hnone
      obtain ⟨e, he, hei⟩ := List.mem_map.mp hmem
      refine List.mem_map.mpr ⟨e, he, ?_⟩
      rw [hei]
      exact UInt32.toNat_ofNat_of_lt' (show i < 2 ^ 32 by omega)
    have hmem : g ∈ t.map Prod.fst := by
      by_contra hno
      rw [lookup_eq_none_iff_notMem.mpr hno] at hg
      cases hg
    obtain ⟨e, he, rfl⟩ := List.mem_map.mp hmem
    have hlt := keys_lt hall e.1.toNat (List.mem_map.mpr ⟨e, he, rfl⟩)
    rwa [List.length_map] at hlt
  refine ⟨hlen, by omega, ?_, ?_⟩
  · intro op hop b hb
    have hfound := ht.found op hop b hb
    rw [← hentry _ (hkeys _ _ hfound), UInt32.ofNat_toNat]
    exact hfound
  · intro i b hi
    have hlt : i < t.length := by
      have := (List.getElem?_eq_some_iff.mp hi).1
      omega
    rw [← hentry i hlt] at hi
    obtain ⟨op, hop, hgid, hb⟩ := ht.source _ b hi
    refine ⟨op, hop, ?_, hb⟩
    rw [hgid]
    exact UInt32.toNat_ofNat_of_lt' (show i < 2 ^ 32 by omega)

theorem stateSlot_eq_ok {ops : List StateOp} {slot : Option (List UInt32)}
    (h : stateSlot ops = .ok slot) :
    ∃ sizes, SizesOf ops sizes ∧ ((slot = none ∧ sizes = []) ∨
      (slot = some (UInt32.ofNat sizes.length :: sizes) ∧ sizes ≠ [])) := by
  unfold stateSlot at h
  rw [bind_eq_ok] at h
  obtain ⟨t, ht, h⟩ := h
  have htable : TableOf ops t :=
    @foldlM_addState_tableOf [] ops [] t tableOf_nil ht
  split at h
  · rename_i hnil
    cases h
    subst hnil
    refine ⟨[], ⟨Nat.zero_le _, ?_, by simp⟩, .inl ⟨rfl, rfl⟩⟩
    intro op hop b hb
    cases htable.found op hop b hb
  · rename_i hne
    rw [bind_eq_ok] at h
    obtain ⟨sizes, hsizes, h⟩ := h
    cases h
    obtain ⟨hlen, hof⟩ := tableSizes_sizesOf htable hsizes
    rw [← hlen]
    refine ⟨sizes, hof, .inr ⟨rfl, ?_⟩⟩
    rintro rfl
    exact hne (List.eq_nil_of_length_eq_zero hlen.symm)

/-! ### The states of the device -/

def GoodSize (b : UInt32) : Prop := b ≠ 0 ∧ b ≤ 0x40000000

theorem allocStates_eq_ok {memalign : UInt32 → Bool} (hmem : ∀ b, memalign b = true) {n : ℕ}
    {words sizes : List UInt32} :
    allocStates memalign n words = .ok sizes ↔
      n ≤ words.length ∧ sizes = words.take n ∧ ∀ b ∈ sizes, GoodSize b := by
  induction n generalizing words sizes with
  | zero =>
    unfold allocStates
    constructor
    · intro h
      cases h
      exact ⟨Nat.zero_le _, rfl, by simp⟩
    · rintro ⟨-, rfl, -⟩
      rfl
  | succ n ih =>
    cases words with
    | nil =>
      unfold allocStates
      constructor
      · intro h
        cases h
      · rintro ⟨h, -⟩
        cases h
    | cons b words =>
      unfold allocStates
      simp only [bind_eq_ok, ensure_eq_ok, ih, hmem, List.length_cons, List.take_succ_cons]
      constructor
      · rintro ⟨-, hb, -, -, l, ⟨hle, rfl, hl⟩, h⟩
        cases h
        refine ⟨Nat.succ_le_succ hle, rfl, ?_⟩
        intro b' hb'
        cases List.mem_cons.mp hb' with
        | inl he => exact he ▸ hb
        | inr hmem' => exact hl b' hmem'
      · rintro ⟨hle, rfl, hl⟩
        exact ⟨(), hl b List.mem_cons_self, (), trivial, words.take n,
          ⟨Nat.le_of_succ_le_succ hle, rfl, fun b' hb' => hl b' (List.mem_cons_of_mem _ hb')⟩, rfl⟩

theorem loadStates_eq_ok {memalign : UInt32 → Bool} (hmem : ∀ b, memalign b = true)
    {sizes states : List UInt32} (hlen : sizes.length ≤ 2 ^ 32) (hne : sizes ≠ []) :
    loadStates memalign (some (UInt32.ofNat sizes.length :: sizes)) = .ok states ↔
      sizes.length ≤ 64 ∧ states = sizes ∧ ∀ b ∈ sizes, GoodSize b := by
  have hpos : 0 < sizes.length := List.length_pos_iff.mpr hne
  unfold loadStates
  simp only [bind_eq_ok, ensure_eq_ok, allocStates_eq_ok hmem]
  constructor
  · rintro ⟨-, ⟨hn, hmax, -⟩, -, rfl, hgood⟩
    have hlt : sizes.length ≠ 2 ^ 32 := by
      intro he
      rw [he] at hn
      exact hn rfl
    have hnat : (UInt32.ofNat sizes.length).toNat = sizes.length :=
      UInt32.toNat_ofNat_of_lt' (show sizes.length < 2 ^ 32 by omega)
    rw [hnat, List.take_length] at hgood ⊢
    rw [UInt32.le_iff_toNat_le, hnat] at hmax
    exact ⟨hmax, rfl, hgood⟩
  · rintro ⟨hmax, rfl, hgood⟩
    have hnat : (UInt32.ofNat states.length).toNat = states.length :=
      UInt32.toNat_ofNat_of_lt' (show states.length < 2 ^ 32 by omega)
    refine ⟨(), ⟨?_, ?_, ?_⟩, ?_, ?_, hgood⟩
    · intro h
      rw [h] at hnat
      exact hpos.ne hnat
    · rw [UInt32.le_iff_toNat_le, hnat]
      exact hmax
    · rw [UInt32.le_iff_toNat_le, UInt32.toNat_add, UInt32.toNat_mul, hnat,
        UInt32.toNat_ofNat_of_lt' (show 4 + 4 * states.length < 2 ^ 32 by omega)]
      show (4 + states.length * 4 % 2 ^ 32) % 2 ^ 32 ≤ _
      omega
    · rw [hnat]
    · rw [hnat, List.take_length]

/-! ### References -/

theorem small_ref : ∀ k < 64, IsStateRef (0x6000 ||| UInt32.ofNat k) ∧
    deviceIdx (0x6000 ||| UInt32.ofNat k) = k := by
  decide

theorem stateRef_of_lt {op : StateOp} (h : op.gid.toNat < 64) :
    IsStateRef op.stateRef ∧ deviceIdx op.stateRef = op.gid.toNat := by
  have hsmall := small_ref _ h
  rw [UInt32.ofNat_toNat] at hsmall
  exact hsmall

/-- Where the indices of a kind start in the table. -/
def base : StateKind → UInt32
  | .kv => 0
  | .conv => 6
  | .delta => 24

theorem gid_eq (op : StateOp) : op.gid = base op.state.1 + op.state.2 := by
  unfold StateOp.gid StateOp.state
  cases op.name with
  | kvAppendF16 | kvGatherKT | kvGatherV => exact (UInt32.zero_add _).symm
  | conv1dSsmStepF16 | deltaChunkF16 => rfl

theorem state_eq_of_gid {a b : StateOp} (hkind : a.name.kind = b.name.kind) (h : a.gid = b.gid) :
    a.state = b.state := by
  have hfst : a.state.1 = b.state.1 := hkind
  rw [gid_eq, gid_eq, hfst, UInt32.add_right_inj] at h
  exact Prod.ext hfst h

theorem isGather_of_kv {op : StateOp} {b : UInt32} (hkind : op.name.kind = .kv)
    (hb : op.stateBytes = some b) : op.name.isGather = true := by
  unfold StateOp.stateBytes at hb
  cases hn : op.name with
  | kvAppendF16 =>
    rw [hn] at hb
    cases hb
  | kvGatherKT | kvGatherV => rfl
  | conv1dSsmStepF16 | deltaChunkF16 =>
    rw [hn] at hkind
    cases hkind

/-! ### The rows of a state -/

/-- Appends with the automatic position. -/
def appendRows (env : KvEnv) (elems stateRef : UInt32) : List Row → Kv Unit
  | [] => pure ()
  | row :: rows => do
    execKvAppend env (rowRef elems row.k) (rowRef elems row.v) stateRef wtKvPosAuto
    appendRows env elems stateRef rows

section Rows

variable {env : KvEnv} {elems stateRef : UInt32} {d d' : KvDevice} {i : ℕ} {s : Slots}
  {rows before : List Row} {row : Row}

theorem appendRows_eq (henv : Grants env) (href : RefersTo stateRef i)
    (helems : elems * 2 * 2 = s.bytes32) (h : HoldsRows s i before d)
    (hlen : before.length + rows.length ≤ s.count) :
    ∃ d', appendRows env elems stateRef rows d = (.ok (), d') ∧
      HoldsRows s i (before ++ rows) d' ∧ d'.temps = d.temps := by
  induction rows generalizing before d with
  | nil =>
    refine ⟨d, rfl, ?_, rfl⟩
    rw [List.append_nil]
    exact h
  | cons row rows ih =>
    rw [List.length_cons] at hlen
    obtain ⟨d₁, happ, h₁, htemps₁⟩ := append_eq henv h href helems row (by omega)
    obtain ⟨d₂, hrest, h₂, htemps₂⟩ := ih h₁ (by rw [List.length_append, List.length_singleton]; omega)
    rw [List.append_assoc] at h₂
    refine ⟨d₂, ?_, h₂, htemps₂.trans htemps₁⟩
    unfold appendRows
    rw [bind_apply_ok happ]
    exact hrest

/-- Appends that succeed fit into the slots. -/
theorem le_count_of_appendRows (henv : Grants env) (href : RefersTo stateRef i)
    (helems : elems * 2 * 2 = s.bytes32) (h : HoldsRows s i before d)
    (hlen : before.length ≤ s.count) (hrun : appendRows env elems stateRef rows d = (.ok (), d')) :
    before.length + rows.length ≤ s.count := by
  induction rows generalizing before d with
  | nil => exact hlen
  | cons row rows ih =>
    unfold appendRows at hrun
    rcases Nat.lt_or_ge before.length s.count with hlt | hge
    · obtain ⟨d₁, happ, h₁, -⟩ := append_eq henv h href helems row hlt
      rw [bind_apply_ok happ] at hrun
      have hrest := ih h₁ (by rw [List.length_append, List.length_singleton]; omega) hrun
      rw [List.length_append, List.length_singleton] at hrest
      rw [List.length_cons]
      omega
    · rw [bind_apply_error (append_full henv h href helems row (by omega))] at hrun
      cases hrun

/-- An append that succeeds on a state that was not used has found a geometry. -/
theorem slots_of_append (hun : d.stKvc i = none) (hcount : d.stCount i = 0)
    (href : RefersTo stateRef i)
    (h : execKvAppend env (rowRef elems row.k) (rowRef elems row.v) stateRef wtKvPosAuto d =
      (.ok (), d')) :
    i < d.nStates ∧ ∃ s : Slots, elems * 2 * 2 = s.bytes32 ∧
      (d.stBytes i).toNat = s.count * s.bytes := by
  unfold execKvAppend rowRef at h
  obtain ⟨_, d₁, hg, h⟩ := Machine.bind_eq_ok h
  rw [guard_of (of_guard hg)] at hg
  cases hg
  obtain ⟨⟨j, c⟩, d₂, hkvc, h⟩ := Machine.bind_eq_ok h
  unfold stateKvc at hkvc
  obtain ⟨_, d₃, hg, hkvc⟩ := Machine.bind_eq_ok hkvc
  rw [guard_of (of_guard hg)] at hg
  cases hg
  rw [read_id_bind, href.2] at hkvc
  obtain ⟨_, d₄, hg, hkvc⟩ := Machine.bind_eq_ok hkvc
  have hin := of_guard hg
  rw [guard_of hin] at hg
  cases hg
  simp only [hun] at hkvc
  obtain ⟨c', d₅, hlay, hkvc⟩ := Machine.bind_eq_ok hkvc
  cases hkvc
  unfold layOut at hlay
  rw [read_id_bind] at hlay
  obtain ⟨_, d₆, hg, hlay⟩ := Machine.bind_eq_ok hlay
  obtain ⟨hge, halign, hdiv⟩ := of_guard hg
  rw [guard_of ⟨hge, halign, hdiv⟩] at hg
  cases hg
  obtain ⟨posmap, hposmap⟩ : ∃ m, env.posmap (d.stBytes i / (elems * 2 * 2)) = some m := by
    cases hm : env.posmap (d.stBytes i / (elems * 2 * 2)) with
    | none =>
      simp only [hm] at hlay
      cases hlay
    | some m => exact ⟨m, rfl⟩
  simp only [hposmap] at hlay
  obtain ⟨c₀, hinit⟩ : ∃ c₀, kvcInit (d.stAddr i) (d.stBuf i) (elems * 2 * 2)
      (d.stBytes i / (elems * 2 * 2)) posmap = some c₀ := by
    cases hc : kvcInit (d.stAddr i) (d.stBuf i) (elems * 2 * 2)
        (d.stBytes i / (elems * 2 * 2)) posmap with
    | none =>
      simp only [hc] at hlay
      cases hlay
    | some c₀ => exact ⟨c₀, rfl⟩
  simp only [hinit] at hlay
  cases hlay
  -- the counter is below the number of slots, so there is one
  obtain ⟨pos, d₇, hpos, -⟩ := Machine.bind_eq_ok h
  unfold appendPos at hpos
  rw [if_pos rfl, read_id_bind] at hpos
  obtain ⟨_, d₈, hg, -⟩ := Machine.bind_eq_ok hpos
  have hroom := of_guard hg
  have hslots := (kvcInit_tracks hinit).nslots_eq
  simp only at hroom
  rw [hcount, hslots, UInt32.lt_iff_toNat_lt, UInt32.toNat_div] at hroom
  have hmul := Nat.div_mul_cancel (Nat.dvd_of_mod_eq_zero hdiv)
  have hlt := (d.stBytes i).toNat_lt
  refine ⟨hin, ⟨(elems * 2 * 2).toNat, (d.stBytes i).toNat / (elems * 2 * 2).toNat, hge, halign,
    hroom, ?_⟩, ?_, hmul.symm⟩
  · rw [hmul]
    exact hlt
  · exact (UInt32.ofNat_toNat).symm

end Rows

/-! ### The face of a gather -/

/-- The elements of a row of the state. -/
def rowElems (op : StateOp) : UInt32 := op.u "kv_heads" 2 * op.u "head_dim" 256

/-- The shape of the faces that the operator asks for. -/
def faceShape (op : StateOp) : FaceShape :=
  ⟨(op.u "n_heads" 8).toNat, (op.u "n_heads" 8 / op.u "kv_heads" 2).toNat,
    (op.u "head_dim" 256).toNat, op.maxPos.toNat⟩

/-- A device that has loaded the states and has not used them. SOURCE: oplist_exec.c:2084-2101 -/
structure Loaded (states : List UInt32) (d : KvDevice) : Prop where
  nStates : d.nStates = states.length
  addr : ∀ i, d.stAddr i % 128 = 0
  bytes : ∀ i b, states[i]? = some b → d.stBytes i = b
  count : ∀ i, d.stCount i = 0
  unused : ∀ i, d.stKvc i = none

/-- The face that the operator is for holds the rows of the state. -/
def ShowsFace (op : StateOp) (n : ℕ) (c : Kvc) (f : ℕ → UInt16) : Prop :=
  if op.name = .kvGatherKT then FaceShows (faceShape op) n (kElem c) (kPlace (faceShape op)) f
  else FaceShows (faceShape op) n (vElem c) (vPlace (faceShape op)) f

/-- On a device that has loaded the states, with the memory granted: for every number of rows of
`elems` elements up to the positions of the operator, the rows are appended, the gather succeeds,
and its temp holds the face of these rows. -/
def WritesFace (states : List UInt32) (elems : UInt32) (e : EmittedOp) : Prop :=
  ∀ env d rows, Grants env → Loaded states d → rows ≠ [] → rows.length ≤ e.op.maxPos.toNat →
    ∃ d₁ d', appendRows env elems e.op.stateRef rows d = (.ok (), d₁) ∧
      execGather env (opKvGather e.op e.outT) d₁ = (.ok (), d') ∧
      ∃ buf c, d'.temps e.temps.taken = some buf ∧
        d'.stKvc (deviceIdx e.op.stateRef) = some c ∧
        Tracks (rowElems e.op * 2 * 2) e.op.maxPos (rowWrites rows) c ∧
        ShowsFace e.op rows.length c buf.mem

/-- The head counts that the device accepts. SOURCE: oplist_exec.c:2187-2190 -/
def HeadsOk (op : StateOp) : Prop :=
  op.u "n_heads" 8 ≠ 0 ∧ op.u "kv_heads" 2 ≠ 0 ∧ op.u "head_dim" 256 ≠ 0 ∧
    op.u "n_heads" 8 % op.u "kv_heads" 2 = 0

/-- What the device asks of a gather: head counts that divide, slots of whole lines that fill the
state, a face of 32 bits in bytes, and a temp id that it has and that is not 0. -/
structure Gathers (e : EmittedOp) : Prop where
  heads : HeadsOk e.op
  slot_ge : 256 ≤ (rowElems e.op * 2 * 2).toNat
  slot_align : (rowElems e.op * 2 * 2).toNat % 128 = 0
  state_lt : e.op.maxPos.toNat * (rowElems e.op * 2 * 2).toNat < 2 ^ 32
  face_lt : (faceShape e.op).size * 2 < 2 ^ 32
  temp_ne : e.temps.taken ≠ 0
  temp_lt : e.temps.taken < maxTemps

section Face

variable {e : EmittedOp} {states : List UInt32} {b : UInt32}

theorem outT_toNat (e : EmittedOp) : e.outT.toNat = e.temps.taken := by
  have hlt := e.taken_lt
  exact UInt32.toNat_ofNat_of_lt' (show e.temps.taken < 2 ^ 32 by omega)

theorem outT_eq_zero_iff (e : EmittedOp) : e.outT = 0 ↔ e.temps.taken = 0 := by
  rw [← UInt32.toNat_inj, outT_toNat]
  rfl

theorem stateBytes_of_gather (h : e.op.name.isGather = true) :
    e.op.stateBytes = some (rowElems e.op * 2 * 2 * e.op.maxPos) := by
  unfold StateOp.stateBytes
  cases hn : e.op.name with
  | kvGatherKT | kvGatherV => rfl
  | kvAppendF16 | conv1dSsmStepF16 | deltaChunkF16 =>
    rw [hn] at h
    cases h

theorem maxPos_pos (h : e.op.name.isGather = true) (hb : e.op.stateBytes = some b) (hne : b ≠ 0) :
    0 < e.op.maxPos.toNat := by
  rw [Nat.pos_iff_ne_zero]
  intro hz
  have hmax : e.op.maxPos = 0 := UInt32.toNat_inj.mp hz
  rw [stateBytes_of_gather h, hmax, UInt32.mul_zero] at hb
  exact hne (Option.some.inj hb).symm

/-- The slots of the state of a gather. -/
def Gathers.slots (h : Gathers e) (hpos : 0 < e.op.maxPos.toNat) : Slots where
  bytes := (rowElems e.op * 2 * 2).toNat
  count := e.op.maxPos.toNat
  bytes_ge := h.slot_ge
  align := h.slot_align
  count_pos := hpos
  fits := h.state_lt

/-- The states of a device that has just loaded them. -/
def freshDevice (states : List UInt32) : KvDevice :=
  ⟨states.length, fun _ => 0, fun _ _ => 0, fun i => states[i]?.getD 0, fun _ => 0, fun _ => none,
    fun _ => none⟩

theorem freshDevice_loaded (states : List UInt32) : Loaded states (freshDevice states) :=
  ⟨rfl, fun _ => rfl, fun i b hb => by simp [freshDevice, hb], fun _ => rfl, fun _ => rfl⟩

/-- A device with the states loaded holds no rows in a state whose bytes are those of its slots. -/
theorem Loaded.holdsRows {d : KvDevice} {i : ℕ} {s : Slots} (hd : Loaded states d)
    (hb : states[i]? = some b) (hbytes : b.toNat = s.count * s.bytes) : HoldsRows s i [] d where
  idx := by
    rw [hd.nStates]
    exact (List.getElem?_eq_some_iff.mp hb).1
  addr := hd.addr i
  bytes := by rw [hd.bytes i b hb, hbytes]
  count := hd.count i
  cache := .inl ⟨hd.unused i, rfl⟩

/-- A gather that meets what the device asks for writes its face. -/
theorem writesFace_of_gathers (hg : Gathers e) (hpos : 0 < e.op.maxPos.toNat)
    (href : IsStateRef e.op.stateRef)
    (hb : states[deviceIdx e.op.stateRef]? = some (rowElems e.op * 2 * 2 * e.op.maxPos))
    {elems : UInt32} (hrow : elems * 2 * 2 = rowElems e.op * 2 * 2) :
    WritesFace states elems e := by
  intro env d rows henv hd hne hlen
  have helems : rowElems e.op * 2 * 2 = (hg.slots hpos).bytes32 := (UInt32.ofNat_toNat).symm
  have hcount : e.op.maxPos = (hg.slots hpos).count32 := (UInt32.ofNat_toNat).symm
  have hbytes : (rowElems e.op * 2 * 2 * e.op.maxPos).toNat =
      (hg.slots hpos).count * (hg.slots hpos).bytes := by
    have hlt := hg.state_lt
    rw [UInt32.toNat_mul, Nat.mul_comm, Nat.mod_eq_of_lt hlt]
    rfl
  have hlong : rows.length ≤ (hg.slots hpos).count := hlen
  have hsmall := (hg.slots hpos).count_lt
  have hto : RefersTo e.op.stateRef (deviceIdx e.op.stateRef) := ⟨href, rfl⟩
  obtain ⟨d₁, happ, h₁, -⟩ := appendRows_eq henv hto (hrow.trans helems) (hd.holdsRows hb hbytes)
    (show ([] : List Row).length + rows.length ≤ _ by rw [List.length_nil]; omega)
  rw [List.nil_append] at h₁
  obtain ⟨c, htracks, hgather⟩ := gather_eq henv h₁ hto (opKvGather e.op e.outT).kOut
    (opKvGather e.op e.outT).vOut hg.heads helems hne hlong
  have hout : e.outT.toNat < maxTemps := by
    rw [outT_toNat]
    exact hg.temp_lt
  have hout0 : e.outT ≠ 0 := fun h0 => hg.temp_ne ((outT_eq_zero_iff e).mp h0)
  have hzero : (0 : UInt32).toNat < maxTemps := by decide
  refine ⟨d₁, ?_⟩
  by_cases hname : e.op.name = .kvGatherKT
  · have hk : (opKvGather e.op e.outT).kOut = e.outT := if_pos hname
    have hv : (opKvGather e.op e.outT).vOut = 0 := if_pos hname
    rw [hk, hv] at hgather
    obtain ⟨d', hwrite, hrest, hface, -⟩ := @writeFaces_ok rows.length env
      { d₁ with stKvc := Function.update d₁.stKvc _ (some c) } c e.outT 0 (faceShape e.op) henv
      (by omega) hlong (fun p hp => lookup_row htracks hlong hp) hout hzero id hg.face_lt
    obtain ⟨buf, hbuf, hshows⟩ := hface hout0
    rw [outT_toNat] at hbuf
    refine ⟨d', happ, ?_, buf, c, hbuf, ?_, ?_, ?_⟩
    · unfold execGather
      rw [hk, hv]
      exact hgather.trans hwrite
    · rw [hrest]
      exact Function.update_self _ _ _
    · rw [helems, hcount]
      exact htracks
    · unfold ShowsFace
      rw [if_pos hname]
      exact hshows
  · have hk : (opKvGather e.op e.outT).kOut = 0 := if_neg hname
    have hv : (opKvGather e.op e.outT).vOut = e.outT := if_neg hname
    rw [hk, hv] at hgather
    obtain ⟨d', hwrite, hrest, -, hface⟩ := @writeFaces_ok rows.length env
      { d₁ with stKvc := Function.update d₁.stKvc _ (some c) } c 0 e.outT (faceShape e.op) henv
      (by omega) hlong (fun p hp => lookup_row htracks hlong hp) hzero hout (fun _ => rfl)
      hg.face_lt
    obtain ⟨buf, hbuf, hshows⟩ := hface hout0
    rw [outT_toNat] at hbuf
    refine ⟨d', happ, ?_, buf, c, hbuf, ?_, ?_, ?_⟩
    · unfold execGather
      rw [hk, hv]
      exact hgather.trans hwrite
    · rw [hrest]
      exact Function.update_self _ _ _
    · rw [helems, hcount]
      exact htracks
    · unfold ShowsFace
      rw [if_neg hname]
      exact hshows

/-! ### What the device asks for -/

section Needed

variable {env : KvEnv} {d d' : KvDevice} {c : Kvc} {kOut vOut t : UInt32} {sh : FaceShape} {n : ℕ}

theorem pos_of_size_pos (h : 0 < sh.size) : 0 < sh.nHeads ∧ 0 < sh.hd ∧ 0 < sh.pstride := by
  have hrow : 0 < sh.nHeads * sh.hd := Nat.pos_of_mul_pos_right h
  exact ⟨Nat.pos_of_mul_pos_right hrow, Nat.pos_of_mul_pos_left hrow, Nat.pos_of_mul_pos_left h⟩

theorem grid_last {a b m : ℕ} (ha : 0 < a) (hb : 0 < b) (hm : 0 < m) :
    ((a - 1) * b + (b - 1)) * m + (m - 1) = a * b * m - 1 := by
  obtain ⟨a, rfl⟩ := Nat.exists_eq_succ_of_ne_zero ha.ne'
  obtain ⟨b, rfl⟩ := Nat.exists_eq_succ_of_ne_zero hb.ne'
  obtain ⟨m, rfl⟩ := Nat.exists_eq_succ_of_ne_zero hm.ne'
  simp only [Nat.succ_eq_add_one, Nat.add_sub_cancel]
  grind

/-- A gather of all positions stores the last element of its face. -/
theorem last_mem_gatherStores (hpos : 0 < sh.size) (ht : t ≠ 0) (hto : t = kOut ∨ t = vOut) :
    ∃ v, (⟨t.toNat, sh.size - 1, v⟩ : FaceStore) ∈ gatherStores c kOut vOut sh sh.pstride := by
  obtain ⟨hh, hhd, hp⟩ := pos_of_size_pos hpos
  have hsize : sh.size = sh.nHeads * sh.pstride * sh.hd := Nat.mul_right_comm _ _ _
  have hk : sh.size - 1 = kPlace sh (sh.nHeads - 1) (sh.hd - 1) (sh.pstride - 1) :=
    (grid_last hh hhd hp).symm
  have hv : sh.size - 1 = vPlace sh (sh.nHeads - 1) (sh.hd - 1) (sh.pstride - 1) :=
    hsize ▸ (grid_last hh hp hhd).symm
  have hinto := fun w => @mem_gatherStores sh.pstride c kOut vOut sh w
  cases hto with
  | inl he =>
    subst he
    exact ⟨_, (hinto _).mpr ⟨_, Nat.sub_lt hp Nat.one_pos, _, Nat.sub_lt hh Nat.one_pos, _,
      Nat.sub_lt hhd Nat.one_pos, .inl ⟨ht, by rw [hk]⟩⟩⟩
  | inr he =>
    subst he
    exact ⟨_, (hinto _).mpr ⟨_, Nat.sub_lt hp Nat.one_pos, _, Nat.sub_lt hh Nat.one_pos, _,
      Nat.sub_lt hhd Nat.one_pos, .inr ⟨ht, by rw [hv]⟩⟩⟩

/-- On a device without temps, the buffer of a face is made for it, so that a gather that succeeds
has an id that the device knows and a face of 32 bits in bytes. -/
theorem temp_of_writeFaces (hnone : ∀ x, d.temps x = none) (hone : kOut = 0 ∨ vOut = 0)
    (ht : t ≠ 0) (hto : t = kOut ∨ t = vOut) (hpos : 0 < sh.size) (hn : sh.pstride ≤ 2 ^ 31)
    (hfound : ∀ p < sh.pstride, kvcLookup c (UInt32.ofNat p) = .ok (UInt32.ofNat p).toInt32)
    (h : writeFaces env c kOut vOut sh sh.pstride d = (.ok (), d')) :
    t.toNat < maxTemps ∧ sh.size * 2 < 2 ^ 32 := by
  obtain ⟨d₁, d₂, temps', hk, hv, hstores, -⟩ := (writeFaces_eq_ok hn hfound).mp h
  obtain ⟨hklt, room₁⟩ := madeRoom_of_faceGet hk
  obtain ⟨hvlt, room₂⟩ := madeRoom_of_faceGet hv
  obtain ⟨v, hlast⟩ := @last_mem_gatherStores c kOut vOut t sh hpos ht hto
  obtain ⟨buf, hbuf, hin⟩ := (foldlM_storeTo_eq_ok.mp hstores).1 _ (List.mem_append_right _ hlast)
  have hfresh : t.toNat < maxTemps ∧
      ∃ mem, d₂.temps t.toNat = some ⟨mem, UInt32.ofNat (sh.size * 2)⟩ := by
    by_cases hk0 : kOut = 0
    · obtain rfl : t = vOut := hto.resolve_left fun he => ht (he.trans hk0)
      rw [room₁.same hk0] at room₂
      exact ⟨hvlt ht, room₂.fresh ht (hnone _)⟩
    · have hv0 : vOut = 0 := hone.resolve_left hk0
      obtain rfl : t = kOut := hto.resolve_right fun he => ht (he.trans hv0)
      rw [room₂.same hv0]
      exact ⟨hklt ht, room₁.fresh ht (hnone _)⟩
  obtain ⟨hlt, mem, hmem⟩ := hfresh
  refine ⟨hlt, ?_⟩
  cases hmem.symm.trans hbuf
  have hwrap : (UInt32.ofNat (sh.size * 2)).toNat = sh.size * 2 % 2 ^ 32 := rfl
  simp only [hwrap] at hin
  omega

/-- A gather without faces leaves the temps as they are. -/
theorem temps_of_no_faces (hnone : ∀ x, d.temps x = none) (hn : n ≤ 2 ^ 31)
    (hfound : ∀ p < n, kvcLookup c (UInt32.ofNat p) = .ok (UInt32.ofNat p).toInt32)
    (h : writeFaces env c 0 0 sh n d = (.ok (), d')) (x : ℕ) : d'.temps x = none := by
  obtain ⟨d₁, d₂, temps', hk, hv, hstores, rfl⟩ := (writeFaces_eq_ok hn hfound).mp h
  rw [(madeRoom_of_faceGet hv).2.same rfl, (madeRoom_of_faceGet hk).2.same rfl] at hstores
  show temps' x = none
  rw [(foldlM_storeTo_eq_ok.mp hstores).2 x, hnone]
  rfl

variable {e : EmittedOp} {states : List UInt32} {i : ℕ} {s : Slots} {rows : List Row}

/-- Appends of all positions that succeed have found the slots that the operator expects. -/
theorem slots_of_appendRows (henv : Grants env) (hd : Loaded states d)
    (href : RefersTo e.op.stateRef i)
    (hb : states[i]? = some (rowElems e.op * 2 * 2 * e.op.maxPos))
    (hlen : rows.length = e.op.maxPos.toNat) (hpos : 0 < e.op.maxPos.toNat)
    (hrun : appendRows env (rowElems e.op) e.op.stateRef rows d = (.ok (), d')) :
    ∃ s : Slots, rowElems e.op * 2 * 2 = s.bytes32 ∧ e.op.maxPos.toNat = s.count ∧
      HoldsRows s i [] d := by
  obtain ⟨row, rest, rfl⟩ := List.exists_cons_of_length_pos (hlen ▸ hpos)
  have hfirst := hrun
  unfold appendRows at hfirst
  obtain ⟨_, _, hfirst, -⟩ := Machine.bind_eq_ok hfirst
  obtain ⟨-, s, helems, hbytes⟩ := slots_of_append (hd.unused i) (hd.count i) href hfirst
  rw [hd.bytes i _ hb] at hbytes
  have hstart := hd.holdsRows hb hbytes
  refine ⟨s, helems, ?_, hstart⟩
  -- all rows fit, so that the size of the state has not wrapped
  have hall := le_count_of_appendRows henv href helems hstart (Nat.zero_le _) hrun
  rw [List.length_nil, Nat.zero_add, hlen] at hall
  have hle : s.bytes * e.op.maxPos.toNat ≤ s.count * s.bytes := by
    rw [Nat.mul_comm s.bytes]
    exact Nat.mul_le_mul_right _ hall
  have hfit := s.fits
  have hge := s.bytes_ge
  rw [helems, UInt32.toNat_mul, s.bytes32_toNat, Nat.mod_eq_of_lt (by omega), Nat.mul_comm]
    at hbytes
  exact Nat.eq_of_mul_eq_mul_right (by omega) hbytes

theorem heads_of_execGather {op : StateOp} (h : execGather env (opKvGather op t) d = (.ok (), d')) :
    HeadsOk op := by
  unfold execGather execKvGather at h
  obtain ⟨_, _, hguard, -⟩ := Machine.bind_eq_ok h
  have hpassed := of_guard hguard
  exact hpassed

/-- A gather of all positions on a device without temps writes a face only with an id that the
device knows and that is not 0, and with a face of 32 bits in bytes. -/
theorem temp_of_execGather (henv : Grants env) (h : HoldsRows s i rows d)
    (href : RefersTo e.op.stateRef i) (helems : rowElems e.op * 2 * 2 = s.bytes32)
    (hlen : rows.length = e.op.maxPos.toNat) (hcount : e.op.maxPos.toNat = s.count)
    (hnone : ∀ x, d.temps x = none)
    (hrun : execGather env (opKvGather e.op e.outT) d = (.ok (), d')) {buf : TempBuf}
    (hbuf : d'.temps e.temps.taken = some buf) :
    e.temps.taken ≠ 0 ∧ e.temps.taken < maxTemps ∧ (faceShape e.op).size * 2 < 2 ^ 32 := by
  have hheads := heads_of_execGather hrun
  have hpos : 0 < e.op.maxPos.toNat := hcount ▸ s.count_pos
  have hne : rows ≠ [] := by
    rw [← List.length_pos_iff, hlen]
    exact hpos
  obtain ⟨c, htracks, hgather⟩ := gather_eq henv h href (opKvGather e.op e.outT).kOut
    (opKvGather e.op e.outT).vOut hheads helems hne (by rw [hlen, hcount])
  have hwrite := hgather.symm.trans hrun
  rw [← hcount, hlen] at hwrite
  change writeFaces env c _ _ (faceShape e.op) (faceShape e.op).pstride _ = _ at hwrite
  generalize hd₁ : ({ d with stKvc := Function.update d.stKvc i (some c) } : KvDevice) = d₁ at hwrite
  have hnone₁ : ∀ x, d₁.temps x = none := by
    rw [← hd₁]
    exact hnone
  have hsmall := s.count_lt
  have hn : (faceShape e.op).pstride ≤ 2 ^ 31 := by
    show e.op.maxPos.toNat ≤ 2 ^ 31
    omega
  have hfound : ∀ p < (faceShape e.op).pstride,
      kvcLookup c (UInt32.ofNat p) = .ok (UInt32.ofNat p).toInt32 := fun p hp =>
    lookup_row htracks (by rw [hlen, hcount]) (hlen ▸ hp)
  have htaken : e.temps.taken ≠ 0 := by
    intro hzero
    have hout0 : e.outT = 0 := (outT_eq_zero_iff e).mpr hzero
    have hk0 : (opKvGather e.op e.outT).kOut = 0 := by
      unfold opKvGather
      rw [hout0, ite_self]
    have hv0 : (opKvGather e.op e.outT).vOut = 0 := by
      unfold opKvGather
      rw [hout0, ite_self]
    rw [hk0, hv0] at hwrite
    rw [temps_of_no_faces hnone₁ hn hfound hwrite] at hbuf
    cases hbuf
  have hone : (opKvGather e.op e.outT).kOut = 0 ∨ (opKvGather e.op e.outT).vOut = 0 := by
    by_cases hname : e.op.name = .kvGatherKT
    · exact .inr (if_pos hname)
    · exact .inl (if_neg hname)
  have hout : e.outT = (opKvGather e.op e.outT).kOut ∨ e.outT = (opKvGather e.op e.outT).vOut := by
    by_cases hname : e.op.name = .kvGatherKT
    · exact .inl (if_pos hname).symm
    · exact .inr (if_neg hname).symm
  have hsize : 0 < (faceShape e.op).size := by
    obtain ⟨hh, -, hhd, -⟩ := hheads
    exact Nat.mul_pos (Nat.mul_pos (Nat.pos_of_ne_zero fun h0 => hh (UInt32.toNat_inj.mp h0))
      (Nat.pos_of_ne_zero fun h0 => hhd (UInt32.toNat_inj.mp h0))) hpos
  obtain ⟨hlt, hface⟩ := temp_of_writeFaces hnone₁ hone
    (fun h0 => htaken ((outT_eq_zero_iff e).mp h0)) hout hsize hn hfound hwrite
  rw [outT_toNat] at hlt
  exact ⟨htaken, hlt, hface⟩

/-- A gather that writes its face meets what the device asks for. -/
theorem gathers_of_writesFace (hpos : 0 < e.op.maxPos.toNat)
    (hb : states[deviceIdx e.op.stateRef]? = some (rowElems e.op * 2 * 2 * e.op.maxPos))
    (href : IsStateRef e.op.stateRef) (h : WritesFace states (rowElems e.op) e) : Gathers e := by
  have hto : RefersTo e.op.stateRef (deviceIdx e.op.stateRef) := ⟨href, rfl⟩
  have hd := freshDevice_loaded states
  obtain ⟨rows, hlen⟩ : ∃ rows : List Row, rows.length = e.op.maxPos.toNat :=
    ⟨List.replicate _ ⟨fun _ => 0, fun _ => 0⟩, List.length_replicate⟩
  have hne : rows ≠ [] := by
    rw [← List.length_pos_iff, hlen]
    exact hpos
  obtain ⟨d₁, d', happ, hrun, buf, -, hbuf, -⟩ :=
    h zeroedEnv _ rows zeroedEnv_grants hd hne hlen.le
  obtain ⟨s, helems, hcount, hstart⟩ :=
    slots_of_appendRows zeroedEnv_grants hd hto hb hlen hpos happ
  have hslot : (rowElems e.op * 2 * 2).toNat = s.bytes := by rw [helems, s.bytes32_toNat]
  obtain ⟨d₂, happ', h₂, htemps⟩ := appendRows_eq zeroedEnv_grants hto helems hstart
    (show ([] : List Row).length + rows.length ≤ _ by
      rw [hlen, hcount]; exact (Nat.zero_add _).le)
  obtain rfl : d₁ = d₂ := congrArg Prod.snd (happ.symm.trans happ')
  rw [List.nil_append] at h₂
  obtain ⟨htaken, hlt, hface⟩ := temp_of_execGather zeroedEnv_grants h₂ hto helems hlen hcount
    (fun x => congrFun htemps x) hrun hbuf
  refine ⟨heads_of_execGather hrun, hslot ▸ s.bytes_ge, hslot ▸ s.align, ?_, hface, htaken, hlt⟩
  rw [hslot, hcount]
  exact s.fits

/-- A gather that writes the face of rows of `elems` elements expects slots of such rows. -/
theorem slot_of_writesFace {elems : UInt32} (hs : elems * 2 * 2 = s.bytes32)
    (href : IsStateRef e.op.stateRef) {b : UInt32} (hb : states[deviceIdx e.op.stateRef]? = some b)
    (hbytes : b.toNat = s.count * s.bytes) (hpos : 0 < e.op.maxPos.toNat)
    (h : WritesFace states elems e) : elems * 2 * 2 = rowElems e.op * 2 * 2 := by
  have hto : RefersTo e.op.stateRef (deviceIdx e.op.stateRef) := ⟨href, rfl⟩
  have hd := freshDevice_loaded states
  obtain ⟨d₁, d', happ, hrun, -⟩ := h zeroedEnv _ [⟨fun _ => 0, fun _ => 0⟩] zeroedEnv_grants hd
    (List.cons_ne_nil _ _) hpos
  obtain ⟨d₂, happ', h₂, -⟩ := appendRows_eq zeroedEnv_grants hto hs (hd.holdsRows hb hbytes)
    (show ([] : List Row).length + [_].length ≤ _ from s.count_pos)
  obtain rfl : d₁ = d₂ := congrArg Prod.snd (happ.symm.trans happ')
  obtain ⟨-, hnil⟩ | ⟨c, hc, htracks⟩ := h₂.cache
  · cases hnil
  unfold execGather execKvGather at hrun
  obtain ⟨_, d₃, hguard, hrun⟩ := Machine.bind_eq_ok hrun
  rw [guard_of (of_guard hguard)] at hguard
  cases hguard
  obtain ⟨_, d₄, hkvc, -⟩ := Machine.bind_eq_ok hrun
  unfold stateKvc at hkvc
  obtain ⟨_, d₅, hguard, hkvc⟩ := Machine.bind_eq_ok hkvc
  rw [guard_of (of_guard hguard)] at hguard
  cases hguard
  rw [read_id_bind] at hkvc
  obtain ⟨_, d₆, hguard, hkvc⟩ := Machine.bind_eq_ok hkvc
  rw [guard_of (of_guard hguard)] at hguard
  cases hguard
  change d₁.stKvc ((opKvGather e.op e.outT).stateRef &&& 0x1FFF).toNat = some c at hc
  simp only [hc] at hkvc
  obtain ⟨_, d₇, hguard, -⟩ := Machine.bind_eq_ok hkvc
  rw [hs, ← htracks.slotBytes_eq]
  exact of_guard hguard

end Needed

end Face

/-! ### The binding -/

/-- Each operator refers to a state of the size that it expects, the states of different kinds or
indices are different ones, and each gather writes its face when the state has rows as some gather
of it expects them. -/
structure BoundTo (states : List UInt32) (es : List EmittedOp) : Prop where
  state : ∀ e ∈ es, IsStateRef e.op.stateRef ∧ ∃ b, states[deviceIdx e.op.stateRef]? = some b ∧
    ∀ b', e.op.stateBytes = some b' → b = b'
  distinct : ∀ e ∈ es, ∀ e' ∈ es, e.op.state ≠ e'.op.state →
    deviceIdx e.op.stateRef ≠ deviceIdx e'.op.stateRef
  faces : ∀ e ∈ es, ∀ e' ∈ es, e.op.name.isGather = true → e'.op.name.isGather = true →
    e.op.stateIdx = e'.op.stateIdx → WritesFace states (rowElems e'.op) e

/-- No two kinds meet in the table, every append has a gather, the device has room for the table,
every gather is one that the device can write, and the gathers of a state agree on its slots. -/
structure Separate (es : List EmittedOp) : Prop where
  kinds : ∀ e ∈ es, ∀ e' ∈ es, e.op.name.kind ≠ e'.op.name.kind →
    base e.op.name.kind + e.op.stateIdx ≠ base e'.op.name.kind + e'.op.stateIdx
  gathered : ∀ e ∈ es, e.op.name = .kvAppendF16 →
    ∃ e' ∈ es, e'.op.name.isGather = true ∧ e'.op.stateIdx = e.op.stateIdx
  fits : ∀ e ∈ es, (base e.op.name.kind + e.op.stateIdx).toNat < 64
  sizes : ∀ e ∈ es, ∀ b, e.op.stateBytes = some b → GoodSize b
  gathers : ∀ e ∈ es, e.op.name.isGather = true → Gathers e
  slots : ∀ e ∈ es, ∀ e' ∈ es, e.op.name.isGather = true → e'.op.name.isGather = true →
    e.op.stateIdx = e'.op.stateIdx → rowElems e'.op * 2 * 2 = rowElems e.op * 2 * 2

section Binding

variable {es : List EmittedOp} {sizes : List UInt32}

theorem SizesOf.mem (h : SizesOf (es.map EmittedOp.op) sizes) {i : ℕ} {b : UInt32}
    (hi : sizes[i]? = some b) : ∃ e ∈ es, e.op.gid.toNat = i ∧ e.op.stateBytes = some b := by
  obtain ⟨op, hop, hgid, hb⟩ := h.source i b hi
  obtain ⟨e, he, rfl⟩ := List.mem_map.mp hop
  exact ⟨e, he, hgid, hb⟩

theorem SizesOf.entry (h : SizesOf (es.map EmittedOp.op) sizes) {e : EmittedOp} (he : e ∈ es)
    {b : UInt32} (hb : e.op.stateBytes = some b) : sizes[e.op.gid.toNat]? = some b :=
  h.found _ (List.mem_map_of_mem he) b hb

theorem stateBytes_of_ne_append {op : StateOp} (h : op.name ≠ .kvAppendF16) :
    ∃ b, op.stateBytes = some b := by
  unfold StateOp.stateBytes
  cases hn : op.name with
  | kvAppendF16 => exact absurd hn h
  | kvGatherKT | kvGatherV | conv1dSsmStepF16 | deltaChunkF16 => exact ⟨_, rfl⟩

theorem isGather_ne_append {op : StateOp} (h : op.name.isGather = true) :
    op.name ≠ .kvAppendF16 := by
  intro hn
  rw [hn] at h
  cases h

theorem Separate.sizes_good (hsep : Separate es) (h : SizesOf (es.map EmittedOp.op) sizes) :
    sizes.length ≤ 64 ∧ ∀ b ∈ sizes, GoodSize b := by
  constructor
  · by_contra hlong
    obtain ⟨e, he, hgid, -⟩ := h.mem (List.getElem?_eq_getElem (show 64 < sizes.length by omega))
    have hlt := hsep.fits e he
    rw [← show e.op.gid = base e.op.name.kind + e.op.stateIdx from gid_eq e.op, hgid] at hlt
    omega
  · intro b hb
    obtain ⟨i, hi, rfl⟩ := List.mem_iff_getElem.mp hb
    obtain ⟨e, he, -, hbytes⟩ := h.mem (List.getElem?_eq_getElem hi)
    exact hsep.sizes e he _ hbytes

theorem Separate.boundTo (hsep : Separate es) (h : SizesOf (es.map EmittedOp.op) sizes) :
    BoundTo sizes es := by
  have hgid : ∀ e ∈ es, IsStateRef e.op.stateRef ∧ deviceIdx e.op.stateRef = e.op.gid.toNat := by
    intro e he
    apply stateRef_of_lt
    rw [gid_eq]
    exact hsep.fits e he
  refine ⟨?_, ?_, ?_⟩
  · intro e he
    obtain ⟨href, hidx⟩ := hgid e he
    rw [hidx]
    refine ⟨href, ?_⟩
    by_cases hn : e.op.name = .kvAppendF16
    · -- the entry of an append is that of its gather
      obtain ⟨e', he', hgather, hsame⟩ := hsep.gathered e he hn
      obtain ⟨b, hb⟩ := stateBytes_of_ne_append (isGather_ne_append hgather)
      have hgid' : e'.op.gid = e.op.gid := by
        unfold StateOp.gid
        rw [hsame, hn]
        cases hn' : e'.op.name with
        | kvAppendF16 | kvGatherKT | kvGatherV => rfl
        | conv1dSsmStepF16 | deltaChunkF16 =>
          rw [hn'] at hgather
          cases hgather
      refine ⟨b, hgid' ▸ h.entry he' hb, ?_⟩
      intro b' hb'
      unfold StateOp.stateBytes at hb'
      rw [hn] at hb'
      cases hb'
    · obtain ⟨b, hb⟩ := stateBytes_of_ne_append hn
      refine ⟨b, h.entry he hb, ?_⟩
      intro b' hb'
      exact Option.some.inj (hb.symm.trans hb')
  · intro e he e' he' hne heq
    rw [(hgid e he).2, (hgid e' he').2] at heq
    have hgids : e.op.gid = e'.op.gid := UInt32.toNat_inj.mp heq
    by_cases hkind : e.op.name.kind = e'.op.name.kind
    · exact hne (state_eq_of_gid hkind hgids)
    · apply hsep.kinds e he e' he' hkind
      rw [gid_eq, gid_eq] at hgids
      exact hgids
  · intro e he e' he' hgather hgather' hsame
    have hbytes := stateBytes_of_gather hgather
    obtain ⟨href, hidx⟩ := hgid e he
    refine writesFace_of_gathers (hsep.gathers e he hgather)
      (maxPos_pos hgather hbytes (hsep.sizes e he _ hbytes).1) href ?_
      (hsep.slots e he e' he' hgather hgather' hsame)
    rw [hidx]
    exact h.entry he hbytes

theorem BoundTo.gathers (hbound : BoundTo sizes es) {e : EmittedOp} (he : e ∈ es)
    (hgather : e.op.name.isGather = true) (hpos : 0 < e.op.maxPos.toNat) : Gathers e := by
  obtain ⟨href, b, hb, hsize⟩ := hbound.state e he
  rw [hsize _ (stateBytes_of_gather hgather)] at hb
  exact gathers_of_writesFace hpos hb href (hbound.faces e he e he hgather hgather rfl)

theorem gid_eq_of_gather {op op' : StateOp} (h : op.name.isGather = true)
    (h' : op'.name.isGather = true) (hsame : op.stateIdx = op'.stateIdx) : op.gid = op'.gid := by
  have hgid : ∀ o : StateOp, o.name.isGather = true → o.gid = o.stateIdx := by
    intro o ho
    unfold StateOp.gid
    cases hn : o.name with
    | kvGatherKT | kvGatherV => rfl
    | kvAppendF16 | conv1dSsmStepF16 | deltaChunkF16 =>
      rw [hn] at ho
      cases ho
  rw [hgid op h, hgid op' h', hsame]

theorem BoundTo.slots (hbound : BoundTo sizes es) {e e' : EmittedOp} (he : e ∈ es) (he' : e' ∈ es)
    (hgather : e.op.name.isGather = true) (hgather' : e'.op.name.isGather = true)
    (hsame : e.op.stateIdx = e'.op.stateIdx) (hpos : 0 < e.op.maxPos.toNat)
    (hpos' : 0 < e'.op.maxPos.toNat) : rowElems e'.op * 2 * 2 = rowElems e.op * 2 * 2 := by
  have hg' := hbound.gathers he' hgather' hpos'
  have hrefs : e.op.stateRef = e'.op.stateRef := by
    unfold StateOp.stateRef
    rw [gid_eq_of_gather hgather hgather' hsame]
  obtain ⟨href, b, hb, -⟩ := hbound.state e he
  obtain ⟨-, b', hb', hsize'⟩ := hbound.state e' he'
  rw [hsize' _ (stateBytes_of_gather hgather'), ← hrefs] at hb'
  have helems : rowElems e'.op * 2 * 2 = (hg'.slots hpos').bytes32 := (UInt32.ofNat_toNat).symm
  refine slot_of_writesFace helems href hb' ?_ hpos
    (hbound.faces e he e' he' hgather hgather' hsame)
  have hlt := hg'.state_lt
  rw [UInt32.toNat_mul, Nat.mul_comm, Nat.mod_eq_of_lt hlt]
  rfl

theorem separate_of_boundTo (hlen : sizes.length ≤ 64) (hgood : ∀ b ∈ sizes, GoodSize b)
    (h : SizesOf (es.map EmittedOp.op) sizes) (hbound : BoundTo sizes es) : Separate es := by
  -- an operator refers to its own entry: the operator of the entry that it refers to has the
  -- same state
  have hentry : ∀ e ∈ es, ∃ e' ∈ es, ∃ b, e'.op.stateBytes = some b ∧ e'.op.state = e.op.state ∧
      e'.op.gid.toNat < 64 := by
    intro e he
    obtain ⟨-, b, hb, -⟩ := hbound.state e he
    obtain ⟨e', he', hgid', hb'⟩ := h.mem hb
    have hlt : e'.op.gid.toNat < 64 := by
      have := (List.getElem?_eq_some_iff.mp hb).1
      omega
    refine ⟨e', he', b, hb', ?_, hlt⟩
    by_contra hne
    apply hbound.distinct e' he' e he hne
    rw [(stateRef_of_lt hlt).2, hgid']
  have hpos : ∀ e ∈ es, e.op.name.isGather = true → 0 < e.op.maxPos.toNat := by
    intro e he hgather
    have hbytes := stateBytes_of_gather hgather
    obtain ⟨-, b, hb, hsize⟩ := hbound.state e he
    have hb0 := (hgood b (List.mem_of_getElem? hb)).1
    exact maxPos_pos hgather hbytes (hsize _ hbytes ▸ hb0)
  refine ⟨?_, ?_, ?_, ?_, ?_, ?_⟩
  · intro e he e' he' hkind heq
    have hgids : e.op.gid = e'.op.gid := by
      rw [gid_eq, gid_eq]
      exact heq
    apply hbound.distinct e he e' he' fun hstate => hkind (congrArg Prod.fst hstate)
    unfold StateOp.stateRef
    rw [hgids]
  · intro e he hn
    obtain ⟨e', he', b, hb, hstate, -⟩ := hentry e he
    refine ⟨e', he', isGather_of_kv ?_ hb, congrArg Prod.snd hstate⟩
    have hkind : e'.op.name.kind = e.op.name.kind := congrArg Prod.fst hstate
    rw [hkind, hn]
    rfl
  · intro e he
    obtain ⟨e', -, b, -, hstate, hlt⟩ := hentry e he
    rw [gid_eq, hstate] at hlt
    exact hlt
  · intro e he b hb
    exact hgood b (List.mem_of_getElem? (h.entry he hb))
  · exact fun e he hgather => hbound.gathers he hgather (hpos e he hgather)
  · intro e he e' he' hgather hgather' hsame
    exact hbound.slots he he' hgather hgather' hsame (hpos e he hgather) (hpos e' he' hgather')

end Binding

def faceDef (d2 d3 : ℕ) : Gehtp.Model.OpGraph.OutputDef :=
  ⟨4, 0, 0, 0, #v[1, 8, d2, d3, 0], 2, 0, 0, Vector.replicate 3 0⟩

/-- The temps when `n` of them are handed out. -/
def tempsFrom (n : ℕ) : Desk ℕ := ⟨fun _ => none, [], n⟩

theorem tempsFrom_lt (t : Fin 32768) : (tempsFrom t).taken < 32768 := t.isLt

/-- An append to the KV state `i`. -/
def appendOp (i : UInt32) (t : Fin 32768) : EmittedOp :=
  ⟨⟨.kvAppendF16, [("state_idx", i)], faceDef 1 1⟩, tempsFrom t, tempsFrom_lt t⟩

/-- A gather of the K face of the KV state `i` with 36 positions that is given temp `t`. -/
def gatherOp (i : UInt32) (t : Fin 32768) : EmittedOp :=
  ⟨⟨.kvGatherKT, [("state_idx", i)], faceDef 256 36⟩, tempsFrom t, tempsFrom_lt t⟩

/-- A gather of the V face. -/
def gatherVOp (i : UInt32) (t : Fin 32768) : EmittedOp :=
  ⟨⟨.kvGatherV, [("state_idx", i)], faceDef 36 256⟩, tempsFrom t, tempsFrom_lt t⟩

/-- A step of the convolution state `i`. -/
def convOp (i : UInt32) (t : Fin 32768) : EmittedOp :=
  ⟨⟨.conv1dSsmStepF16, [("state_idx", i)], faceDef 1 1⟩, tempsFrom t, tempsFrom_lt t⟩

/-- Six KV states, the first with an append and both faces, and a convolution state. -/
def sixAndConv : List EmittedOp :=
  [appendOp 0 1, gatherOp 0 1, gatherVOp 0 2, gatherOp 1 3, gatherVOp 1 4, gatherOp 2 5,
    gatherOp 3 6, gatherOp 4 7, gatherVOp 5 8, convOp 0 9]

theorem sixAndConv_slot : stateSlot (sixAndConv.map EmittedOp.op) =
    .ok (some [7, 73728, 73728, 73728, 73728, 73728, 73728, 73728]) := by
  decide

theorem sixAndConv_sizes :
    ∀ e ∈ sixAndConv, e.op.stateBytes = none ∨ e.op.stateBytes = some 73728 := by
  decide

theorem sixAndConv_heads : ∀ e ∈ sixAndConv, e.op.u "n_heads" 8 ≠ 0 ∧ e.op.u "kv_heads" 2 ≠ 0 ∧
    e.op.u "head_dim" 256 ≠ 0 ∧ e.op.u "n_heads" 8 % e.op.u "kv_heads" 2 = 0 := by
  decide

theorem sixAndConv_shapes : ∀ e ∈ sixAndConv, e.op.name.isGather = true →
    (rowElems e.op * 2 * 2).toNat = 2048 ∧ e.op.maxPos.toNat = 36 ∧ (faceShape e.op).size = 73728 ∧
      e.temps.taken ≠ 0 ∧ e.temps.taken < maxTemps := by
  decide

theorem sixAndConv_separate : Separate sixAndConv := by
  refine ⟨by decide, by decide, by decide, ?_, ?_, by decide⟩
  · intro e he b hb
    rcases sixAndConv_sizes e he with hnone | hsome
    · rw [hnone] at hb
      cases hb
    · rw [hsome] at hb
      cases hb
      exact ⟨by decide, by decide⟩
  · intro e he hgather
    obtain ⟨hslot, hpos, hface, hne, hlt⟩ := sixAndConv_shapes e he hgather
    refine ⟨sixAndConv_heads e he, ?_, ?_, ?_, ?_, hne, hlt⟩
    · omega
    · omega
    · rw [hslot, hpos]
      decide
    · omega

/-- Seven KV states and a convolution state of the same size. -/
def sevenAndConv : List EmittedOp :=
  [gatherOp 0 1, gatherOp 1 2, gatherOp 2 3, gatherOp 3 4, gatherOp 4 5, gatherOp 5 6,
    gatherOp 6 7, convOp 0 8]

theorem sevenAndConv_slot : stateSlot (sevenAndConv.map EmittedOp.op) =
    .ok (some [7, 73728, 73728, 73728, 73728, 73728, 73728, 73728]) := by
  decide

theorem gather_slot (t : Fin 32768) :
    stateSlot ([gatherOp 0 t].map EmittedOp.op) = .ok (some [1, 73728]) := by
  rw [show [gatherOp 0 t].map EmittedOp.op = [gatherOp 0 0].map EmittedOp.op from rfl]
  decide

/-- A gather that is not one that the device can write is bound to no states. -/
theorem gather_not_bound {t : Fin 32768} (h : ¬ Gathers (gatherOp 0 t)) (states : List UInt32) :
    ¬ BoundTo states [gatherOp 0 t] := by
  intro hbound
  have hpos : 0 < (gatherOp 0 0).op.maxPos.toNat := by decide
  exact h (hbound.gathers (List.mem_singleton_self _) rfl hpos)

end Gehtp.Analysis.DecodeBinding
