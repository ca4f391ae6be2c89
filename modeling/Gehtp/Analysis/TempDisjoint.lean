import Gehtp.Model.TempRun
import Gehtp.Analysis.DdrOffsetsSafe
import Gehtp.Analysis.TempOwners

/-!
# Live temps are apart on the device

The device puts a temp of the table at its offset in one of the two pools, and any other
temp above the static area. If every id that is handed out again goes to an output with
the same place, then at each point of the device run the temps whose values are still to
be read are at the places that the plan has for these values, and so they are apart.
-/

set_option autoImplicit false

namespace Gehtp.Analysis.TempDisjoint

open Lib Lib.Machine Lib.Lease Model.OpGraph Model.PlanOrder Model.DdrOffsets Model.OplistExec
  Model.TempEmit Model.TempRun Analysis.DdrOffsetsSafe Analysis.TempOwners

/-! ### Where `temp_get` puts a temp -/

/-- A temp at an address, with the bytes that were asked for. -/
def placed (s : ExecState) (id a : ℕ) (bytes : UInt32) : ExecState :=
  { s with
    temps := Function.update s.temps id (some a)
    tempBytes := Function.update s.tempBytes id bytes
    lastBytes := Function.update s.lastBytes id bytes }

/-- The whole lines of 128 bytes that a request takes. -/
def aligned (bytes : UInt32) : UInt32 := (bytes + 127) &&& ~~~127

variable {α : Type} {i a t k j t' : ℕ} {s' : ExecState} {id bytes : UInt32} {env : Env}
  {p : TempPlace} {op : DeviceOp} {ops : List DeviceOp}

theorem tempEntry_eq_ok {f : ExecState → ℕ → α} {s : ExecState} {v : α}
    (h : tempEntry f i s = (.ok v, s')) : v = f s i ∧ s' = s := by
  obtain ⟨_, t, hin, hread⟩ := bind_eq_ok h
  have ht : t = s := by
    unfold inTable at hin
    split at hin
    · exact (Prod.mk.inj hin).2.symm
    · cases hin
  subst ht
  obtain ⟨h1, h2⟩ := Prod.mk.inj hread
  exact ⟨(Except.ok.inj h1).symm, h2.symm⟩

theorem placeTemp_eq_ok {id : ℕ} {s : ExecState} {v : Option ℕ}
    (h : placeTemp id a bytes s = (.ok v, s')) : v = some a ∧ s' = placed s id a bytes := by
  obtain ⟨_, t, hin, hrest⟩ := bind_eq_ok h
  have ht : t = s := by
    unfold inTable at hin
    split at hin
    · exact (Prod.mk.inj hin).2.symm
    · cases hin
  subst ht
  obtain ⟨_, u, hup, hret⟩ := bind_eq_ok hrest
  obtain ⟨h1, h2⟩ := Prod.mk.inj hret
  exact ⟨(Except.ok.inj h1).symm, h2.symm.trans (Prod.mk.inj hup).2.symm⟩

theorem ask_eq_ok {f : ℕ → α} {s : ExecState} {v : α} (h : ask f s = (.ok v, s')) :
    v = f s.tick ∧ s' = { s with tick := s.tick + 1 } := by
  obtain ⟨h1, h2⟩ := Prod.mk.inj h
  exact ⟨(Except.ok.inj h1).symm, h2.symm⟩

theorem tempEntry_apply (f : ExecState → ℕ → α) (h : i < maxTemps) (s : ExecState) :
    tempEntry f i s = (.ok (f s i), s) := by
  unfold tempEntry inTable
  rw [if_pos h]
  rfl

theorem placeTemp_apply {id : ℕ} (h : id < maxTemps) (a : ℕ) (bytes : UInt32) (s : ExecState) :
    placeTemp id a bytes s = (.ok (some a), placed s id a bytes) := by
  unfold placeTemp inTable
  rw [if_pos h]
  rfl

theorem wtcacheEnsure_apply (env : Env) (s : ExecState) :
    ∃ ok ready n, wtcacheEnsure env s = (.ok ok, { s with engineReady := ready, tick := n }) := by
  have hstep : wtcacheEnsure env s = (if s.engineReady then pure true
      else ask env.wtcacheOpen >>= fun ok => if ok then
        update (fun s => { s with engineReady := true }) >>= fun _ => pure true
      else pure false : Exec Bool) s := rfl
  by_cases hready : s.engineReady = true
  · rw [if_pos hready] at hstep
    exact ⟨true, s.engineReady, s.tick, hstep⟩
  · rw [if_neg hready] at hstep
    have hask : ask env.wtcacheOpen s =
      (.ok (env.wtcacheOpen s.tick), { s with tick := s.tick + 1 }) := rfl
    rw [bind_apply_ok hask] at hstep
    cases hopen : env.wtcacheOpen s.tick with
    | true =>
      rw [hopen] at hstep
      exact ⟨true, true, s.tick + 1, hstep⟩
    | false =>
      rw [hopen] at hstep
      exact ⟨false, s.engineReady, s.tick + 1, hstep⟩

/-- The pool of `size` bytes is at the end of a VTCM that the manager has reported. -/
def Laid (env : Env) (size : UInt32) (vb : ℕ) : Prop :=
  ∃ n first vs pc, env.wtcacheLayout n = (some first, vs, pc) ∧ size ≤ vs ∧
    vb = first + (vs - size).toNat

theorem vtcmPoolLay_apply (env : Env) (s : ExecState) :
    vtcmPoolLay env s = (.ok none, { s with tick := s.tick + 1 }) ∨
      ∃ vb, Laid env s.vtcmPoolSize vb ∧
        vtcmPoolLay env s = (.ok (some vb), { s with vtcmPool := some vb, tick := s.tick + 1 }) := by
  unfold vtcmPoolLay
  rcases hlay : env.wtcacheLayout s.tick with ⟨first, vs, pc⟩
  have hask : ask env.wtcacheLayout s = (.ok (first, vs, pc), { s with tick := s.tick + 1 }) := by
    rw [← hlay]
    rfl
  rw [bind_apply_ok hask]
  cases first with
  | none => exact .inl rfl
  | some first =>
    show (if vs < s.vtcmPoolSize then _ else _ : Exec (Option ℕ)) _ = _ ∨
      ∃ vb, _ ∧ (if vs < s.vtcmPoolSize then _ else _ : Exec (Option ℕ)) _ = _
    by_cases hsize : vs < s.vtcmPoolSize
    · rw [if_pos hsize]
      exact .inl rfl
    · rw [if_neg hsize]
      split
      · exact .inl rfl
      · exact .inr ⟨_, ⟨s.tick, first, vs, pc, hlay, UInt32.not_lt.mp hsize, rfl⟩, rfl⟩

theorem vtcmPoolEnsure_apply (env : Env) (s : ExecState) :
    (∃ ready n, vtcmPoolEnsure env s = (.ok none, { s with engineReady := ready, tick := n })) ∨
      ∃ vb ready n, (s.vtcmPool = some vb ∨ s.vtcmPool = none ∧ Laid env s.vtcmPoolSize vb) ∧
        vtcmPoolEnsure env s =
          (.ok (some vb), { s with engineReady := ready, vtcmPool := some vb, tick := n }) := by
  cases hpool : s.vtcmPool with
  | some vb =>
    have hread : (read (·.vtcmPool) : Exec (Option ℕ)) s = (.ok (some vb), s) := by
      rw [← hpool]
      rfl
    have hret : vtcmPoolEnsure env s = (.ok (some vb), s) := by
      unfold vtcmPoolEnsure
      rw [bind_apply_ok hread]
      rfl
    refine .inr ⟨vb, s.engineReady, s.tick, .inl rfl, hret.trans ?_⟩
    rw [← hpool]
  | none =>
    obtain ⟨ok, ready, n, hens⟩ := wtcacheEnsure_apply env s
    have hstep : vtcmPoolEnsure env s =
        (if ok then vtcmPoolLay env else pure none : Exec (Option ℕ))
          { s with engineReady := ready, tick := n } := by
      have hread : (read (·.vtcmPool) : Exec (Option ℕ)) s = (.ok none, s) := by
        rw [← hpool]
        rfl
      unfold vtcmPoolEnsure
      rw [bind_apply_ok hread]
      exact bind_apply_ok hens
    cases ok with
    | false => exact .inl ⟨ready, n, hstep.trans (by rw [← hpool]; rfl)⟩
    | true =>
      rcases vtcmPoolLay_apply env { s with engineReady := ready, tick := n } with
        hlay | ⟨vb, hlaid, hlay⟩
      · exact .inl ⟨ready, n + 1, hstep.trans (hlay.trans (by rw [← hpool]))⟩
      · exact .inr ⟨vb, ready, n + 1, .inr ⟨rfl, hlaid⟩, hstep.trans hlay⟩

/-- What `temp_get` does while a table is loaded: nothing, or one of the three places that a temp
can get, or a temp stays where it is. -/
inductive Got (env : Env) (base : ℕ) (id bytes : UInt32) (s : ExecState) :
    Option ℕ → ExecState → Prop where
  | none (ready : Bool) (n : ℕ) :
    Got env base id bytes s none { s with engineReady := ready, tick := n }
  | vtcm (vb : ℕ) (ready : Bool) (n : ℕ) (hoff : s.vtcmOffArr id.toNat ≠ noOffset)
    (hfit : s.vtcmOffArr id.toNat + bytes ≤ s.vtcmPoolSize)
    (hvp : s.vtcmPool = some vb ∨ s.vtcmPool = Option.none ∧ Laid env s.vtcmPoolSize vb) :
    Got env base id bytes s (some (vb + (s.vtcmOffArr id.toNat).toNat))
      (placed { s with engineReady := ready, vtcmPool := some vb, tick := n } id.toNat
        (vb + (s.vtcmOffArr id.toNat).toNat) bytes)
  | table (hnv : s.vtcmOffArr id.toNat = noOffset) (hoff : s.staticOffArr id.toNat ≠ noOffset)
    (hfit : s.staticOffArr id.toNat + bytes ≤ s.poolUsed) :
    Got env base id bytes s (some (base + (s.staticOffArr id.toNat).toNat))
      (placed s id.toNat (base + (s.staticOffArr id.toNat).toNat) bytes)
  | bump (hnv : s.vtcmOffArr id.toNat = noOffset) (hns : s.staticOffArr id.toNat = noOffset)
    (hroom : s.poolUsed + aligned bytes ≤ s.poolCap) :
    Got env base id bytes s (some (base + s.poolUsed.toNat))
      { placed s id.toNat (base + s.poolUsed.toNat) bytes with
        poolUsed := s.poolUsed + aligned bytes }
  | kept (a : ℕ) (hnv : s.vtcmOffArr id.toNat = noOffset)
    (hns : s.staticOffArr id.toNat = noOffset) (hcur : s.temps id.toNat = some a)
    (hle : bytes ≤ s.tempBytes id.toNat) :
    Got env base id bytes s (some a)
      { s with lastBytes := Function.update s.lastBytes id.toNat bytes }

theorem tempGetVtcm_got (env : Env) (base : ℕ) {s : ExecState} (hid : id.toNat < maxTemps)
    (hoff : s.vtcmOffArr id.toNat ≠ noOffset) :
    ∃ v s', tempGetVtcm env id.toNat (s.vtcmOffArr id.toNat) bytes s = (.ok v, s') ∧
      Got env base id bytes s v s' := by
  show ∃ v s', (if s.vtcmPoolSize < s.vtcmOffArr id.toNat + bytes then _ else _ : Exec (Option ℕ))
    s = (.ok v, s') ∧ _
  split
  · exact ⟨none, s, rfl, .none s.engineReady s.tick⟩
  · rename_i hfit
    rcases vtcmPoolEnsure_apply env s with ⟨ready, n, hens⟩ | ⟨vb, ready, n, hvp, hens⟩
    · rw [bind_apply_ok hens]
      exact ⟨none, _, rfl, .none ready n⟩
    · rw [bind_apply_ok hens]
      exact ⟨_, _, placeTemp_apply hid _ _ _, .vtcm vb ready n hoff (UInt32.not_lt.mp hfit) hvp⟩

theorem growPool_apply {s : ExecState} (hmode : s.staticOffsets = true) (n : UInt32) :
    growPool env n s = (.ok (decide (s.poolUsed + n ≤ s.poolCap)), s) := by
  show (if s.poolCap < s.poolUsed + n then if s.staticOffsets then pure false else _
    else pure true : Exec Bool) s = _
  by_cases hfull : s.poolCap < s.poolUsed + n
  · rw [if_pos hfull, hmode, decide_eq_false (UInt32.not_le.mpr hfull)]
    rfl
  · rw [if_neg hfull, decide_eq_true (UInt32.not_lt.mp hfull)]
    rfl

theorem tempBump_got (env : Env) {base : ℕ} {s : ExecState} (hmode : s.staticOffsets = true)
    (hpool : s.pool = some base) (hid : id.toNat < maxTemps)
    (hnv : s.vtcmOffArr id.toNat = noOffset) (hns : s.staticOffArr id.toNat = noOffset) :
    ∃ v s', tempBump env id.toNat bytes s = (.ok v, s') ∧ Got env base id bytes s v s' := by
  unfold tempBump
  rw [bind_apply_ok (tempEntry_apply _ hid s), bind_apply_ok (tempEntry_apply _ hid s)]
  by_cases hnew : s.temps id.toNat = none ∨ s.tempBytes id.toNat < bytes
  · rw [if_pos hnew, bind_apply_ok (growPool_apply hmode ((bytes + 127) &&& ~~~127))]
    by_cases hroom : s.poolUsed + aligned bytes ≤ s.poolCap
    · rw [decide_eq_true (show s.poolUsed + ((bytes + 127) &&& ~~~127) ≤ s.poolCap from hroom)]
      refine ⟨some (base + s.poolUsed.toNat), _, ?_, .bump hnv hns hroom⟩
      show tempEntry _ id.toNat _ = _
      rw [tempEntry_apply _ hid]
      simp [placed, aligned, hpool]
    · rw [decide_eq_false (show ¬ s.poolUsed + ((bytes + 127) &&& ~~~127) ≤ s.poolCap from hroom)]
      exact ⟨none, s, rfl, .none s.engineReady s.tick⟩
  · rw [if_neg hnew]
    rw [not_or, UInt32.not_lt] at hnew
    obtain ⟨a, ha⟩ := Option.ne_none_iff_exists'.mp hnew.1
    refine ⟨some a, _, ?_, .kept a hnv hns ha hnew.2⟩
    rw [ha]
    rfl

theorem tempGet_got (env : Env) {base : ℕ} (id bytes : UInt32) {s : ExecState}
    (hmode : s.staticOffsets = true) (hpool : s.pool = some base) :
    ∃ v s', tempGet env id bytes s = (.ok v, s') ∧ Got env base id bytes s v s' := by
  unfold tempGet
  split
  · exact ⟨none, s, rfl, .none s.engineReady s.tick⟩
  · rename_i hid
    rw [not_le] at hid
    rw [bind_apply_ok (tempEntry_apply _ hid s)]
    by_cases hoff : s.vtcmOffArr id.toNat ≠ noOffset
    · rw [if_pos hoff]
      exact tempGetVtcm_got env base hid hoff
    · rw [if_neg hoff]
      rw [not_not] at hoff
      have hread : (read fun s => (s.staticOffsets, s.pool) : Exec (Bool × Option ℕ)) s =
          (.ok (true, some base), s) := by
        rw [← hmode, ← hpool]
        rfl
      unfold tempGetDdr
      rw [bind_apply_ok hread]
      show ∃ v s', (tempEntry (·.staticOffArr) id.toNat >>= _ : Exec (Option ℕ)) s = _ ∧ _
      rw [bind_apply_ok (tempEntry_apply _ hid s)]
      by_cases hsoff : s.staticOffArr id.toNat ≠ noOffset
      · rw [if_pos hsoff]
        show ∃ v s', (if s.poolUsed < s.staticOffArr id.toNat + bytes then _ else _ :
          Exec (Option ℕ)) s = (.ok v, s') ∧ _
        split
        · exact ⟨none, s, rfl, .none s.engineReady s.tick⟩
        · rename_i hfit
          exact ⟨_, _, placeTemp_apply hid _ _ _, .table hoff hsoff (UInt32.not_lt.mp hfit)⟩
      · rw [if_neg hsoff]
        rw [not_not] at hsoff
        exact tempBump_got env hmode hpool hid hoff hsoff

theorem got_of_eq {base : ℕ} {s : ExecState} {v : Option ℕ} (hmode : s.staticOffsets = true)
    (hpool : s.pool = some base) (h : tempGet env id bytes s = (.ok v, s')) :
    Got env base id bytes s v s' := by
  obtain ⟨v', t, heq, hgot⟩ := tempGet_got env id bytes hmode hpool
  rw [h] at heq
  obtain ⟨hv, rfl⟩ := Prod.mk.inj heq
  obtain rfl := Except.ok.inj hv
  exact hgot

/-! ### The device state -/

/-- The offset of a place in the DDR pool. -/
def ddrOffset (p : Option TempPlace) : Option UInt32 :=
  p.bind fun p => if p.inVtcm then none else some (UInt32.ofNat p.offset)

/-- The offset of a place in the VTCM pool. -/
def vtcmOffset (p : Option TempPlace) : Option UInt32 :=
  p.bind fun p => if p.inVtcm then some (UInt32.ofNat p.offset) else none

/-- The places lie in their pools. -/
def TabOk (tab : ℕ → Option TempPlace) (cap : ℕ) : Prop :=
  ∀ t p, tab t = some p → p.offset + p.size ≤ if p.inVtcm then 2 ^ 26 else cap

/-- The bytes of a temp from its address on. -/
def tempSpan (s : ExecState) (t a : ℕ) : Span := ⟨a, a + (s.lastBytes t).toNat⟩

/-- What holds of the device between two ops: the arrays are the table, and a temp that has
an address is at its place in the table or, without one, above the static area. -/
structure DevInv (tab : ℕ → Option TempPlace) (base cap : ℕ) (s : ExecState) : Prop where
  mode : s.staticOffsets = true
  pool : s.pool = some base
  cap_le : cap ≤ s.poolUsed.toNat
  poolCap_le : s.poolCap.toNat ≤ 2 ^ 31 + 2 ^ 26
  used_le : s.poolUsed.toNat ≤ s.poolCap.toNat
  staticArr : ∀ t, s.staticOffArr t = (ddrOffset (tab t)).getD noOffset
  vtcmArr : ∀ t, s.vtcmOffArr t = (vtcmOffset (tab t)).getD noOffset
  inTab : ∀ t p a, tab t = some p → s.temps t = some a → (s.lastBytes t).toNat ≤ p.size ∧
    if p.inVtcm then ∃ vb, s.vtcmPool = some vb ∧ a = vb + p.offset else a = base + p.offset
  bump : ∀ t a, tab t = none → s.temps t = some a →
    base + cap ≤ a ∧ a + (s.tempBytes t).toNat ≤ base + s.poolUsed.toNat ∧
      s.lastBytes t ≤ s.tempBytes t
  apart : ∀ t t' a a', t ≠ t' → tab t = none → tab t' = none → s.temps t = some a →
    s.temps t' = some a' → a + (s.tempBytes t).toNat ≤ a' ∨ a' + (s.tempBytes t').toNat ≤ a

theorem toNat_and_not_127 (x : UInt32) : (x &&& ~~~127).toNat = x.toNat / 128 * 128 := by
  rw [UInt32.toNat_and]
  exact and_high_bits x.toNat_lt (show 7 ≤ 32 by decide)

theorem aligned_spec (h : bytes.toNat + 127 < 2 ^ 32) :
    bytes.toNat ≤ (aligned bytes).toNat ∧ (aligned bytes).toNat ≤ bytes.toNat + 127 := by
  unfold aligned
  have hadd : (bytes + 127).toNat = bytes.toNat + 127 := by
    rw [UInt32.toNat_add]
    exact Nat.mod_eq_of_lt h
  rw [toNat_and_not_127, hadd]
  omega

section Steps

variable {tab : ℕ → Option TempPlace} {base cap : ℕ} {s : ExecState}

theorem DevInv.placed (h : DevInv tab base cap s) (hp : tab t = some p)
    (hbytes : bytes.toNat ≤ p.size) {ready : Bool} {n : ℕ} {vp : Option ℕ}
    (hvp : s.vtcmPool = none ∨ s.vtcmPool = vp)
    (ha : if p.inVtcm then ∃ vb, vp = some vb ∧ a = vb + p.offset else a = base + p.offset) :
    DevInv tab base cap
      (placed { s with engineReady := ready, vtcmPool := vp, tick := n } t a bytes) := by
  have hne : ∀ t', tab t' = none → t' ≠ t := by
    rintro t' ht' rfl
    rw [hp] at ht'
    cases ht'
  constructor
  · exact h.mode
  · exact h.pool
  · exact h.cap_le
  · exact h.poolCap_le
  · exact h.used_le
  · exact h.staticArr
  · exact h.vtcmArr
  · intro t' p' a' hp' ha'
    by_cases ht : t' = t
    · subst ht
      obtain rfl : p = p' := Option.some.inj (hp.symm.trans hp')
      simp only [TempDisjoint.placed, Function.update_self, Option.some.injEq] at ha' ⊢
      subst ha'
      exact ⟨hbytes, ha⟩
    · simp only [TempDisjoint.placed, Function.update_of_ne ht] at ha' ⊢
      obtain ⟨hlast, hold⟩ := h.inTab t' p' a' hp' ha'
      refine ⟨hlast, ?_⟩
      split
      · rename_i hv
        rw [if_pos hv] at hold
        obtain ⟨vb, hvb, haddr⟩ := hold
        rcases hvp with hnone | hsame
        · rw [hnone] at hvb
          cases hvb
        · exact ⟨vb, hsame.symm.trans hvb, haddr⟩
      · rename_i hv
        rw [if_neg hv] at hold
        exact hold
  · intro t' a' ht' ha'
    simp only [TempDisjoint.placed, Function.update_of_ne (hne t' ht')] at ha' ⊢
    exact h.bump t' a' ht' ha'
  · intro t₁ t₂ a₁ a₂ h12 h1 h2 ha₁ ha₂
    simp only [TempDisjoint.placed, Function.update_of_ne (hne t₁ h1),
      Function.update_of_ne (hne t₂ h2)] at ha₁ ha₂ ⊢
    exact h.apart t₁ t₂ a₁ a₂ h12 h1 h2 ha₁ ha₂

theorem DevInv.bumped (h : DevInv tab base cap s) (ht : tab t = none)
    (hbytes : bytes.toNat + 127 + 2 ^ 31 + 2 ^ 26 < 2 ^ 32)
    (hroom : s.poolUsed + aligned bytes ≤ s.poolCap) :
    DevInv tab base cap { TempDisjoint.placed s t (base + s.poolUsed.toNat) bytes with
      poolUsed := s.poolUsed + aligned bytes } := by
  have hne : ∀ t' p, tab t' = some p → t' ≠ t := by
    rintro t' p ht' rfl
    rw [ht] at ht'
    cases ht'
  obtain ⟨hlo, hhi⟩ : bytes.toNat ≤ (aligned bytes).toNat ∧
      (aligned bytes).toNat ≤ bytes.toNat + 127 := aligned_spec (by omega)
  have hpool := h.poolCap_le
  have hused := h.used_le
  have hcap := h.cap_le
  have hsum : (s.poolUsed + aligned bytes).toNat = s.poolUsed.toNat + (aligned bytes).toNat := by
    rw [UInt32.toNat_add]
    exact Nat.mod_eq_of_lt (by omega)
  constructor
  · exact h.mode
  · exact h.pool
  · show cap ≤ (s.poolUsed + aligned bytes).toNat
    omega
  · exact hpool
  · exact UInt32.le_iff_toNat_le.mp hroom
  · exact h.staticArr
  · exact h.vtcmArr
  · intro t' p a hp ha
    simp only [TempDisjoint.placed, Function.update_of_ne (hne t' p hp)] at ha ⊢
    exact h.inTab t' p a hp ha
  · intro t' a ht' ha
    by_cases heq : t' = t
    · subst heq
      simp only [TempDisjoint.placed, Function.update_self, Option.some.injEq] at ha ⊢
      subst ha
      rw [hsum]
      exact ⟨by omega, by omega, UInt32.le_refl _⟩
    · simp only [TempDisjoint.placed, Function.update_of_ne heq] at ha ⊢
      obtain ⟨h1, h2, h3⟩ := h.bump t' a ht' ha
      rw [hsum]
      exact ⟨h1, by omega, h3⟩
  · intro t₁ t₂ a₁ a₂ h12 h1 h2 ha₁ ha₂
    -- an old temp ends below the bytes that were used
    have hold : ∀ t' a, tab t' = none → s.temps t' = some a →
        a + (s.tempBytes t').toNat ≤ base + s.poolUsed.toNat :=
      fun t' a ht' ha => (h.bump t' a ht' ha).2.1
    by_cases e₁ : t₁ = t
    · subst e₁
      have e₂ : t₂ ≠ t₁ := Ne.symm h12
      simp only [TempDisjoint.placed, Function.update_self, Function.update_of_ne e₂,
        Option.some.injEq] at ha₁ ha₂ ⊢
      subst ha₁
      exact .inr (hold t₂ a₂ h2 ha₂)
    · by_cases e₂ : t₂ = t
      · subst e₂
        simp only [TempDisjoint.placed, Function.update_self, Function.update_of_ne e₁,
          Option.some.injEq] at ha₁ ha₂ ⊢
        subst ha₂
        exact .inl (hold t₁ a₁ h1 ha₁)
      · simp only [TempDisjoint.placed, Function.update_of_ne e₁,
          Function.update_of_ne e₂] at ha₁ ha₂ ⊢
        exact h.apart t₁ t₂ a₁ a₂ h12 h1 h2 ha₁ ha₂

theorem DevInv.kept (h : DevInv tab base cap s) (ht : tab t = none)
    (hbytes : bytes ≤ s.tempBytes t) :
    DevInv tab base cap { s with lastBytes := Function.update s.lastBytes t bytes } := by
  refine { h with inTab := ?_, bump := ?_ }
  · intro t' p a hp ha
    have hne : t' ≠ t := by
      rintro rfl
      rw [ht] at hp
      cases hp
    simp only [Function.update_of_ne hne]
    exact h.inTab t' p a hp ha
  · intro t' a ht' ha
    obtain ⟨h1, h2, h3⟩ := h.bump t' a ht' ha
    refine ⟨h1, h2, ?_⟩
    by_cases heq : t' = t
    · subst heq
      simpa using hbytes
    · simpa [Function.update_of_ne heq] using h3

theorem TabOk.offset (h : TabOk tab cap) (hcap : cap ≤ 2 ^ 31) (hp : tab t = some p) :
    (UInt32.ofNat p.offset).toNat = p.offset ∧ UInt32.ofNat p.offset ≠ noOffset := by
  have hle := h t p hp
  have hlt : p.offset ≤ 2 ^ 31 := by
    split at hle <;> omega
  have hval : (UInt32.ofNat p.offset).toNat = p.offset := UInt32.toNat_ofNat_of_lt' (by
    change p.offset < 4294967296
    omega)
  refine ⟨hval, fun heq => ?_⟩
  rw [heq] at hval
  have : noOffset.toNat = 4294967295 := rfl
  omega

theorem DevInv.tab_eq_none (h : DevInv tab base cap s) (htab : TabOk tab cap)
    (hcap : cap ≤ 2 ^ 31) (hv : s.vtcmOffArr t = noOffset) (hs : s.staticOffArr t = noOffset) :
    tab t = none := by
  cases hp : tab t with
  | none => rfl
  | some p =>
    have hne := (htab.offset hcap hp).2
    rw [h.vtcmArr t, hp] at hv
    rw [h.staticArr t, hp] at hs
    cases hin : p.inVtcm with
    | true => exact absurd (by simpa [vtcmOffset, hin] using hv) hne
    | false => exact absurd (by simpa [ddrOffset, hin] using hs) hne

theorem DevInv.tempGet (h : DevInv tab base cap s) (htab : TabOk tab cap) (hcap : cap ≤ 2 ^ 31)
    (hbytes : bytes.toNat + 127 + 2 ^ 31 + 2 ^ 26 < 2 ^ 32)
    (hfit : ∀ p, tab id.toNat = some p → bytes.toNat ≤ p.size)
    (hrun : tempGet env id bytes s = (.ok (some a), s')) :
    DevInv tab base cap s' ∧ (s'.temps id.toNat).isSome ∧
      ∀ t, (s.temps t).isSome → (s'.temps t).isSome := by
  have hset : ∀ (f : ℕ → Option ℕ) (t : ℕ), (f t).isSome →
      (Function.update f id.toNat (some a) t).isSome := by
    intro f t ht
    by_cases heq : t = id.toNat
    · simp [heq]
    · simpa [Function.update_of_ne heq] using ht
  have hself : (Function.update s.temps id.toNat (some a) id.toNat).isSome := by simp
  have hv := h.vtcmArr id.toNat
  have hs := h.staticArr id.toNat
  cases got_of_eq h.mode h.pool hrun with
  | vtcm vb ready n hoff hfit' hvp =>
    cases hp : tab id.toNat with
    | none => simp [hp, vtcmOffset] at hv; exact absurd hv hoff
    | some p =>
      cases hin : p.inVtcm with
      | false => simp [hp, vtcmOffset, hin] at hv; exact absurd hv hoff
      | true =>
        simp only [hp, vtcmOffset, hin, Option.bind_some, if_true, Option.getD_some] at hv
        have hvp' : s.vtcmPool = none ∨ s.vtcmPool = some vb := hvp.symm.imp_left And.left
        refine ⟨h.placed hp (hfit p hp) hvp' ?_, hself, fun t ht => hset _ t ht⟩
        rw [if_pos hin, hv, (htab.offset hcap hp).1]
        exact ⟨vb, rfl, rfl⟩
  | table hnv hoff hfit' =>
    cases hp : tab id.toNat with
    | none => simp [hp, ddrOffset] at hs; exact absurd hs hoff
    | some p =>
      cases hin : p.inVtcm with
      | true => simp [hp, ddrOffset, hin] at hs; exact absurd hs hoff
      | false =>
        simp only [hp, ddrOffset, hin, Option.bind_some] at hs
        refine ⟨h.placed hp (hfit p hp) (.inr rfl) ?_, hself, fun t ht => hset _ t ht⟩
        rw [if_neg (by simp [hin]), hs]
        simp [(htab.offset hcap hp).1]
  | bump hnv hns hroom =>
    have ht := h.tab_eq_none htab hcap hnv hns
    exact ⟨h.bumped ht hbytes hroom, hself, fun t ht => hset _ t ht⟩
  | kept _ hnv hns hcur hle =>
    have ht := h.tab_eq_none htab hcap hnv hns
    refine ⟨h.kept ht hle, ?_, fun t ht => ht⟩
    show (s.temps id.toNat).isSome
    rw [hcur]
    rfl

end Steps

/-! ### The table is read back -/

theorem toNat_and_mask (h : t < 2 ^ 14) (v : Bool) :
    ((if v then UInt32.ofNat t ||| 0x4000 else UInt32.ofNat t) &&& 0x3FFF).toNat = t ∧
      ((if v then UInt32.ofNat t ||| 0x4000 else UInt32.ofNat t) &&& 0x4000 ≠ 0 ↔ v = true) := by
  have hval : (UInt32.ofNat t).toNat = t := UInt32.toNat_ofNat_of_lt' (by
    change t < 4294967296
    omega)
  have hlow : t &&& 16383 = t := by
    rw [show (16383 : ℕ) = 2 ^ 14 - 1 from rfl, Nat.and_two_pow_sub_one_eq_mod,
      Nat.mod_eq_of_lt h]
  have hhigh : t &&& 16384 = 0 := by
    rw [show (16384 : ℕ) = 2 ^ 14 from rfl, Nat.and_two_pow, Nat.testBit_lt_two_pow h]
    rfl
  have hzero : ∀ x : UInt32, x ≠ 0 ↔ x.toNat ≠ 0 := fun x => by
    rw [not_iff_not, ← UInt32.toNat_inj]
    rfl
  cases v with
  | true =>
    simp only [if_true, hzero, UInt32.toNat_and, UInt32.toNat_or, hval]
    refine ⟨?_, ?_⟩
    · rw [Nat.and_or_distrib_right, show (0x3FFF : UInt32).toNat = 16383 from rfl, hlow]
      simp
    · rw [Nat.and_or_distrib_right, show (0x4000 : UInt32).toNat = 16384 from rfl, hhigh]
      simp
  | false =>
    simp only [Bool.false_eq_true, if_false, hzero, UInt32.toNat_and, hval]
    refine ⟨hlow, ?_⟩
    rw [show (0x4000 : UInt32).toNat = 16384 from rfl, hhigh]
    simp

theorem loadEntry_spec {cap vtcmCap : UInt32} (ht : t < 2 ^ 14) {s : ExecState}
    (h : loadEntry cap vtcmCap (tempoffEntry t p) s = (.ok (), s')) :
    (∃ sa va, s' = { s with staticOffArr := sa, vtcmOffArr := va } ∧
      (∀ u, sa u = if u = t then (ddrOffset (some p)).getD (s.staticOffArr u)
        else s.staticOffArr u) ∧
      ∀ u, va u = if u = t then (vtcmOffset (some p)).getD (s.vtcmOffArr u)
        else s.vtcmOffArr u) ∧
    UInt32.ofNat p.offset + UInt32.ofNat p.size ≤ if p.inVtcm then vtcmCap else cap := by
  obtain ⟨hid, hflag⟩ := toNat_and_mask ht p.inVtcm
  unfold loadEntry at h
  simp only [tempoffEntry, hid, ne_eq] at h
  split at h
  · cases h
  · cases hv : p.inVtcm with
    | true =>
      rw [if_pos (hflag.mpr hv)] at h
      split at h
      · cases h
      · rename_i hcap
        rw [not_or, UInt32.not_lt] at hcap
        obtain ⟨-, rfl⟩ := Prod.mk.inj h
        refine ⟨⟨_, _, rfl, fun u => ?_, fun u => ?_⟩, hcap.2⟩
        · simp [ddrOffset, hv]
        · by_cases hu : u = t <;> simp [hu, vtcmOffset, hv]
    | false =>
      rw [if_neg (fun hf => by simp [hflag.mp hf] at hv)] at h
      split at h
      · cases h
      · rename_i hcap
        rw [UInt32.not_lt] at hcap
        obtain ⟨-, rfl⟩ := Prod.mk.inj h
        refine ⟨⟨_, _, rfl, fun u => ?_, fun u => ?_⟩, hcap⟩
        · by_cases hu : u = t <;> simp [hu, ddrOffset, hv]
        · simp [vtcmOffset, hv]

theorem loadEntries_spec {tab : ℕ → Option TempPlace} {cap vtcmCap : UInt32} {ids : List ℕ}
    (hnd : ids.Nodup) (hlt : ∀ t ∈ ids, t < 2 ^ 14) {s : ExecState}
    (h : loadEntries cap vtcmCap (ids.filterMap fun t => (tab t).map (tempoffEntry t)) s =
      (.ok (), s')) :
    (∃ sa va, s' = { s with staticOffArr := sa, vtcmOffArr := va } ∧
      (∀ t, sa t = if t ∈ ids then (ddrOffset (tab t)).getD (s.staticOffArr t)
        else s.staticOffArr t) ∧
      ∀ t, va t = if t ∈ ids then (vtcmOffset (tab t)).getD (s.vtcmOffArr t)
        else s.vtcmOffArr t) ∧
    ∀ t ∈ ids, ∀ p, tab t = some p →
      UInt32.ofNat p.offset + UInt32.ofNat p.size ≤ if p.inVtcm then vtcmCap else cap := by
  induction ids generalizing s with
  | nil =>
    obtain ⟨-, rfl⟩ := Prod.mk.inj h
    exact ⟨⟨s.staticOffArr, s.vtcmOffArr, rfl, by simp, by simp⟩, by simp⟩
  | cons t ids ih =>
    obtain ⟨hmem, hnd⟩ := List.nodup_cons.mp hnd
    have hlt' : ∀ u ∈ ids, u < 2 ^ 14 := fun u hu => hlt u (by simp [hu])
    cases hp : tab t with
    | none =>
      simp only [List.filterMap_cons, hp, Option.map_none] at h
      obtain ⟨⟨sa, va, rfl, hsa, hva⟩, hin⟩ := ih hnd hlt' h
      refine ⟨⟨sa, va, rfl, fun u => ?_, fun u => ?_⟩, fun u hu => ?_⟩
      · rw [hsa u]
        by_cases hu : u = t
        · simp [hu, hmem, hp, ddrOffset]
        · simp [hu]
      · rw [hva u]
        by_cases hu : u = t
        · simp [hu, hmem, hp, vtcmOffset]
        · simp [hu]
      · rcases List.mem_cons.mp hu with rfl | hu
        · simp [hp]
        · exact hin u hu
    | some p =>
      simp only [List.filterMap_cons, hp, Option.map_some] at h
      obtain ⟨_, mid, hentry, h⟩ := bind_eq_ok h
      obtain ⟨⟨sa₁, va₁, rfl, hsa₁, hva₁⟩, hcap⟩ := loadEntry_spec (hlt t (by simp)) hentry
      obtain ⟨⟨sa, va, rfl, hsa, hva⟩, hin⟩ := ih hnd hlt' h
      refine ⟨⟨sa, va, rfl, fun u => ?_, fun u => ?_⟩, fun u hu => ?_⟩
      · rw [hsa u]
        simp only [hsa₁]
        by_cases hu : u = t
        · simp [hu, hmem, hp]
        · simp [hu]
      · rw [hva u]
        simp only [hva₁]
        by_cases hu : u = t
        · simp [hu, hmem, hp]
        · simp [hu]
      · rcases List.mem_cons.mp hu with rfl | hu
        · intro q hq
          obtain rfl := Option.some.inj (hp.symm.trans hq)
          exact hcap
        · exact hin u hu

theorem toNat_kib_le (x : UInt32) (h : x.toNat < 2 ^ 16) : (x * 1024).toNat < 2 ^ 26 := by
  have hmul : (x * 1024).toNat = x.toNat * 1024 := by
    rw [UInt32.toNat_mul]
    exact Nat.mod_eq_of_lt (by
      change x.toNat * 1024 < 2 ^ 32
      omega)
  omega

theorem loadTempoff_inv {cfg : EmitConfig} {em : Emitter} {s : ExecState}
    (hcap : cfg.plan.cap < 2 ^ 32) (hvtcm : cfg.plan.vtcmCap < 2 ^ 32)
    (hnext : em.desk.next ≤ 2 ^ 14) (hnone : ∀ t, em.desk.next ≤ t → em.tempTab t = none)
    (hinside : ∀ t p, em.tempTab t = some p →
      p.offset + p.size ≤ if p.inVtcm then cfg.plan.vtcmCap else cfg.plan.cap)
    (hcold : s.staticOffsets = false) (htemps : ∀ t, s.temps t = none)
    (h : loadTempoff env (tempoffTable cfg em) s = (.ok (), s')) :
    ∃ base, DevInv em.tempTab base cfg.plan.cap s' ∧ TabOk em.tempTab cfg.plan.cap ∧
      cfg.plan.cap ≤ 2 ^ 31 := by
  have hempty : ∀ t a, ¬ s.temps t = some a := fun t a ha => by simp [htemps t] at ha
  obtain ⟨loaded, t, hread, h⟩ := bind_eq_ok h
  obtain ⟨h1, rfl⟩ := Prod.mk.inj hread
  have hloaded : loaded = false := (Except.ok.inj h1).symm.trans hcold
  subst hloaded
  rw [if_neg (by simp)] at h
  obtain ⟨_, t, hclear, h⟩ := bind_eq_ok h
  obtain ⟨-, rfl⟩ := Prod.mk.inj hclear
  split at h
  · cases h
  · rename_i hbad
    rw [not_or, UInt32.not_lt, UInt32.le_iff_toNat_le] at hbad
    have hcapval : (tempoffTable cfg em).cap.toNat = cfg.plan.cap :=
      UInt32.toNat_ofNat_of_lt' hcap
    have hcap31 : cfg.plan.cap ≤ 2 ^ 31 := by
      rw [← hcapval]
      exact hbad.2
    obtain ⟨pool, t, hask, h⟩ := bind_eq_ok h
    obtain ⟨-, rfl⟩ := ask_eq_ok hask
    cases pool with
    | none => cases h
    | some base =>
      obtain ⟨_, t, hentries, h⟩ := bind_eq_ok h
      obtain ⟨-, rfl⟩ := Prod.mk.inj h
      obtain ⟨⟨sa, va, rfl, hsa, hva⟩, hfit⟩ := loadEntries_spec List.nodup_range
        (fun t ht => (List.mem_range.mp ht).trans_le hnext) hentries
      have hlow : ((tempoffTable cfg em).reserve &&& 0xFFFF).toNat < 2 ^ 16 := by
        rw [UInt32.toNat_and]
        exact Nat.and_lt_two_pow _ (by decide)
      have hhigh : ((tempoffTable cfg em).reserve >>> 16).toNat < 2 ^ 16 := by
        rw [UInt32.toNat_shiftRight]
        have := (tempoffTable cfg em).reserve.toNat_lt
        change (tempoffTable cfg em).reserve.toNat >>> 16 < 2 ^ 16
        rw [Nat.shiftRight_eq_div_pow]
        omega
      have hres := toNat_kib_le _ hlow
      have hvcap := toNat_kib_le _ hhigh
      have hsum : ((tempoffTable cfg em).cap +
          ((tempoffTable cfg em).reserve &&& 0xFFFF) * 1024).toNat =
          cfg.plan.cap + (((tempoffTable cfg em).reserve &&& 0xFFFF) * 1024).toNat := by
        rw [UInt32.toNat_add, hcapval]
        exact Nat.mod_eq_of_lt (by omega)
      refine ⟨base, ?_, ?_, hcap31⟩
      · constructor
        · rfl
        · rfl
        · show cfg.plan.cap ≤ UInt32.toNat (if _ then _ else _)
          rw [if_pos hbad.1, hcapval]
        · show UInt32.toNat (_ + _) ≤ _
          rw [hsum]
          omega
        · show UInt32.toNat (if _ then _ else _) ≤ UInt32.toNat (_ + _)
          rw [if_pos hbad.1, hsum, hcapval]
          omega
        · intro t
          show sa t = _
          rw [hsa t]
          split
          · rfl
          · rename_i ht
            rw [List.mem_range, not_lt] at ht
            simp [hnone t ht, ddrOffset, clearOffsets]
        · intro t
          show va t = _
          rw [hva t]
          split
          · rfl
          · rename_i ht
            rw [List.mem_range, not_lt] at ht
            simp [hnone t ht, vtcmOffset, clearOffsets]
        · exact fun t p a _ ha => absurd ha (hempty t a)
        · exact fun t a _ ha => absurd ha (hempty t a)
        · exact fun t t' a a' _ _ _ ha => absurd ha (hempty t a)
      · -- the check of the device bounds a place in VTCM, and the plan excludes a wrap
        intro t p hp
        have hin := hinside t p hp
        split at hin
        · rename_i hv
          rw [if_pos hv]
          have hmem : t ∈ List.range em.desk.next := by
            rw [List.mem_range]
            by_contra hge
            rw [hnone t (not_lt.mp hge)] at hp
            cases hp
          have hle := hfit t hmem p hp
          rw [if_pos hv, UInt32.le_iff_toNat_le, UInt32.toNat_add,
            UInt32.toNat_ofNat_of_lt' (by change p.offset < 2 ^ 32; omega),
            UInt32.toNat_ofNat_of_lt' (by change p.size < 2 ^ 32; omega),
            Nat.mod_eq_of_lt (by omega)] at hle
          omega
        · rename_i hv
          rw [if_neg hv]
          exact hin

/-! ### The run -/

/-- The destination of a device op fits. -/
def DstOk (tab : ℕ → Option TempPlace) (op : DeviceOp) : Prop :=
  ∀ t bytes, op.dst = some (t, bytes) → t.1 < 2 ^ 14 ∧
    bytes + 127 + 2 ^ 31 + 2 ^ 26 < 2 ^ 32 ∧ ∀ p, tab t.1 = some p → bytes ≤ p.size

theorem runOp_inv {tab : ℕ → Option TempPlace} {base cap : ℕ} (htab : TabOk tab cap)
    (hcap : cap ≤ 2 ^ 31) (hop : DstOk tab op) {s : ExecState} (h : DevInv tab base cap s)
    (hrun : runOp env op s = (.ok (), s')) :
    DevInv tab base cap s' ∧ (∀ t bytes, op.dst = some (t, bytes) → (s'.temps t.1).isSome) ∧
      ∀ t, (s.temps t).isSome → (s'.temps t).isSome := by
  unfold runOp at hrun
  cases hdst : op.dst with
  | none =>
    rw [hdst] at hrun
    obtain ⟨-, rfl⟩ := Prod.mk.inj hrun
    exact ⟨h, by simp, fun t ht => ht⟩
  | some d =>
    obtain ⟨t, bytes⟩ := d
    rw [hdst] at hrun
    obtain ⟨hlt, hbytes, hfit⟩ := hop t bytes hdst
    obtain ⟨a, mid, hget, hrun⟩ := bind_eq_ok hrun
    cases a with
    | none => cases hrun
    | some a =>
      obtain ⟨-, rfl⟩ := Prod.mk.inj hrun
      have hid : (UInt32.ofNat t.1).toNat = t.1 :=
        UInt32.toNat_ofNat_of_lt' (by change t.1 < 2 ^ 32; omega)
      have hval : (UInt32.ofNat bytes).toNat = bytes :=
        UInt32.toNat_ofNat_of_lt' (by change bytes < 2 ^ 32; omega)
      obtain ⟨hinv, hself, hmono⟩ := h.tempGet htab hcap (by rw [hval]; exact hbytes)
        (by rw [hid, hval]; exact hfit) hget
      rw [hid] at hself
      refine ⟨hinv, fun t' bytes' heq => ?_, hmono⟩
      obtain ⟨rfl, -⟩ := Prod.mk.inj (Option.some.inj heq)
      exact hself

theorem runOps_inv {tab : ℕ → Option TempPlace} {base cap : ℕ} (htab : TabOk tab cap)
    (hcap : cap ≤ 2 ^ 31) (hops : ∀ op ∈ ops, DstOk tab op) {s : ExecState}
    (h : DevInv tab base cap s) (hrun : runOps env ops s = (.ok (), s')) :
    DevInv tab base cap s' ∧
      (∀ op ∈ ops, ∀ t bytes, op.dst = some (t, bytes) → (s'.temps t.1).isSome) ∧
      ∀ t, (s.temps t).isSome → (s'.temps t).isSome := by
  induction ops generalizing s with
  | nil =>
    obtain ⟨-, rfl⟩ := Prod.mk.inj hrun
    exact ⟨h, by simp, fun t ht => ht⟩
  | cons op ops ih =>
    obtain ⟨_, mid, hop, hrun⟩ := bind_eq_ok hrun
    obtain ⟨hinv, hdst, hmono⟩ := runOp_inv htab hcap (hops op (by simp)) h hop
    obtain ⟨hinv', hdst', hmono'⟩ := ih (fun o ho => hops o (by simp [ho])) hinv hrun
    refine ⟨hinv', fun o ho t bytes heq => ?_, fun t ht => hmono' t (hmono t ht)⟩
    rcases List.mem_cons.mp ho with rfl | ho
    · exact hmono' t.1 (hdst t bytes heq)
    · exact hdst' o ho t bytes heq

/-! ### Live values -/

/-- At point `i` the temp `t` holds the value of the output `k`, and a later op reads it. -/
def Holds (ops : List DeviceOp) (i t k : ℕ) : Prop :=
  (∃ w op bytes, w < i ∧ ops[w]? = some op ∧ op.dst = some ((t, k), bytes)) ∧
    ∃ r op, i ≤ r ∧ ops[r]? = some op ∧ (t, k) ∈ op.reads

/-- The graph, its plan and the emitter go together: the plan is the one of the execution
order, the order and the consumer lists are those of the graph, 32 bits are enough, writes
fit in the planned places, and an id that is handed out again keeps its place. -/
structure EmitOk (cfg : EmitConfig) (ordering : List ℕ) (budget vtcmBudget : ℕ) : Prop where
  planned : computeDdrOffsets cfg.g cfg.planOrder ordering budget vtcmBudget = .planned cfg.plan
  order_ne : cfg.planOrder ≠ []
  order_nodup : cfg.planOrder.Nodup
  sorted : violated cfg.g cfg.planOrder = false
  order_lt : cfg.planOrder.length < 2 ^ 32
  budget_lt : budget < 2 ^ 64
  bytes_lt : plannedBytes cfg.g cfg.planOrder < 2 ^ 64
  cap_lt : cfg.plan.cap < 2 ^ 32
  vtcmCap_lt : vtcmBudget < 2 ^ 32
  ids : IdsOk cfg.g
  consumers : ConsumersListed cfg.g
  alive : ∀ id ∈ cfg.planOrder, ∀ od, cfg.g.getOpAt id = some od →
    od.isEnabled = true ∧ od.isDead = false
  output : ∀ out, cfg.g.getOpAt cfg.outputNodeId = some out →
    out.isEnabled = true ∧ out.isDead = false
  output_last : ∀ p id od q, Emitted cfg p id od →
    cfg.planOrder[q]? = some cfg.outputNodeId → p ≤ q
  fits : WritesFit cfg
  reuses : ReusesOk cfg

section Live

variable {cfg : EmitConfig} {ordering : List ℕ} {budget vtcmBudget : ℕ} {em : Emitter}

theorem EmitOk.order_eq (h : EmitOk cfg ordering budget vtcmBudget) :
    cfg.order = cfg.planOrder := by
  have hemit : emitOrder cfg.g cfg.planOrder = cfg.planOrder := by
    simp [emitOrder, h.sorted]
  unfold EmitConfig.order
  rw [hemit]
  exact if_neg h.order_ne

theorem EmitOk.planOk (h : EmitOk cfg ordering budget vtcmBudget) :
    PlanOk cfg.g cfg.planOrder budget vtcmBudget cfg.plan := by
  obtain ⟨plan, hrun, hok⟩ := planRequests_ok (g := cfg.g) h.order_nodup h.budget_lt
    (h.vtcmCap_lt.trans (by decide)) h.order_lt h.bytes_lt
  have hplanned := h.planned
  unfold computeDdrOffsets execOrder at hplanned
  rw [if_neg h.order_ne, if_neg h.order_ne, hrun] at hplanned
  obtain rfl := PlanOutcome.planned.inj hplanned
  exact hok

theorem EmitOk.entry_of_place (h : EmitOk cfg ordering budget vtcmBudget)
    (hp : placeOfKey cfg k = some p) :
    k % 2 ^ 32 = 0 ∧ ∃ e ∈ cfg.plan.entries, e.opId = k / 2 ^ 32 ∧ p.offset = e.offset ∧
      p.size = e.size ∧ p.inVtcm = e.inVtcm := by
  unfold placeOfKey EmitConfig.usablePlace at hp
  split at hp
  · cases hp
  · rename_i q hq
    split at hp
    · rename_i hidx
      obtain rfl := Option.some.inj hp
      refine ⟨by simpa using hidx.1, ?_⟩
      obtain ⟨e, he, heq⟩ := List.mem_map.mp (mem_of_store hq)
      obtain ⟨hid, rfl⟩ := Prod.mk.inj heq
      have hin := h.planOk.inside e he
      have hcap := h.cap_lt
      have hvtcm := h.vtcmCap_lt
      rw [← h.planOk.caps.2] at hvtcm
      have hlt : e.offset + e.size < 2 ^ 32 := by
        split at hin <;> omega
      exact ⟨e, he, hid, Nat.mod_eq_of_lt (by omega), Nat.mod_eq_of_lt (by omega), rfl⟩
    · cases hp

theorem EmitOk.place_inside (h : EmitOk cfg ordering budget vtcmBudget)
    (hp : placeOfKey cfg k = some p) :
    p.offset + p.size ≤ if p.inVtcm then cfg.plan.vtcmCap else cfg.plan.cap := by
  obtain ⟨-, e, he, -, hoff, hsize, hv⟩ := h.entry_of_place hp
  rw [hoff, hsize, hv]
  exact h.planOk.inside e he

theorem EmitOk.place_colsKey (h : EmitOk cfg ordering budget vtcmBudget) :
    placeOfKey cfg colsKey = none := by
  cases hp : placeOfKey cfg colsKey with
  | none => rfl
  | some p =>
    obtain ⟨-, e, he, hid, -⟩ := h.entry_of_place hp
    have hmem : (e.opId, e.size) ∈ outputs cfg.g cfg.planOrder := by
      apply h.planOk.once.mem_iff.mp
      exact List.mem_append_left _ (List.mem_map.mpr ⟨e, he, rfl⟩)
    obtain ⟨id, -, hsome⟩ := List.mem_filterMap.mp hmem
    obtain ⟨od, hod, hel⟩ := Option.bind_eq_some_iff.mp hsome
    split at hel
    · obtain ⟨rfl, -⟩ := Prod.mk.inj (Option.some.inj hel)
      have hlt := (h.ids _ od hod).1
      rw [hid, colsKey, tkey_div] at hlt
      unfold colsId at hlt
      omega
    · cases hel

theorem outputReads_owned {u : ℕ × ℕ} (hu : u ∈ outputReads cfg em) :
    em.desk.own u.2 = some u.1 ∧ ∃ out c, cfg.g.getOpAt cfg.outputNodeId = some out ∧
      c ∈ out.inputs ∧ u.2 = tkey c.srcId c.outIdx := by
  unfold outputReads at hu
  split at hu
  · simp at hu
  · rename_i c hc
    obtain ⟨out, hout, hhead⟩ := Option.bind_eq_some_iff.mp hc
    split at hu
    · simp at hu
    · obtain ⟨hown, hkey⟩ := lookup_eq_some (Option.mem_toList.mp hu)
      exact ⟨hown, out, c, hout, List.mem_of_mem_head? hhead, hkey⟩

theorem log_deviceOps {done : List (ℕ × EmitCall)} (h : OwnerInv cfg done em) :
    LogInv em.desk ((deviceOps cfg em).map DeviceOp.uses) := by
  unfold deviceOps
  rw [List.map_append]
  apply h.log.concat h.wf
  intro u hu
  have hmem : u ∈ outputReads cfg em := by simpa [DeviceOp.uses] using hu
  exact (outputReads_owned hmem).1

theorem uses_of_getElem (hop : ops[j]? = some op) (hu : (t, k) ∈ op.uses) :
    Uses (ops.map DeviceOp.uses) j t k :=
  ⟨op.uses, by simp [hop], hu⟩

theorem mem_uses_of_dst {t : ℕ × ℕ} {bytes : ℕ} (h : op.dst = some (t, bytes)) : t ∈ op.uses := by
  simp [DeviceOp.uses, h]

theorem mem_uses_of_read {t : ℕ × ℕ} (h : t ∈ op.reads) : t ∈ op.uses :=
  List.mem_append_left _ h

theorem getElem_ops (hj : j < em.ops.length) (hop : (deviceOps cfg em)[j]? = some op) :
    em.ops[j]? = some op := by
  unfold deviceOps at hop
  rwa [List.getElem?_append_left hj] at hop

theorem Holds.le_length (h : Holds (deviceOps cfg em) i t k) : 0 < i ∧ i ≤ em.ops.length := by
  obtain ⟨⟨w, _, _, hw, _⟩, r, op, hr, hop, _⟩ := h
  have hlt := (List.getElem?_eq_some_iff.mp hop).1
  simp only [deviceOps, List.length_append, List.length_singleton] at hlt
  omega

theorem pos_le_of_le (h : ops.Pairwise fun a b => a.pos ≤ b.pos) {a b : DeviceOp}
    (ha : ops[i]? = some a) (hb : ops[j]? = some b) (hij : i ≤ j) : a.pos ≤ b.pos := by
  obtain ⟨hi, rfl⟩ := List.getElem?_eq_some_iff.mp ha
  obtain ⟨hj, rfl⟩ := List.getElem?_eq_some_iff.mp hb
  rcases Nat.lt_or_eq_of_le hij with hlt | rfl
  · exact List.pairwise_iff_getElem.mp h i j hi hj hlt
  · exact le_rfl

theorem mem_liveConsumers {g : OpMap} {od c : OpDef} {id : ℕ} (hid : id ∈ od.consumers)
    (hc : g.getOpAt id = some c) (hdead : c.isDead = false) : id ∈ liveConsumers g od := by
  simp [liveConsumers, hid, hc, hdead]

/-- A value that is still to be read is live in the plan, at the position of the last op
that was run. -/
theorem EmitOk.liveAt_of_holds (h : EmitOk cfg ordering budget vtcmBudget)
    (htrace : TraceInv cfg (emitCalls cfg) em.ops) (hk : k ≠ colsKey)
    (hholds : Holds (deviceOps cfg em) i t k) {last : DeviceOp}
    (hlast : em.ops[i - 1]? = some last) : LiveAt cfg.g cfg.planOrder (k / 2 ^ 32) last.pos := by
  obtain ⟨hi, hilen⟩ := hholds.le_length
  obtain ⟨⟨w, wop, bytes, hwi, hwop, hdst⟩, r, rop, hir, hrop, hread⟩ := hholds
  have hwop' := getElem_ops (by omega) hwop
  have hpw : wop.pos ≤ last.pos := pos_le_of_le htrace.sorted hwop' hlast (by omega)
  obtain ⟨q, hq, od, hget, hod, -⟩ := (htrace.asked wop (List.mem_of_getElem? hwop') (t, k)
    (mem_uses_of_dst hdst)).resolve_left hk
  dsimp only at hget hod
  obtain ⟨idl, odl, heml, -⟩ := htrace.reads last (List.mem_of_getElem? hlast)
  rw [h.order_eq] at hget
  have hemlast := heml
  obtain ⟨hgetl, -, -⟩ := heml
  rw [h.order_eq] at hgetl
  have hlen : last.pos < cfg.planOrder.length := (List.getElem?_eq_some_iff.mp hgetl).1
  refine ⟨q, od, hget, hod, hq.trans hpw, hlen, ?_⟩
  have huniq : ∀ {x y id : ℕ}, cfg.planOrder[x]? = some id → cfg.planOrder[y]? = some id →
      x = y := by
    intro x y id hx hy
    have hlt := (List.getElem?_eq_some_iff.mp hx).1
    exact (List.getElem?_inj hlt h.order_nodup).mp (hx.trans hy.symm)
  by_cases hr : r < em.ops.length
  · -- a device op reads the value
    have hrop' := getElem_ops hr hrop
    have hpr : last.pos ≤ rop.pos := pos_le_of_le htrace.sorted hlast hrop' (by omega)
    obtain ⟨idr, odr, ⟨hgetr, hodr, -⟩, hreads⟩ := htrace.reads rop (List.mem_of_getElem? hrop')
    rw [h.order_eq] at hgetr
    rcases hreads (t, k) hread with hcols | hown | ⟨c, hc, hkey⟩
    · exact absurd hcols hk
    · left
      rw [← hown] at hgetr
      have := huniq hget hgetr
      omega
    · right
      left
      have hsrc : k / 2 ^ 32 = c.srcId := by
        rw [show k = _ from hkey, tkey_div_of_lt ((h.ids idr odr hodr).2 c hc)]
      obtain ⟨hena, hdead⟩ := h.alive idr (List.mem_of_getElem? hgetr) odr hodr
      rw [hsrc] at hod
      refine ⟨idr, mem_liveConsumers (h.consumers idr odr hodr hena c hc od hod) hodr hdead, ?_⟩
      intro q' hq'
      rw [← huniq hgetr hq']
      exact hpr
  · -- the host reads the value
    have hreq : r = em.ops.length := by
      have hlt := (List.getElem?_eq_some_iff.mp hrop).1
      simp only [deviceOps, List.length_append, List.length_singleton] at hlt
      omega
    subst hreq
    have hhost : (t, k) ∈ outputReads cfg em := by
      simp only [deviceOps, List.getElem?_concat_length, Option.some.injEq] at hrop
      rw [← hrop] at hread
      exact hread
    obtain ⟨-, out, c, hout, hc, hkey⟩ := outputReads_owned hhost
    right
    left
    have hsrc : k / 2 ^ 32 = c.srcId := by
      rw [show k = _ from hkey, tkey_div_of_lt ((h.ids _ out hout).2 c hc)]
    obtain ⟨hena, hdead⟩ := h.output out hout
    rw [hsrc] at hod
    refine ⟨cfg.outputNodeId,
      mem_liveConsumers (h.consumers _ out hout hena c hc od hod) hout hdead, ?_⟩
    intro q' hq'
    exact h.output_last _ _ _ q' hemlast hq'

theorem Holds.temp_ne {k' : ℕ} (hlog : LogInv em.desk ((deviceOps cfg em).map DeviceOp.uses))
    (h : Holds (deviceOps cfg em) i t k) (h' : Holds (deviceOps cfg em) i t' k')
    (hne : (t, k) ≠ (t', k')) : t ≠ t' := by
  rintro rfl
  obtain ⟨⟨w, wop, bytes, hwi, hwop, hdst⟩, r, rop, hir, hrop, hread⟩ := h
  obtain ⟨⟨w', wop', bytes', hwi', hwop', hdst'⟩, r', rop', hir', hrop', hread'⟩ := h'
  have hw := uses_of_getElem hwop (mem_uses_of_dst hdst)
  have hw' := uses_of_getElem hwop' (mem_uses_of_dst hdst')
  have hr := uses_of_getElem hrop (mem_uses_of_read hread)
  have hr' := uses_of_getElem hrop' (mem_uses_of_read hread')
  apply hne
  rcases Nat.le_total w w' with hle | hle
  · rw [hlog.exclusive w w' r t k k' hle (by omega) hw hw' hr]
  · rw [hlog.exclusive w' w r' t k' k hle (by omega) hw' hw hr']

theorem Holds.used (h : Holds (deviceOps cfg em) i t k) : Used em t k := by
  obtain ⟨hi, hilen⟩ := h.le_length
  obtain ⟨⟨w, wop, bytes, hwi, hwop, hdst⟩, -⟩ := h
  have hwop' := getElem_ops (by omega) hwop
  exact .inr ⟨wop, List.mem_of_getElem? hwop', mem_uses_of_dst hdst⟩

theorem EmitOk.places_apart (h : EmitOk cfg ordering budget vtcmBudget)
    (hown : OwnerInv cfg (emitCalls cfg) em) (htrace : TraceInv cfg (emitCalls cfg) em.ops)
    {k' : ℕ} (hholds : Holds (deviceOps cfg em) i t k)
    (hholds' : Holds (deviceOps cfg em) i t' k') (ht : t ≠ t') {p' : TempPlace}
    (hp : em.tempTab t = some p) (hp' : em.tempTab t' = some p') (hpool : p.inVtcm = p'.inVtcm) :
    p.offset + p.size ≤ p'.offset ∨ p'.offset + p'.size ≤ p.offset := by
  have hplace : placeOfKey cfg k = some p := (hown.tab t k hholds.used).symm.trans hp
  have hplace' : placeOfKey cfg k' = some p' := (hown.tab t' k' hholds'.used).symm.trans hp'
  have hcols : ∀ {x q}, placeOfKey cfg x = some q → x ≠ colsKey := by
    rintro x q hx rfl
    rw [h.place_colsKey] at hx
    cases hx
  obtain ⟨hmod, e, he, hid, hoff, hsize, hv⟩ := h.entry_of_place hplace
  obtain ⟨hmod', e', he', hid', hoff', hsize', hv'⟩ := h.entry_of_place hplace'
  have hne : e.opId ≠ e'.opId := by
    intro heq
    rw [hid, hid'] at heq
    have hkk : k = k' := by omega
    subst hkk
    exact ht (hown.single t t' k hholds.used hholds'.used (hcols hplace))
  obtain ⟨hi, hilen⟩ := hholds.le_length
  obtain ⟨last, hlast⟩ : ∃ last, em.ops[i - 1]? = some last :=
    ⟨em.ops[i - 1], List.getElem?_eq_some_iff.mpr ⟨by omega, rfl⟩⟩
  have hlive := h.liveAt_of_holds htrace (hcols hplace) hholds hlast
  have hlive' := h.liveAt_of_holds htrace (hcols hplace') hholds' hlast
  rw [hoff, hoff', hsize, hsize']
  apply h.planOk.apart e he e' he' hne
  · rw [← hv, ← hv', hpool]
  · exact ⟨last.pos, by rw [hid]; exact hlive, by rw [hid']; exact hlive'⟩

def tempInVtcm (em : Emitter) (t : ℕ) : Bool := ((em.tempTab t).map (·.inVtcm)).getD false

theorem DevInv.spans_apart {base cap : ℕ} {s : ExecState} (h : DevInv em.tempTab base cap s)
    (htab : TabOk em.tempTab cap) {a' : ℕ} (ht : t ≠ t')
    (hplaces : ∀ p p', em.tempTab t = some p → em.tempTab t' = some p' → p.inVtcm = p'.inVtcm →
      p.offset + p.size ≤ p'.offset ∨ p'.offset + p'.size ≤ p.offset)
    (ha : s.temps t = some a) (ha' : s.temps t' = some a')
    (hpool : tempInVtcm em t = tempInVtcm em t') : (tempSpan s t a).Apart (tempSpan s t' a') := by
  unfold tempInVtcm at hpool
  unfold Span.Apart tempSpan
  dsimp only
  -- a temp of the table in DDR ends below the static area, one without a place starts above
  have hstatic : ∀ u b q, em.tempTab u = some q → q.inVtcm = false → s.temps u = some b →
      b + (s.lastBytes u).toNat ≤ base + cap := by
    intro u b q hq hv hb
    obtain ⟨hlast, haddr⟩ := h.inTab u q b hq hb
    have hin := htab u q hq
    simp only [hv, Bool.false_eq_true, if_false] at haddr hin
    omega
  have hbump : ∀ u b, em.tempTab u = none → s.temps u = some b →
      base + cap ≤ b ∧ (s.lastBytes u).toNat ≤ (s.tempBytes u).toNat := by
    intro u b hu hb
    obtain ⟨h1, -, h3⟩ := h.bump u b hu hb
    exact ⟨h1, UInt32.le_iff_toNat_le.mp h3⟩
  cases hp : em.tempTab t with
  | none =>
    obtain ⟨hlo, hle⟩ := hbump t a hp ha
    cases hp' : em.tempTab t' with
    | none =>
      obtain ⟨hlo', hle'⟩ := hbump t' a' hp' ha'
      have := h.apart t t' a a' ht hp hp' ha ha'
      omega
    | some p' =>
      have hv' : p'.inVtcm = false := by simpa [hp, hp'] using hpool.symm
      have := hstatic t' a' p' hp' hv' ha'
      omega
  | some p =>
    cases hp' : em.tempTab t' with
    | none =>
      have hv : p.inVtcm = false := by simpa [hp, hp'] using hpool
      obtain ⟨hlo', -⟩ := hbump t' a' hp' ha'
      have := hstatic t a p hp hv ha
      omega
    | some p' =>
      have hvv : p.inVtcm = p'.inVtcm := by simpa [hp, hp'] using hpool
      obtain ⟨hlast, haddr⟩ := h.inTab t p a hp ha
      obtain ⟨hlast', haddr'⟩ := h.inTab t' p' a' hp' ha'
      have happ := hplaces p p' hp hp' hvv
      cases hv : p.inVtcm with
      | false =>
        simp only [hv, ← hvv, Bool.false_eq_true, if_false] at haddr haddr'
        omega
      | true =>
        simp only [hv, ← hvv, if_true] at haddr haddr'
        obtain ⟨vb, hvb, rfl⟩ := haddr
        obtain ⟨vb', hvb', rfl⟩ := haddr'
        obtain rfl := Option.some.inj (hvb.symm.trans hvb')
        omega

end Live

/-- For every graph with its plan whose emitter gives an id again only to an output with the
same place: each device op uses a temp at the place that the plan has for the output, and
at every point of the device run two values that are still to be read are in different
temps, whose bytes are apart in their pool.
SOURCE: wtop_ops.hpp:121-185, wtop_emit.cpp:485-602, oplist_exec.c:257-335, 2012-2066 -/
theorem live_temps_apart {cfg : EmitConfig} {ordering : List ℕ} {budget vtcmBudget : ℕ}
    (h : EmitOk cfg ordering budget vtcmBudget) {em : Emitter} (hemit : emit cfg = some em)
    {env : Env} {s₀ s₁ s : ExecState} (hcold : s₀.staticOffsets = false)
    (htemps : ∀ t, s₀.temps t = none)
    (hload : loadTempoff env (tempoffTable cfg em) s₀ = (.ok (), s₁)) {i : ℕ}
    (hrun : runOps env ((deviceOps cfg em).take i) s₁ = (.ok (), s)) :
    (∀ op ∈ deviceOps cfg em, ∀ u ∈ op.uses, em.tempTab u.1 = placeOfKey cfg u.2) ∧
      ∀ t k t' k', Holds (deviceOps cfg em) i t k → Holds (deviceOps cfg em) i t' k' →
        (t, k) ≠ (t', k') → t ≠ t' ∧ ∃ a a', s.temps t = some a ∧ s.temps t' = some a' ∧
          (tempInVtcm em t = tempInVtcm em t' → (tempSpan s t a).Apart (tempSpan s t' a')) := by
  have hnd : cfg.order.Nodup := h.order_eq ▸ h.order_nodup
  obtain ⟨hown, htrace⟩ := emit_inv h.ids hnd h.fits h.reuses hemit
  have hused : ∀ op ∈ deviceOps cfg em, ∀ u ∈ op.uses, Used em u.1 u.2 := by
    intro op hop u hu
    rcases List.mem_append.mp hop with hop | hop
    · exact .inr ⟨op, hop, hu⟩
    · rw [List.mem_singleton.mp hop] at hu
      exact .inl (outputReads_owned (by simpa [DeviceOp.uses] using hu)).1
  have htab : ∀ op ∈ deviceOps cfg em, ∀ u ∈ op.uses, em.tempTab u.1 = placeOfKey cfg u.2 :=
    fun op hop u hu => hown.tab u.1 u.2 (hused op hop u hu)
  refine ⟨htab, ?_⟩
  have hinside : ∀ t p, em.tempTab t = some p →
      p.offset + p.size ≤ if p.inVtcm then cfg.plan.vtcmCap else cfg.plan.cap := by
    intro t p hp
    obtain ⟨k, hk⟩ := hown.planned t p hp
    exact h.place_inside hk
  obtain ⟨base, hinv, htabOk, hcap⟩ := loadTempoff_inv h.cap_lt
    (h.planOk.caps.2 ▸ h.vtcmCap_lt) hown.next_le hown.tabNone hinside hcold htemps hload
  have hdst : ∀ op ∈ (deviceOps cfg em).take i, DstOk em.tempTab op := by
    intro op hop t bytes heq
    have hop := List.mem_of_mem_take hop
    have hmem : op ∈ em.ops := by
      rcases List.mem_append.mp hop with hop | hop
      · exact hop
      · rw [List.mem_singleton.mp hop] at heq
        cases heq
    obtain ⟨hbytes, hfit⟩ := htrace.fits op hmem t bytes heq
    refine ⟨?_, hbytes, fun p hp => hfit p ?_⟩
    · exact (hown.used_lt (hused op hop t (mem_uses_of_dst heq))).trans_le hown.next_le
    · rw [← htab op hop t (mem_uses_of_dst heq)]
      exact hp
  obtain ⟨hinv, hset, -⟩ := runOps_inv htabOk hcap hdst hinv hrun
  have haddr : ∀ t k, Holds (deviceOps cfg em) i t k → ∃ a, s.temps t = some a := by
    rintro t k ⟨⟨w, wop, bytes, hwi, hwop, heq⟩, -⟩
    have hmem : wop ∈ (deviceOps cfg em).take i :=
      List.mem_of_getElem? (by rw [List.getElem?_take_of_lt hwi]; exact hwop)
    exact Option.isSome_iff_exists.mp (hset wop hmem (t, k) bytes heq)
  intro t k t' k' hholds hholds' hne
  have ht : t ≠ t' := hholds.temp_ne (log_deviceOps hown) hholds' hne
  obtain ⟨a, ha⟩ := haddr t k hholds
  obtain ⟨a', ha'⟩ := haddr t' k' hholds'
  refine ⟨ht, a, a', ha, ha', fun hpool => ?_⟩
  apply hinv.spans_apart htabOk ht _ ha ha' hpool
  intro p p' hp hp' hvv
  exact h.places_apart hown htrace hholds hholds' ht hp hp' hvv

/-- An operator with a vector of `elems` four-byte elements. -/
def vectorNode (id : ℕ) (name : String) (flags elems : ℕ) (srcs consumers : List ℕ) : OpDef :=
  ⟨id, flags, some name, OutputDef.vector elems 0 4 0, srcs.map fun c => ⟨c, 0⟩, consumers, [], []⟩

def copyAndConcat (name : String) : Option (OpDef → Option Recipe) :=
  if name = "Reshape" then some fun od => some (opCopySem od)
  else if name = "Concat" then some fun od => some (opConcat od)
  else none

/-- A graph whose operators are emitted in the order of a list. -/
def listConfig (ops : List OpDef) (entries : List DdrTempEntry) (outputNodeId : ℕ) :
    EmitConfig where
  g := OpMap.ofList ops
  planOrder := ops.map (·.opId)
  plan := ⟨entries, 4096, 0, [], 0⟩
  outputNodeId := outputNodeId
  opRegistry := copyAndConcat
  mainInputId := 1
  inputSlots := []
  constDataSize := fun _ => 0
  dmaRunlist := false

/-- The executor when the process starts. -/
def coldState : ExecState where
  temps := fun _ => none
  tempBytes := fun _ => 0
  lastBytes := fun _ => 0
  pool := none
  poolCap := 0
  poolUsed := 0
  staticOffsets := false
  staticOffArr := fun _ => 0
  vtcmPool := none
  vtcmPoolSize := 0
  vtcmOffArr := fun _ => 0
  engineReady := false
  matmulCarved := false
  engM := 0
  engK := 0
  engN := 0
  nStates := 0
  stBuf := fun _ => none
  stBytes := fun _ => 0
  stCount := fun _ => 0
  kvcReady := fun _ => false
  kvcSlotBytes := fun _ => 0
  kvcNslots := fun _ => 0
  tick := 0
  nStates_le := Nat.zero_le _

/-- An environment that grants every request for memory. -/
def grantingEnv : Env where
  memalign := fun _ _ => some 4096
  wtcacheOpen := fun _ => true
  wtcacheLayout := fun _ => (some 0, 0x800000, 0)
  w4Carve := fun _ => true
  kernelOk := fun _ => true
  weightBase := 0
  extIn := none
  extWgt := none

/-- The device after it has read the table of an emitter. -/
def loaded (cfg : EmitConfig) (em : Emitter) : Checked String Unit × ExecState :=
  loadTempoff grantingEnv (tempoffTable cfg em) coldState

/-- The device at point `i` of the run. -/
def deviceAt (cfg : EmitConfig) (em : Emitter) (i : ℕ) : Checked String Unit × ExecState :=
  runOps grantingEnv ((deviceOps cfg em).take i) (loaded cfg em).2

/-- The operator 4 gets the id of the operator 2, and has the same place. -/
def returnedOps : List OpDef :=
  [vectorNode 1 "Input" 1 32 [] [2], vectorNode 2 "Reshape" 1 32 [1] [3],
    vectorNode 3 "Reshape" 1 32 [2] [4, 5], vectorNode 9 "$Const" 3 32 [] [],
    vectorNode 4 "Reshape" 1 32 [3] [5], vectorNode 5 "Concat" 1 64 [3, 4] [6],
    vectorNode 6 "Output" 1 64 [5] []]

def returned : EmitConfig := listConfig returnedOps
  [⟨2, 0, 128, false⟩, ⟨3, 128, 128, false⟩, ⟨4, 0, 128, false⟩, ⟨5, 256, 256, false⟩] 6

theorem returned_ok : EmitOk returned [] 4096 0 where
  planned := by decide
  order_ne := by decide
  order_nodup := by decide
  sorted := by decide
  order_lt := by decide
  budget_lt := by decide
  bytes_lt := by decide
  cap_lt := by decide
  vtcmCap_lt := by decide
  ids := idsOk_ofList (by decide)
  consumers := by
    intro r od hod _ c hc src hsrc
    obtain ⟨hmem, rfl⟩ := OpMap.mem_of_ofList hod
    obtain ⟨hmem', hid⟩ := OpMap.mem_of_ofList hsrc
    have hall : ∀ od ∈ returnedOps, ∀ c ∈ od.inputs, ∀ src ∈ returnedOps,
        src.opId = c.srcId → od.opId ∈ src.consumers := by decide
    exact hall od hmem c hc src hmem' hid
  alive := by
    intro id _ od hod
    have hall : ∀ od ∈ returnedOps, od.isEnabled = true ∧ od.isDead = false := by decide
    exact hall od (OpMap.mem_of_ofList hod).1
  output := by
    intro od hod
    have hall : ∀ od ∈ returnedOps, od.isEnabled = true ∧ od.isDead = false := by decide
    exact hall od (OpMap.mem_of_ofList hod).1
  output_last := by
    rintro p id od q ⟨hp, -⟩ hq
    have hlt := (List.getElem?_eq_some_iff.mp hp).1
    have hlen : returned.order.length = 7 := by decide
    have hout : ∀ q < 7, returned.planOrder[q]? = some returned.outputNodeId → q = 6 := by decide
    have := hout q (List.getElem?_eq_some_iff.mp hq).1 hq
    omega
  fits := by decide
  reuses := reusesOk_of_check (by decide)

def returnedEmitter : Emitter := (emit returned).getD Emitter.new

/-- When the operator 4 has run, its value and the one of the operator 3 are still to be read,
and they are apart. -/
theorem returned_apart :
    Holds (deviceOps returned returnedEmitter) 3 0 (tkey 4 0) ∧
      Holds (deviceOps returned returnedEmitter) 3 1 (tkey 3 0) ∧
      ∃ a a', (deviceAt returned returnedEmitter 3).2.temps 0 = some a ∧
        (deviceAt returned returnedEmitter 3).2.temps 1 = some a' ∧
        (tempInVtcm returnedEmitter 0 = tempInVtcm returnedEmitter 1 →
          (tempSpan (deviceAt returned returnedEmitter 3).2 0 a).Apart
            (tempSpan (deviceAt returned returnedEmitter 3).2 1 a')) := by
  have hemit : emit returned = some returnedEmitter := rfl
  have hload : loadTempoff grantingEnv (tempoffTable returned returnedEmitter) coldState =
      (.ok (), (loaded returned returnedEmitter).2) := rfl
  have hrun : runOps grantingEnv ((deviceOps returned returnedEmitter).take 3)
      (loaded returned returnedEmitter).2 = (.ok (), (deviceAt returned returnedEmitter 3).2) := rfl
  have hread : (deviceOps returned returnedEmitter)[3]? = some
      ⟨5, [(1, tkey 3 0), (0, tkey 4 0)], some ((2, tkey 5 0), 128)⟩ := by decide
  have hfour : Holds (deviceOps returned returnedEmitter) 3 0 (tkey 4 0) :=
    ⟨⟨2, ⟨4, [(1, tkey 3 0)], some ((0, tkey 4 0), 64)⟩, 64, by decide, by decide, rfl⟩,
      3, _, le_rfl, hread, by decide⟩
  have hthree : Holds (deviceOps returned returnedEmitter) 3 1 (tkey 3 0) :=
    ⟨⟨1, ⟨2, [(0, tkey 2 0)], some ((1, tkey 3 0), 64)⟩, 64, by decide, by decide, rfl⟩,
      3, _, le_rfl, hread, by decide⟩
  refine ⟨hfour, hthree, ?_⟩
  have happ := (live_temps_apart returned_ok hemit rfl (fun _ => rfl) hload hrun).2
  exact (happ 0 (tkey 4 0) 1 (tkey 3 0) hfour hthree (by decide)).2

/-- The last operator but one gets the id of the first one, which has a place of 128 bytes;
its own output has 512. -/
def recycled : EmitConfig := listConfig
  [vectorNode 1 "Input" 1 32 [] [2], vectorNode 2 "Reshape" 1 32 [1] [3],
    vectorNode 3 "Reshape" 1 32 [2] [4, 5], vectorNode 4 "Concat" 1 128 [3, 3, 3, 3] [5],
    vectorNode 5 "Concat" 1 160 [3, 4] [6], vectorNode 6 "Output" 1 160 [5] []]
  [⟨2, 0, 128, false⟩, ⟨3, 128, 128, false⟩, ⟨4, 256, 512, false⟩, ⟨5, 768, 640, false⟩] 6

def recycledEmitter : Emitter := (emit recycled).getD Emitter.new

/-- The plan has 512 bytes at 256 for the operator 4. The device puts its 256 bytes at 0, over
the output of the operator 3 at 128, which the operator 5 is still to read. -/
theorem recycled_overlap :
    computeDdrOffsets recycled.g recycled.planOrder [] 4096 0 = .planned recycled.plan ∧
      emit recycled = some recycledEmitter ∧
      loaded recycled recycledEmitter = (.ok (), (loaded recycled recycledEmitter).2) ∧
      deviceAt recycled recycledEmitter 3 = (.ok (), (deviceAt recycled recycledEmitter 3).2) ∧
      Holds (deviceOps recycled recycledEmitter) 3 0 (tkey 4 0) ∧
      Holds (deviceOps recycled recycledEmitter) 3 1 (tkey 3 0) ∧
      placeOfKey recycled (tkey 4 0) = some ⟨256, 512, false⟩ ∧
      recycledEmitter.tempTab 0 = some ⟨0, 128, false⟩ ∧
      (deviceAt recycled recycledEmitter 3).2.temps 0 = some 4096 ∧
      (deviceAt recycled recycledEmitter 3).2.temps 1 = some 4224 ∧
      ¬ (tempSpan (deviceAt recycled recycledEmitter 3).2 0 4096).Apart
        (tempSpan (deviceAt recycled recycledEmitter 3).2 1 4224) := by
  have hread : (deviceOps recycled recycledEmitter)[3]? = some
      ⟨4, [(1, tkey 3 0), (0, tkey 4 0)], some ((2, tkey 5 0), 320)⟩ := by decide
  refine ⟨by decide, rfl, rfl, rfl, ?_, ?_, by decide, by decide,
    by decide, by decide, ?_⟩
  · exact ⟨⟨2, ⟨3, List.replicate 4 (1, tkey 3 0), some ((0, tkey 4 0), 256)⟩, 256, by decide,
      by decide, rfl⟩, 3, _, le_rfl, hread, by decide⟩
  · exact ⟨⟨1, ⟨2, [(0, tkey 2 0)], some ((1, tkey 3 0), 64)⟩, 64, by decide, by decide,
      rfl⟩, 3, _, le_rfl, hread, by decide⟩
  · have h0 : (deviceAt recycled recycledEmitter 3).2.lastBytes 0 = 256 := by decide
    have h1 : (deviceAt recycled recycledEmitter 3).2.lastBytes 1 = 64 := by decide
    unfold Span.Apart tempSpan
    rw [h0, h1]
    decide

end Gehtp.Analysis.TempDisjoint
