import Gehtp.Analysis.TempDisjoint
import Gehtp.Analysis.TempoffLoad

/-!
# The regions of the temps

A temp of the table lies in the static area at the start of the pool and any other one is placed
behind it, where `pool_used` moves up. A request for a temp of the table is checked against
`pool_used` as well, so once other temps are placed it may reach over the end of the static area
into theirs; and all checks add in 32 bits. The regions are apart if no request passes a check
that it fails in the integers.
-/

set_option autoImplicit false

namespace Gehtp.Analysis.TempRegions

open Lib Lib.Machine Model.OplistParse Model.OplistExec Model.TempRun Model.TempoffSlot
  Analysis.TempDisjoint Analysis.TempoffLoad

/-! ### Calls and regions -/

/-- Calls of `temp_get` one after the other: an id and a number of bytes each. -/
def getAll (env : Env) (calls : List (UInt32 × UInt32)) : Exec (List (Option ℕ)) :=
  collect (fun c => tempGet env c.1 c.2) calls

/-- The regions that the calls returned: an id, a number of bytes and an address each. -/
def regions : List (UInt32 × UInt32) → List (Option ℕ) → List (UInt32 × UInt32 × ℕ)
  | c :: calls, some a :: addrs => (c.1, c.2, a) :: regions calls addrs
  | _ :: calls, none :: addrs => regions calls addrs
  | _, _ => []

/-- The table has no offset for the temp, so it is placed by the bump allocator. -/
def Bumped (s : ExecState) (t : ℕ) : Prop := s.vtcmOffArr t = noOffset ∧ s.staticOffArr t = noOffset

/-- Every region lies in its pool, and no region overlaps the one of another temp that the bump
allocator placed. `s` is the state when the table is loaded and `base` its pool, `s'` is the
state after the calls. -/
structure RegionsOk (s : ExecState) (base : ℕ) (s' : ExecState)
    (log : List (UInt32 × UInt32 × ℕ)) : Prop where
  inPool : ∀ e ∈ log, s.vtcmOffArr e.1.toNat = noOffset →
    base ≤ e.2.2 ∧ e.2.2 + e.2.1.toNat ≤ base + s.poolCap.toNat
  inVtcm : ∀ e ∈ log, s.vtcmOffArr e.1.toNat ≠ noOffset → ∃ vb, s'.vtcmPool = some vb ∧
    vb ≤ e.2.2 ∧ e.2.2 + e.2.1.toNat ≤ vb + s.vtcmPoolSize.toNat
  apart : ∀ e ∈ log, ∀ e' ∈ log, e.1 ≠ e'.1 → Bumped s e'.1.toNat →
    e.2.2 + e.2.1.toNat ≤ e'.2.2 ∨ e'.2.2 + e'.2.1.toNat ≤ e.2.2

/-- The check of the call refuses it, or the call also fits without the wrap of 32 bits, a temp
of the table in the static area of `cap` bytes. -/
def CallOk (cap : ℕ) (s : ExecState) (c : UInt32 × UInt32) : Prop :=
  if s.vtcmOffArr c.1.toNat ≠ noOffset then
    s.vtcmPoolSize < s.vtcmOffArr c.1.toNat + c.2 ∨
      (s.vtcmOffArr c.1.toNat).toNat + c.2.toNat ≤ s.vtcmPoolSize.toNat
  else if s.staticOffArr c.1.toNat ≠ noOffset then
    s.poolUsed < s.staticOffArr c.1.toNat + c.2 ∨
      (s.staticOffArr c.1.toNat).toNat + c.2.toNat ≤ cap
  else s.poolCap < s.poolUsed + aligned c.2 ∨
    c.2.toNat + 127 < 2 ^ 32 ∧ s.poolUsed.toNat + (aligned c.2).toNat < 2 ^ 32

/-- All calls are such, each in the state in which it is made. -/
def CallsOk (env : Env) (cap : ℕ) : ExecState → List (UInt32 × UInt32) → Prop
  | _, [] => True
  | s, c :: calls => CallOk cap s c ∧ CallsOk env cap (tempGet env c.1 c.2 s).2 calls

/-- The VTCM that the manager reports is not in the pool. -/
def VtcmApart (env : Env) (base : ℕ) (size : UInt32) : Prop :=
  ∀ n first vs pc, env.wtcacheLayout n = (some first, vs, pc) →
    first + vs.toNat ≤ base ∨ base + size.toNat ≤ first

/-! ### The invariant -/

/-- The bytes from `lo` to `hi` are those of the temp `t` behind the static area, now or in a
region that was returned. -/
def Claimed (s₀ s : ExecState) (log : List (UInt32 × UInt32 × ℕ)) (t lo hi : ℕ) : Prop :=
  Bumped s₀ t ∧ (s.temps t = some lo ∧ hi = lo + (s.tempBytes t).toNat ∨
    ∃ e ∈ log, e.1.toNat = t ∧ lo = e.2.2 ∧ hi = lo + e.2.1.toNat)

/-- What holds between two calls. -/
structure RegionInv (s₀ : ExecState) (base : ℕ) (log : List (UInt32 × UInt32 × ℕ))
    (s : ExecState) : Prop where
  mode : s.staticOffsets = true
  pool : s.pool = some base
  staticArr : s.staticOffArr = s₀.staticOffArr
  vtcmArr : s.vtcmOffArr = s₀.vtcmOffArr
  poolCap : s.poolCap = s₀.poolCap
  vtcmSize : s.vtcmPoolSize = s₀.vtcmPoolSize
  used_ge : s₀.poolUsed.toNat ≤ s.poolUsed.toNat
  used_le : s.poolUsed.toNat ≤ s₀.poolCap.toNat
  vtcmPool : ∀ vb, s.vtcmPool = some vb →
    vb + s₀.vtcmPoolSize.toNat ≤ base ∨ base + s₀.poolCap.toNat ≤ vb
  inVtcm : ∀ e ∈ log, s₀.vtcmOffArr e.1.toNat ≠ noOffset → ∃ vb, s.vtcmPool = some vb ∧
    vb ≤ e.2.2 ∧ e.2.2 + e.2.1.toNat ≤ vb + s₀.vtcmPoolSize.toNat
  inTable : ∀ e ∈ log, s₀.vtcmOffArr e.1.toNat = noOffset →
    s₀.staticOffArr e.1.toNat ≠ noOffset →
    base ≤ e.2.2 ∧ e.2.2 + e.2.1.toNat ≤ base + s₀.poolUsed.toNat
  inside : ∀ t lo hi, Claimed s₀ s log t lo hi →
    base + s₀.poolUsed.toNat ≤ lo ∧ hi ≤ base + s.poolUsed.toNat
  apart : ∀ t t' lo hi lo' hi', t ≠ t' → Claimed s₀ s log t lo hi →
    Claimed s₀ s log t' lo' hi' → hi ≤ lo' ∨ hi' ≤ lo

variable {id bytes : UInt32} {env : Env}

section Steps

variable {s₀ s s' : ExecState} {base : ℕ} {log log' : List (UInt32 × UInt32 × ℕ)}

theorem RegionInv.claims (h : RegionInv s₀ base log s) {id : ℕ}
    (hused : s.poolUsed.toNat ≤ s'.poolUsed.toNat)
    (hnew : ∀ t lo hi, Claimed s₀ s' log' t lo hi →
      (∃ hi', hi ≤ hi' ∧ Claimed s₀ s log t lo hi') ∨
        t = id ∧ base + s.poolUsed.toNat ≤ lo ∧ hi ≤ base + s'.poolUsed.toNat) :
    (∀ t lo hi, Claimed s₀ s' log' t lo hi →
      base + s₀.poolUsed.toNat ≤ lo ∧ hi ≤ base + s'.poolUsed.toNat) ∧
    ∀ t t' lo hi lo' hi', t ≠ t' → Claimed s₀ s' log' t lo hi →
      Claimed s₀ s' log' t' lo' hi' → hi ≤ lo' ∨ hi' ≤ lo := by
  have hge := h.used_ge
  constructor
  · intro t lo hi hc
    rcases hnew t lo hi hc with ⟨hi', hle, hold⟩ | ⟨-, hlo, hhi⟩
    · have := h.inside t lo hi' hold
      omega
    · omega
  · intro t t' lo hi lo' hi' hne hc hc'
    rcases hnew t lo hi hc with ⟨h₁, hle, hold⟩ | ⟨rfl, hlo, hhi⟩
    · rcases hnew t' lo' hi' hc' with ⟨h₂, hle', hold'⟩ | ⟨-, hlo', hhi'⟩
      · have := h.apart t t' lo h₁ lo' h₂ hne hold hold'
        omega
      · have := h.inside t lo h₁ hold
        omega
    · rcases hnew t' lo' hi' hc' with ⟨h₂, hle', hold'⟩ | ⟨rfl, -, -⟩
      · have := h.inside t' lo' h₂ hold'
        omega
      · exact absurd rfl hne

theorem RegionInv.none (h : RegionInv s₀ base log s) (ready : Bool) (n : ℕ) :
    RegionInv s₀ base log { s with engineReady := ready, tick := n } :=
  ⟨h.mode, h.pool, h.staticArr, h.vtcmArr, h.poolCap, h.vtcmSize, h.used_ge, h.used_le, h.vtcmPool,
    h.inVtcm, h.inTable, h.inside, h.apart⟩

theorem RegionInv.claims_placed (h : RegionInv s₀ base log s) {a : ℕ} (s' : ExecState)
    (hb : ¬ Bumped s₀ id.toNat) (hused : s'.poolUsed = s.poolUsed)
    (htemps : s'.temps = Function.update s.temps id.toNat (some a))
    (hbytes : s'.tempBytes = Function.update s.tempBytes id.toNat bytes) :
    (∀ t lo hi, Claimed s₀ s' (log ++ [(id, bytes, a)]) t lo hi →
      base + s₀.poolUsed.toNat ≤ lo ∧ hi ≤ base + s'.poolUsed.toNat) ∧
    ∀ t t' lo hi lo' hi', t ≠ t' → Claimed s₀ s' (log ++ [(id, bytes, a)]) t lo hi →
      Claimed s₀ s' (log ++ [(id, bytes, a)]) t' lo' hi' → hi ≤ lo' ∨ hi' ≤ lo := by
  have hold : ∀ t lo hi, Claimed s₀ s' (log ++ [(id, bytes, a)]) t lo hi →
      (∃ hi', hi ≤ hi' ∧ Claimed s₀ s log t lo hi') ∨
        t = id.toNat ∧ base + s.poolUsed.toNat ≤ lo ∧ hi ≤ base + s'.poolUsed.toNat := by
    rintro t lo hi ⟨hbump, hc⟩
    have hne : t ≠ id.toNat := by
      rintro rfl
      exact hb hbump
    refine .inl ⟨hi, le_rfl, hbump, ?_⟩
    rcases hc with ⟨ht, hhi⟩ | ⟨e, he, het, hlo, hhi⟩
    · rw [htemps, Function.update_of_ne hne] at ht
      rw [hbytes, Function.update_of_ne hne] at hhi
      exact .inl ⟨ht, hhi⟩
    · rcases List.mem_append.mp he with he | he
      · exact .inr ⟨e, he, het, hlo, hhi⟩
      · rw [List.mem_singleton] at he
        subst he
        exact absurd het.symm hne
  exact h.claims (by rw [hused]) hold

theorem laid_apart {size cap : UInt32} {vb : ℕ} (hsep : VtcmApart env base cap)
    (h : Laid env size vb) : vb + size.toNat ≤ base ∨ base + cap.toNat ≤ vb := by
  obtain ⟨n, first, vs, pc, hlay, hle, rfl⟩ := h
  have hsub : (vs - size).toNat = vs.toNat - size.toNat := UInt32.toNat_sub_of_le vs size hle
  have hsize := UInt32.le_iff_toNat_le.mp hle
  have := hsep n first vs pc hlay
  omega

theorem RegionInv.vtcm (hsep : VtcmApart env base s₀.poolCap) (h : RegionInv s₀ base log s)
    {vb : ℕ} (ready : Bool) (n : ℕ) (hoff : s.vtcmOffArr id.toNat ≠ noOffset)
    (hfit : (s.vtcmOffArr id.toNat).toNat + bytes.toNat ≤ s.vtcmPoolSize.toNat)
    (hvp : s.vtcmPool = some vb ∨ s.vtcmPool = Option.none ∧ Laid env s.vtcmPoolSize vb) :
    RegionInv s₀ base (log ++ [(id, bytes, vb + (s.vtcmOffArr id.toNat).toNat)])
      (placed { s with engineReady := ready, vtcmPool := some vb, tick := n } id.toNat
        (vb + (s.vtcmOffArr id.toNat).toNat) bytes) := by
  have hb : ¬ Bumped s₀ id.toNat := by
    rw [h.vtcmArr] at hoff
    exact fun hb => hoff hb.1
  have hvb : vb + s₀.vtcmPoolSize.toNat ≤ base ∨ base + s₀.poolCap.toNat ≤ vb := by
    rcases hvp with hsome | ⟨-, hlaid⟩
    · exact h.vtcmPool vb hsome
    · rw [h.vtcmSize] at hlaid
      exact laid_apart hsep hlaid
  obtain ⟨hin, hap⟩ := h.claims_placed (placed { s with
      engineReady := ready, vtcmPool := some vb, tick := n } id.toNat
        (vb + (s.vtcmOffArr id.toNat).toNat) bytes) hb rfl rfl rfl
  refine ⟨h.mode, h.pool, h.staticArr, h.vtcmArr, h.poolCap, h.vtcmSize, h.used_ge, h.used_le,
    ?_, ?_, ?_, hin, hap⟩
  · intro vb' hvb'
    obtain rfl := Option.some.inj hvb'
    exact hvb
  · intro e he hv
    refine ⟨vb, rfl, ?_⟩
    rcases List.mem_append.mp he with he | he
    · obtain ⟨vb', hvb', hin⟩ := h.inVtcm e he hv
      rcases hvp with hsome | ⟨hnone, -⟩
      · obtain rfl := Option.some.inj (hsome.symm.trans hvb')
        exact hin
      · rw [hnone] at hvb'
        cases hvb'
    · rw [List.mem_singleton] at he
      subst he
      rw [h.vtcmSize] at hfit
      show vb ≤ vb + _ ∧ vb + _ + bytes.toNat ≤ _
      omega
  · intro e he hv hs
    rcases List.mem_append.mp he with he | he
    · exact h.inTable e he hv hs
    · rw [List.mem_singleton] at he
      subst he
      rw [h.vtcmArr] at hoff
      exact absurd hv hoff

theorem RegionInv.table (h : RegionInv s₀ base log s) (hnv : s.vtcmOffArr id.toNat = noOffset)
    (hoff : s.staticOffArr id.toNat ≠ noOffset)
    (hfit : (s.staticOffArr id.toNat).toNat + bytes.toNat ≤ s₀.poolUsed.toNat) :
    RegionInv s₀ base (log ++ [(id, bytes, base + (s.staticOffArr id.toNat).toNat)])
      (placed s id.toNat (base + (s.staticOffArr id.toNat).toNat) bytes) := by
  have hb : ¬ Bumped s₀ id.toNat := by
    rw [h.staticArr] at hoff
    exact fun hb => hoff hb.2
  obtain ⟨hin, hap⟩ := h.claims_placed (placed s id.toNat
      (base + (s.staticOffArr id.toNat).toNat) bytes) hb rfl rfl rfl
  refine ⟨h.mode, h.pool, h.staticArr, h.vtcmArr, h.poolCap, h.vtcmSize, h.used_ge, h.used_le,
    h.vtcmPool, ?_, ?_, hin, hap⟩
  · intro e he hv
    rcases List.mem_append.mp he with he | he
    · exact h.inVtcm e he hv
    · rw [List.mem_singleton] at he
      subst he
      rw [h.vtcmArr] at hnv
      exact absurd hnv hv
  · intro e he hv hs
    rcases List.mem_append.mp he with he | he
    · exact h.inTable e he hv hs
    · rw [List.mem_singleton] at he
      subst he
      show base ≤ base + _ ∧ base + _ + bytes.toNat ≤ _
      omega

theorem RegionInv.log_bump (h : RegionInv s₀ base log s) (hb : Bumped s₀ id.toNat)
    (bytes : UInt32) (a : ℕ) :
    (∀ e ∈ log ++ [(id, bytes, a)], s₀.vtcmOffArr e.1.toNat ≠ noOffset →
      ∃ vb, s.vtcmPool = some vb ∧ vb ≤ e.2.2 ∧
        e.2.2 + e.2.1.toNat ≤ vb + s₀.vtcmPoolSize.toNat) ∧
    ∀ e ∈ log ++ [(id, bytes, a)], s₀.vtcmOffArr e.1.toNat = noOffset →
      s₀.staticOffArr e.1.toNat ≠ noOffset →
      base ≤ e.2.2 ∧ e.2.2 + e.2.1.toNat ≤ base + s₀.poolUsed.toNat := by
  constructor
  · intro e he hv
    rcases List.mem_append.mp he with he | he
    · exact h.inVtcm e he hv
    · rw [List.mem_singleton] at he
      subst he
      exact absurd hb.1 hv
  · intro e he hv hs
    rcases List.mem_append.mp he with he | he
    · exact h.inTable e he hv hs
    · rw [List.mem_singleton] at he
      subst he
      exact absurd hb.2 hs

theorem RegionInv.bump (h : RegionInv s₀ base log s) (hb : Bumped s₀ id.toNat)
    (hbytes : bytes.toNat + 127 < 2 ^ 32)
    (hsum : s.poolUsed.toNat + (aligned bytes).toNat < 2 ^ 32)
    (hroom : s.poolUsed + aligned bytes ≤ s.poolCap) :
    RegionInv s₀ base (log ++ [(id, bytes, base + s.poolUsed.toNat)])
      { placed s id.toNat (base + s.poolUsed.toNat) bytes with
        poolUsed := s.poolUsed + aligned bytes } := by
  have hlines := (aligned_spec hbytes).1
  have hnat : (s.poolUsed + aligned bytes).toNat = s.poolUsed.toNat + (aligned bytes).toNat := by
    rw [UInt32.toNat_add]
    exact Nat.mod_eq_of_lt hsum
  have hcap : s.poolUsed.toNat + (aligned bytes).toNat ≤ s₀.poolCap.toNat := by
    rw [← hnat, ← h.poolCap]
    exact UInt32.le_iff_toNat_le.mp hroom
  have hused : s.poolUsed.toNat ≤ (s.poolUsed + aligned bytes).toNat := by omega
  have hnew : ∀ t lo hi, Claimed s₀ { placed s id.toNat (base + s.poolUsed.toNat) bytes with
        poolUsed := s.poolUsed + aligned bytes } (log ++ [(id, bytes, base + s.poolUsed.toNat)])
        t lo hi →
      (∃ hi', hi ≤ hi' ∧ Claimed s₀ s log t lo hi') ∨ t = id.toNat ∧
        base + s.poolUsed.toNat ≤ lo ∧ hi ≤ base + (s.poolUsed + aligned bytes).toNat := by
    rintro t lo hi ⟨hbump, hc⟩
    by_cases ht : t = id.toNat
    · subst ht
      rcases hc with ⟨htemp, hhi⟩ | ⟨e, he, het, hlo, hhi⟩
      · simp only [placed, Function.update_self, Option.some.injEq] at htemp hhi
        exact .inr ⟨rfl, by omega, by rw [hnat]; omega⟩
      · rcases List.mem_append.mp he with he | he
        · exact .inl ⟨hi, le_rfl, hbump, .inr ⟨e, he, het, hlo, hhi⟩⟩
        · rw [List.mem_singleton] at he
          subst he
          have hhi' : hi = lo + bytes.toNat := hhi
          have hlo' : lo = base + s.poolUsed.toNat := hlo
          exact .inr ⟨rfl, by omega, by omega⟩
    · refine .inl ⟨hi, le_rfl, hbump, ?_⟩
      rcases hc with ⟨htemp, hhi⟩ | ⟨e, he, het, hlo, hhi⟩
      · simp only [placed, Function.update_of_ne ht] at htemp hhi
        exact .inl ⟨htemp, hhi⟩
      · rcases List.mem_append.mp he with he | he
        · exact .inr ⟨e, he, het, hlo, hhi⟩
        · rw [List.mem_singleton] at he
          subst he
          exact absurd het.symm ht
  obtain ⟨hin, hap⟩ := h.claims hused hnew
  obtain ⟨hvtcm, htable⟩ := h.log_bump hb bytes (base + s.poolUsed.toNat)
  have hge := h.used_ge
  refine ⟨h.mode, h.pool, h.staticArr, h.vtcmArr, h.poolCap, h.vtcmSize, ?_, ?_, h.vtcmPool, hvtcm,
    htable, hin, hap⟩
  · show _ ≤ (s.poolUsed + aligned bytes).toNat
    omega
  · show (s.poolUsed + aligned bytes).toNat ≤ _
    omega

theorem RegionInv.kept (h : RegionInv s₀ base log s) {a : ℕ} (hb : Bumped s₀ id.toNat)
    (hcur : s.temps id.toNat = some a) (hle : bytes ≤ s.tempBytes id.toNat) :
    RegionInv s₀ base (log ++ [(id, bytes, a)])
      { s with lastBytes := Function.update s.lastBytes id.toNat bytes } := by
  have hnat := UInt32.le_iff_toNat_le.mp hle
  have hnew : ∀ t lo hi, Claimed s₀ { s with
        lastBytes := Function.update s.lastBytes id.toNat bytes } (log ++ [(id, bytes, a)]) t lo hi →
      (∃ hi', hi ≤ hi' ∧ Claimed s₀ s log t lo hi') ∨ t = id.toNat ∧
        base + s.poolUsed.toNat ≤ lo ∧ hi ≤ base + s.poolUsed.toNat := by
    rintro t lo hi ⟨hbump, hc⟩
    rcases hc with hc | ⟨e, he, het, hlo, hhi⟩
    · exact .inl ⟨hi, le_rfl, hbump, .inl hc⟩
    · rcases List.mem_append.mp he with he | he
      · exact .inl ⟨hi, le_rfl, hbump, .inr ⟨e, he, het, hlo, hhi⟩⟩
      · rw [List.mem_singleton] at he
        subst he
        have hhi' : hi = lo + bytes.toNat := hhi
        have hlo' : lo = a := hlo
        subst hlo' het
        exact .inl ⟨lo + (s.tempBytes id.toNat).toNat, by omega, hbump, .inl ⟨hcur, rfl⟩⟩
  obtain ⟨hin, hap⟩ := h.claims le_rfl hnew
  obtain ⟨hvtcm, htable⟩ := h.log_bump hb bytes a
  exact ⟨h.mode, h.pool, h.staticArr, h.vtcmArr, h.poolCap, h.vtcmSize, h.used_ge, h.used_le,
    h.vtcmPool, hvtcm, htable, hin, hap⟩

theorem RegionInv.call (hsep : VtcmApart env base s₀.poolCap) (h : RegionInv s₀ base log s)
    {c : UInt32 × UInt32} (hok : CallOk s₀.poolUsed.toNat s c) :
    ∃ v s', tempGet env c.1 c.2 s = (.ok v, s') ∧
      RegionInv s₀ base (log ++ (v.map fun a => (c.1, c.2, a)).toList) s' := by
  obtain ⟨v, s', hget, hgot⟩ := tempGet_got env c.1 c.2 h.mode h.pool
  refine ⟨v, s', hget, ?_⟩
  unfold CallOk at hok
  cases hgot with
  | none ready n =>
    show RegionInv s₀ base (log ++ []) _
    rw [List.append_nil]
    exact h.none ready n
  | vtcm vb ready n hoff hfit hvp =>
    rw [if_pos hoff] at hok
    rcases hok with hbig | hnat
    · exact absurd hfit (UInt32.not_le.mpr hbig)
    · exact h.vtcm hsep ready n hoff hnat hvp
  | table hnv hoff hfit =>
    rw [if_neg (not_not.mpr hnv), if_pos hoff] at hok
    rcases hok with hbig | hnat
    · exact absurd hfit (UInt32.not_le.mpr hbig)
    · exact h.table hnv hoff hnat
  | bump hnv hns hroom =>
    rw [if_neg (not_not.mpr hnv), if_neg (not_not.mpr hns)] at hok
    rcases hok with hbig | ⟨hbytes, hsum⟩
    · exact absurd hroom (UInt32.not_le.mpr hbig)
    · rw [h.vtcmArr] at hnv
      rw [h.staticArr] at hns
      exact h.bump ⟨hnv, hns⟩ hbytes hsum hroom
  | kept a hnv hns hcur hle =>
    rw [h.vtcmArr] at hnv
    rw [h.staticArr] at hns
    exact h.kept ⟨hnv, hns⟩ hcur hle

theorem RegionInv.run (hsep : VtcmApart env base s₀.poolCap) (h : RegionInv s₀ base log s)
    {calls : List (UInt32 × UInt32)} (hok : CallsOk env s₀.poolUsed.toNat s calls) :
    ∃ addrs s', getAll env calls s = (.ok addrs, s') ∧
      RegionInv s₀ base (log ++ regions calls addrs) s' := by
  induction calls generalizing s log with
  | nil =>
    refine ⟨[], s, rfl, ?_⟩
    show RegionInv s₀ base (log ++ []) s
    rw [List.append_nil]
    exact h
  | cons c calls ih =>
    obtain ⟨hc, hrest⟩ := hok
    obtain ⟨v, t, hget, hinv⟩ := h.call hsep hc
    rw [hget] at hrest
    obtain ⟨addrs, s', hrun, hinv'⟩ := ih hinv hrest
    refine ⟨v :: addrs, s', ?_, ?_⟩
    · show (tempGet env c.1 c.2 >>= _ : Exec (List (Option ℕ))) s = _
      rw [bind_apply_ok hget]
      exact bind_apply_ok hrun
    · rw [List.append_assoc] at hinv'
      cases v with
      | none => exact hinv'
      | some a => exact hinv'

theorem RegionInv.regionsOk (h : RegionInv s₀ base log s) : RegionsOk s₀ base s log := by
  have hge := h.used_ge
  have hle := h.used_le
  have hclaim : ∀ e ∈ log, Bumped s₀ e.1.toNat →
      Claimed s₀ s log e.1.toNat e.2.2 (e.2.2 + e.2.1.toNat) := fun e he hb =>
    ⟨hb, .inr ⟨e, he, rfl, rfl, rfl⟩⟩
  constructor
  · intro e he hnv
    by_cases hs : s₀.staticOffArr e.1.toNat = noOffset
    · have := h.inside _ _ _ (hclaim e he ⟨hnv, hs⟩)
      omega
    · have := h.inTable e he hnv hs
      omega
  · exact fun e he hv => h.inVtcm e he hv
  · intro e he e' he' hne hb'
    have hin' := h.inside _ _ _ (hclaim e' he' hb')
    by_cases hnv : s₀.vtcmOffArr e.1.toNat = noOffset
    · by_cases hs : s₀.staticOffArr e.1.toNat = noOffset
      · have hids : e.1.toNat ≠ e'.1.toNat := fun heq => hne (UInt32.toNat_inj.mp heq)
        exact h.apart _ _ _ _ _ _ hids (hclaim e he ⟨hnv, hs⟩) (hclaim e' he' hb')
      · have := h.inTable e he hnv hs
        omega
    · obtain ⟨vb, hvb, hin⟩ := h.inVtcm e he hnv
      have := h.vtcmPool vb hvb
      omega

end Steps

/-! ### From the load of the table on -/

theorem static_le_pool {cap reserve : UInt32} (hcap : cap ≤ 0x80000000) :
    cap.toNat ≤ (cap + (reserve &&& 0xFFFF) * 1024).toNat := by
  have hlow : (reserve &&& 0xFFFF).toNat < 2 ^ 16 := by
    rw [UInt32.toNat_and]
    exact Nat.and_lt_two_pow _ (by decide)
  have hres := toNat_kib_le _ hlow
  have hle : cap.toNat ≤ 2 ^ 31 := UInt32.le_iff_toNat_le.mp hcap
  rw [UInt32.toNat_add]
  omega

theorem regionInv_load {b : WtBlob} {s s₀ : ExecState} {base : ℕ}
    (hcold : s.staticOffsets = false) (hfresh : ∀ t, s.temps t = none)
    (hload : wtExecLoadTempoff env b s = (.ok (), s₀)) (hmode : s₀.staticOffsets = true)
    (hpool : s₀.pool = some base) : RegionInv s₀ base [] s₀ := by
  rw [loadTempoff_cold hcold] at hload
  rcases loadFirst_cases env b.weight b.slots with ⟨-, hnone⟩ | ⟨slot, -, hslot⟩
  · rw [hnone] at hload
    obtain ⟨-, rfl⟩ := Prod.mk.inj hload
    have hoff : s.staticOffsets = true := hmode
    rw [hcold] at hoff
    cases hoff
  · rw [hslot] at hload
    obtain ⟨base', hne, hcap, heq⟩ := loadSlot_eq_ok hload
    obtain ⟨sa, va, hfold⟩ := foldl_store_frame _ { clearOffsets s with tick := s.tick + 1 }
    unfold loadedState at heq
    rw [hfold] at heq
    have htemps : ∀ t, s₀.temps t = none := by
      intro t
      rw [heq]
      exact hfresh t
    have hvtcm : s₀.vtcmPool = none := by
      rw [heq]
      rfl
    have hused : s₀.poolUsed.toNat ≤ s₀.poolCap.toNat := by
      rw [heq]
      show UInt32.toNat (if _ then _ else _) ≤ UInt32.toNat (_ + _)
      rw [if_pos hne]
      exact static_le_pool hcap
    have hclaim : ∀ t lo hi, ¬ Claimed s₀ s₀ [] t lo hi := by
      rintro t lo hi ⟨-, ⟨ht, -⟩ | ⟨e, he, -⟩⟩
      · rw [htemps t] at ht
        cases ht
      · cases he
    refine ⟨hmode, hpool, rfl, rfl, rfl, rfl, le_rfl, hused, ?_, by simp, by simp, ?_, ?_⟩
    · intro vb hvb
      rw [hvtcm] at hvb
      cases hvb
    · exact fun t lo hi hc => absurd hc (hclaim t lo hi)
    · exact fun t t' lo hi lo' hi' _ hc => absurd hc (hclaim t lo hi)

/-- After a table is accepted in a state without temps, calls of `temp_get` that are in order
return regions inside their pools, and none overlaps the one of another temp that the bump
allocator placed. SOURCE: oplist_exec.c:257-335, 360-368, 2012-2066 -/
theorem regions_apart {env : Env} {b : WtBlob} {s s₀ : ExecState} {base : ℕ}
    {calls : List (UInt32 × UInt32)} (hcold : s.staticOffsets = false)
    (hfresh : ∀ t, s.temps t = none) (hload : wtExecLoadTempoff env b s = (.ok (), s₀))
    (hmode : s₀.staticOffsets = true) (hpool : s₀.pool = some base)
    (hsep : VtcmApart env base s₀.poolCap) (hok : CallsOk env s₀.poolUsed.toNat s₀ calls) :
    ∃ addrs s', getAll env calls s₀ = (.ok addrs, s') ∧
      RegionsOk s₀ base s' (regions calls addrs) := by
  have hinit := regionInv_load hcold hfresh hload hmode hpool
  obtain ⟨addrs, s', hrun, hinv⟩ := hinit.run hsep hok
  exact ⟨addrs, s', hrun, hinv.regionsOk⟩

/-- A blob whose table has 128 bytes of static area, 4 MiB of reserve and temp 0 at offset 0. -/
def oneTempBlob : WtBlob where
  ver := 1
  slots := [⟨24, 6, 0, wtSlotTempoff⟩]
  ops := []
  weightOff := 0
  weight := u32le 128 ++ u32le 4096 ++ u32le 1 ++ u32le 0 ++ u32le 0 ++ u32le 128

def apartEnv : Env := { grantingEnv with memalign := fun _ _ => some 0x10000000 }

/-- The device after the table is loaded. -/
def oneTempLoaded : ExecState := (wtExecLoadTempoff apartEnv oneTempBlob coldState).2

theorem oneTemp_load :
    wtExecLoadTempoff apartEnv oneTempBlob coldState = (.ok (), oneTempLoaded) := rfl

theorem apartEnv_vtcm : VtcmApart apartEnv 0x10000000 oneTempLoaded.poolCap := by
  rintro n first vs pc hlay
  left
  obtain ⟨hfirst, hrest⟩ := Prod.mk.inj hlay
  obtain ⟨rfl, -⟩ := Prod.mk.inj hrest
  obtain rfl := Option.some.inj hfirst
  decide

theorem oneTemp_callsOk :
    CallsOk apartEnv oneTempLoaded.poolUsed.toNat oneTempLoaded [(1, 128), (0, 128), (1, 300)] := by
  refine ⟨?_, ?_, ?_, trivial⟩
  all_goals
    unfold CallOk
    decide

/-- A temp of the table between two calls for one that is not in it. -/
theorem oneTemp_regions_apart :
    ∃ addrs s', getAll apartEnv [(1, 128), (0, 128), (1, 300)] oneTempLoaded = (.ok addrs, s') ∧
      RegionsOk oneTempLoaded 0x10000000 s'
        (regions [(1, 128), (0, 128), (1, 300)] addrs) :=
  regions_apart rfl (fun _ => rfl) oneTemp_load rfl rfl apartEnv_vtcm oneTemp_callsOk

/-- Temp 1 is placed behind the static area; then temp 0 asks for more than its 128 bytes, and
gets the bytes of temp 1 as well. -/
theorem grownTemp_overlaps :
    (getAll apartEnv [(1, 128), (0, 256)] oneTempLoaded).1 =
        .ok [some 0x10000080, some 0x10000000] ∧
      ∀ s', ¬ RegionsOk oneTempLoaded 0x10000000 s'
        (regions [(1, 128), (0, 256)] [some 0x10000080, some 0x10000000]) := by
  refine ⟨rfl, fun s' h => ?_⟩
  have := h.apart (0, 256, 0x10000000) (by simp [regions]) (1, 128, 0x10000080)
    (by simp [regions]) (by decide) ⟨rfl, rfl⟩
  revert this
  decide

end Gehtp.Analysis.TempRegions
