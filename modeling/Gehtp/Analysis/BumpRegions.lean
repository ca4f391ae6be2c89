import Gehtp.Analysis.TempDisjoint

/-!
# Temps without a table

Without a table every temp is placed by the bump allocator: behind the bytes that are used, in whole
lines, and in a new and larger pool when the old one is full. The old pool is not given back, so a
temp that keeps its place stays in the pool that was the current one when it was placed. All sums
are taken in 32 bits, and doubling the capacity passes `2 ^ 31` bytes only by wrapping to 0, where
it stays; a request above that never returns.
-/

set_option autoImplicit false

namespace Gehtp.Analysis.BumpRegions

open Lib Lib.Machine Model.OplistExec Model.TempRun Analysis.TempDisjoint

/-! ### Growing the pool -/

/-- The capacities that doubling passes through. -/
def PoolSize (cap : UInt32) : Prop := ∃ j ≤ 5, cap.toNat = 2 ^ (26 + j)

theorem PoolSize.first : PoolSize 0x4000000 := ⟨0, by decide, rfl⟩

theorem growCap_some {need : UInt32} (hneed : need.toNat ≤ 2 ^ 31) {j n : ℕ} {cap : UInt32}
    (hj : j ≤ 5) (hcap : cap.toNat = 2 ^ (26 + j)) (hn : 5 < n + j) :
    ∃ ncap, growCap n cap need = some ncap ∧ PoolSize ncap ∧ need ≤ ncap := by
  induction n generalizing j cap with
  | zero => omega
  | succ n ih =>
    unfold growCap
    by_cases hlt : cap < need
    · rw [if_pos hlt]
      rw [UInt32.lt_iff_toNat_lt] at hlt
      have hj5 : j ≠ 5 := by
        rintro rfl
        rw [hcap] at hlt
        omega
      refine ih (j := j + 1) (by omega) ?_ (by omega)
      have hpow : 2 ^ (26 + j) ≤ 2 ^ 30 := Nat.pow_le_pow_right (by decide) (by omega)
      rw [UInt32.toNat_mul, show (2 : UInt32).toNat = 2 from rfl, hcap,
        Nat.mod_eq_of_lt (by omega), ← Nat.pow_succ]
      rfl
    · rw [if_neg hlt]
      exact ⟨cap, rfl, ⟨j, hj, hcap⟩, UInt32.not_lt.mp hlt⟩

/-! ### Runs -/

/-- No table is loaded and no temp is placed: the process has started or the executor has been shut
down. -/
structure Fresh (s : ExecState) : Prop where
  mode : s.staticOffsets = false
  vtcm : ∀ t, s.vtcmOffArr t = noOffset
  temps : ∀ t, s.temps t = none
  pool : s.pool = none
  cap : s.poolCap = 0
  used : s.poolUsed = 0

/-- The state after calls of `temp_get`: an id and a number of bytes each. -/
def after (env : Env) (s : ExecState) (calls : List (UInt32 × UInt32)) : ExecState :=
  calls.foldl (fun s c => (tempGet env c.1 c.2 s).2) s

theorem after_concat (env : Env) (s : ExecState) (calls : List (UInt32 × UInt32))
    (c : UInt32 × UInt32) :
    after env s (calls ++ [c]) = (tempGet env c.1 c.2 (after env s calls)).2 := by
  rw [after, List.foldl_append]
  rfl

/-- The temp has a region that is large enough, and keeps it. SOURCE: oplist_exec.c:312 -/
def Kept (s : ExecState) (id : ℕ) (bytes : UInt32) : Prop :=
  ∃ a, s.temps id = some a ∧ bytes ≤ s.tempBytes id

/-- The sums of placing so many bytes neither wrap nor pass `2 ^ 31`. -/
def SumsFit (s : ExecState) (bytes : UInt32) : Prop :=
  bytes.toNat + 127 < 2 ^ 32 ∧ s.poolUsed.toNat + (aligned bytes).toNat ≤ 2 ^ 31

/-- The call places no temp, or its sums fit. -/
def Fits (s : ExecState) (c : UInt32 × UInt32) : Prop :=
  maxTemps ≤ c.1.toNat ∨ Kept s c.1.toNat c.2 ∨ SumsFit s c.2

/-- All calls are such, each in the state in which it is made. -/
def AllFit (env : Env) (s : ExecState) (calls : List (UInt32 × UInt32)) : Prop :=
  ∀ pre c, pre ++ [c] <+: calls → Fits (after env s pre) c

/-- Blocks of memory that are handed out do not overlap; none is given back in a run. -/
def BlocksApart (env : Env) : Prop :=
  ∀ n n' size size' a a', n ≠ n' → env.memalign n size = some a →
    env.memalign n' size' = some a' → a + size.toNat ≤ a' ∨ a' + size'.toNat ≤ a

/-- The temp is at `a`, and `bytes` bytes from there on lie inside the current pool. -/
def InPool (s : ExecState) (id a : ℕ) (bytes : UInt32) : Prop :=
  s.temps id = some a ∧ ∃ p, s.pool = some p ∧ p ≤ a ∧ a + bytes.toNat ≤ p + s.poolCap.toNat

/-- The region of a temp after the calls: at least the bytes that were asked for, inside the pool
that was the current one when the temp was placed, and apart from the regions of all other temps. -/
structure RegionOk (env : Env) (s₀ : ExecState) (calls : List (UInt32 × UInt32)) (id a : ℕ)
    (bytes : UInt32) : Prop where
  temp : (after env s₀ calls).temps id = some a
  enough : bytes ≤ (after env s₀ calls).tempBytes id
  inside : ∃ pre, pre <+: calls ∧
    InPool (after env s₀ pre) id a ((after env s₀ calls).tempBytes id)
  apart : ∀ t b, t ≠ id → (after env s₀ calls).temps t = some b →
    a + ((after env s₀ calls).tempBytes id).toNat ≤ b ∨
      b + ((after env s₀ calls).tempBytes t).toNat ≤ a

/-! ### What a call does -/

/-- A temp behind the used bytes of the pool. SOURCE: oplist_exec.c:329-334 -/
def bumped (s : ExecState) (id : ℕ) (bytes : UInt32) : ExecState :=
  { s with
    temps := Function.update s.temps id (s.pool.map (· + s.poolUsed.toNat))
    tempBytes := Function.update s.tempBytes id bytes
    lastBytes := Function.update s.lastBytes id bytes
    poolUsed := s.poolUsed + aligned bytes }

theorem bumped_temps_self (s : ExecState) (id : ℕ) (bytes : UInt32) :
    (bumped s id bytes).temps id = s.pool.map (· + s.poolUsed.toNat) := Function.update_self ..

theorem bumped_bytes_self (s : ExecState) (id : ℕ) (bytes : UInt32) :
    (bumped s id bytes).tempBytes id = bytes := Function.update_self ..

variable {n : UInt32} {t m p a i : ℕ} {v : Option ℕ} {s' : ExecState}

theorem bumped_temps_of_ne (s : ExecState) {id : ℕ} (bytes : UInt32) (h : t ≠ id) :
    (bumped s id bytes).temps t = s.temps t := Function.update_of_ne h ..

theorem bumped_bytes_of_ne (s : ExecState) {id : ℕ} (bytes : UInt32) (h : t ≠ id) :
    (bumped s id bytes).tempBytes t = s.tempBytes t := Function.update_of_ne h ..

theorem tempEntry_bumped {id : ℕ} {bytes : UInt32} (hid : id < maxTemps) (s : ExecState) :
    tempEntry (·.temps) id (bumped s id bytes) =
      (.ok (s.pool.map (· + s.poolUsed.toNat)), bumped s id bytes) := by
  rw [tempEntry_apply _ hid, bumped_temps_self]

/-- A new pool. SOURCE: oplist_exec.c:326-327 -/
def grownTo (s : ExecState) (p : ℕ) (ncap : UInt32) : ExecState :=
  { s with pool := some p, poolCap := ncap, tick := s.tick + 1 }

/-- The outcomes of a call. -/
inductive Got (env : Env) (id bytes : UInt32) (s : ExecState) : Option ℕ → ExecState → Prop
  | refused (n : ℕ) (h : s.tick ≤ n) : Got env id bytes s none { s with tick := n }
  | kept (a : ℕ) (ha : s.temps id.toNat = some a) (hle : bytes ≤ s.tempBytes id.toNat) :
      Got env id bytes s (some a)
        { s with lastBytes := Function.update s.lastBytes id.toNat bytes }
  | inPlace (hfit : SumsFit s bytes) (hroom : s.poolUsed + aligned bytes ≤ s.poolCap) :
      Got env id bytes s (s.pool.map (· + s.poolUsed.toNat)) (bumped s id.toNat bytes)
  | grown (p : ℕ) (ncap : UInt32) (hfit : SumsFit s bytes) (hcap : PoolSize ncap)
      (hroom : s.poolUsed + aligned bytes ≤ ncap) (hp : env.memalign s.tick ncap = some p) :
      Got env id bytes s (some (p + s.poolUsed.toNat)) (bumped (grownTo s p ncap) id.toNat bytes)

section Calls

variable {env : Env} {id bytes : UInt32} {s : ExecState}

/-- The capacity that the loop starts from. SOURCE: oplist_exec.c:316 -/
def firstCap (cap : UInt32) : UInt32 := if cap ≠ 0 then cap else 0x4000000

theorem firstCap_size {cap : UInt32} (h : cap = 0 ∨ PoolSize cap) : PoolSize (firstCap cap) := by
  unfold firstCap
  rcases h with rfl | h
  · exact PoolSize.first
  · split
    · exact h
    · exact PoolSize.first

theorem tempGet_bump (hmode : s.staticOffsets = false) (hvtcm : ∀ t, s.vtcmOffArr t = noOffset)
    (hid : id.toNat < maxTemps) : tempGet env id bytes s = tempBump env id.toNat bytes s := by
  unfold tempGet
  rw [if_neg (by omega), bind_apply_ok (tempEntry_apply _ hid s), if_neg (not_not.mpr (hvtcm _))]
  unfold tempGetDdr
  rw [bind_apply_ok (t := s) (a := (false, s.pool)) (by rw [← hmode]; rfl)]

theorem growPool_full (env : Env) (hmode : s.staticOffsets = false)
    (hfull : s.poolCap < s.poolUsed + n) :
    growPool env n s =
      (match growCap 33 (firstCap s.poolCap) (s.poolUsed + n) with
        | none => hang
        | some ncap => (do
          let np ← ask (env.memalign · ncap)
          match np with
          | none => pure false
          | some p => do
            update fun s => { s with pool := some p, poolCap := ncap }
            pure true : Exec Bool)) s := by
  show (if s.poolCap < s.poolUsed + n then if s.staticOffsets then pure false else _
    else pure true : Exec Bool) s = _
  rw [if_pos hfull, hmode]
  rfl

theorem tempGet_got (hmode : s.staticOffsets = false) (hvtcm : ∀ t, s.vtcmOffArr t = noOffset)
    (hcap : s.poolCap = 0 ∨ PoolSize s.poolCap) (hfit : Fits s (id, bytes)) :
    ∃ v s', tempGet env id bytes s = (.ok v, s') ∧ Got env id bytes s v s' := by
  by_cases hid : maxTemps ≤ id.toNat
  · refine ⟨none, s, ?_, .refused s.tick le_rfl⟩
    unfold tempGet
    rw [if_pos hid]
    rfl
  rw [not_le] at hid
  rw [tempGet_bump hmode hvtcm hid]
  unfold tempBump
  rw [bind_apply_ok (tempEntry_apply _ hid s), bind_apply_ok (tempEntry_apply _ hid s)]
  by_cases hnew : s.temps id.toNat = none ∨ s.tempBytes id.toNat < bytes
  · rw [if_pos hnew]
    have hsums : SumsFit s bytes := by
      rcases hfit with hout | ⟨a, ha, hle⟩ | hsums
      · exact absurd hid (not_lt.mpr hout)
      · rcases hnew with hnone | hlt
        · rw [hnone] at ha
          cases ha
        · exact absurd hle (UInt32.not_le.mpr hlt)
      · exact hsums
    have hneed : (s.poolUsed + aligned bytes).toNat ≤ 2 ^ 31 := by
      rw [UInt32.toNat_add]
      exact (Nat.mod_le _ _).trans hsums.2
    by_cases hfull : s.poolCap < s.poolUsed + aligned bytes
    · obtain ⟨j, hj, hfirst⟩ := firstCap_size hcap
      obtain ⟨ncap, hgrow, hsize, henough⟩ :=
        growCap_some hneed hj hfirst (show 5 < 33 + j by omega)
      have hpool := growPool_full env hmode hfull
      rw [hgrow] at hpool
      cases hp : env.memalign s.tick ncap with
      | none =>
        have hnull : growPool env (aligned bytes) s = (.ok false, { s with tick := s.tick + 1 }) := by
          rw [hpool]
          show ((match env.memalign s.tick ncap with
            | none => pure false
            | some p => _ : Exec Bool) _) = _
          rw [hp]
          rfl
        refine ⟨none, _, ?_, .refused (s.tick + 1) (Nat.le_succ _)⟩
        exact bind_apply_ok hnull
      | some p =>
        have hgot : growPool env (aligned bytes) s =
            (.ok true, grownTo s p ncap) := by
          rw [hpool]
          show ((match env.memalign s.tick ncap with
            | none => pure false
            | some p => _ : Exec Bool) _) = _
          rw [hp]
          rfl
        refine ⟨some (p + s.poolUsed.toNat), _, ?_, .grown p ncap hsums hsize henough hp⟩
        show (growPool env (aligned bytes) >>= _ : Exec (Option ℕ)) s = _
        rw [bind_apply_ok hgot]
        exact tempEntry_bumped hid (grownTo s p ncap)
    · have hok : growPool env (aligned bytes) s = (.ok true, s) := by
        show (if s.poolCap < s.poolUsed + aligned bytes then _ else pure true : Exec Bool) s = _
        rw [if_neg hfull]
        rfl
      refine ⟨s.pool.map (· + s.poolUsed.toNat), _, ?_,
        .inPlace hsums (UInt32.not_lt.mp hfull)⟩
      show (growPool env (aligned bytes) >>= _ : Exec (Option ℕ)) s = _
      rw [bind_apply_ok hok]
      exact tempEntry_bumped hid s
  · rw [if_neg hnew]
    rw [not_or, UInt32.not_lt] at hnew
    obtain ⟨a, ha⟩ := Option.ne_none_iff_exists'.mp hnew.1
    refine ⟨some a, _, ?_, .kept a ha hnew.2⟩
    rw [ha]
    rfl

end Calls

/-! ### The invariant -/

/-- The region of a temp lies in the used part of the pool `p`, which was the answer number `m`, or
in a block that was handed out before. -/
def Housed (env : Env) (s : ExecState) (m p a : ℕ) (bytes : UInt32) : Prop :=
  p ≤ a ∧ a + bytes.toNat ≤ p + s.poolUsed.toNat ∨
    ∃ n < m, ∃ size p', env.memalign n size = some p' ∧ p' ≤ a ∧
      a + bytes.toNat ≤ p' + size.toNat

/-- There is no pool and no temp, or the current pool is a block that was handed out and each temp
has its region in it or in an earlier one. -/
def PoolsOk (env : Env) (s : ExecState) : Prop :=
  (s.pool = none ∧ s.poolCap = 0 ∧ ∀ t, s.temps t = none) ∨
    ∃ m < s.tick, ∃ p, s.pool = some p ∧ env.memalign m s.poolCap = some p ∧
      ∀ t a, s.temps t = some a → Housed env s m p a (s.tempBytes t)

/-- What holds between two calls. -/
structure BumpInv (env : Env) (s : ExecState) : Prop where
  mode : s.staticOffsets = false
  vtcm : ∀ t, s.vtcmOffArr t = noOffset
  cap : s.poolCap = 0 ∨ PoolSize s.poolCap
  used_le : s.poolUsed.toNat ≤ s.poolCap.toNat
  pools : PoolsOk env s
  apart : ∀ t t' a b, t ≠ t' → s.temps t = some a → s.temps t' = some b →
    a + (s.tempBytes t).toNat ≤ b ∨ b + (s.tempBytes t').toNat ≤ a

section Steps

variable {env : Env} {id bytes : UInt32} {s : ExecState}

theorem Fresh.inv (h : Fresh s) : BumpInv env s where
  mode := h.mode
  vtcm := h.vtcm
  cap := .inl h.cap
  used_le := by
    rw [h.used]
    exact Nat.zero_le _
  pools := .inl ⟨h.pool, h.cap, h.temps⟩
  apart := fun t t' a b _ ha => by
    rw [h.temps t] at ha
    cases ha

theorem SumsFit.covers (h : SumsFit s bytes) : bytes.toNat ≤ (aligned bytes).toNat :=
  (aligned_spec h.1).1

theorem SumsFit.sum (h : SumsFit s bytes) :
    (s.poolUsed + aligned bytes).toNat = s.poolUsed.toNat + (aligned bytes).toNat := by
  rw [UInt32.toNat_add]
  exact Nat.mod_eq_of_lt (h.2.trans_lt (by decide))

theorem Housed.apart (hapart : BlocksApart env) {size : UInt32} (h : Housed env s m p a n)
    (hp : env.memalign m size = some p) (hbytes : s.poolUsed.toNat + bytes.toNat ≤ size.toNat) :
    a + n.toNat ≤ p + s.poolUsed.toNat ∨ p + s.poolUsed.toNat + bytes.toNat ≤ a := by
  rcases h with ⟨-, hend⟩ | ⟨k, hk, size', p', hp', hlo, hhi⟩
  · exact .inl hend
  · have := hapart k m size' size p' p (by omega) hp' hp
    omega

/-- Placing a temp in a pool keeps its region apart from those of the others, when these are housed
in this pool or in earlier blocks. -/
theorem apart_of_bumped (hapart : BlocksApart env) (hpool : s.pool = some p)
    (hp : env.memalign m s.poolCap = some p)
    (hhoused : ∀ t a, s.temps t = some a → Housed env s m p a (s.tempBytes t))
    (hbytes : s.poolUsed.toNat + bytes.toNat ≤ s.poolCap.toNat)
    (h : ∀ t t' a b, t ≠ t' → s.temps t = some a → s.temps t' = some b →
      a + (s.tempBytes t).toNat ≤ b ∨ b + (s.tempBytes t').toNat ≤ a)
    {t' b : ℕ} (hne : t ≠ t') (ha : (bumped s i bytes).temps t = some a)
    (hb : (bumped s i bytes).temps t' = some b) :
    a + ((bumped s i bytes).tempBytes t).toNat ≤ b ∨
      b + ((bumped s i bytes).tempBytes t').toNat ≤ a := by
  by_cases ht : t = i
  · subst ht
    rw [bumped_temps_self, hpool] at ha
    rw [bumped_temps_of_ne s bytes (Ne.symm hne)] at hb
    rw [bumped_bytes_self, bumped_bytes_of_ne s bytes (Ne.symm hne)]
    obtain rfl := Option.some.inj ha
    exact ((hhoused t' b hb).apart hapart hp hbytes).symm
  · rw [bumped_temps_of_ne s bytes ht] at ha
    rw [bumped_bytes_of_ne s bytes ht]
    by_cases ht' : t' = i
    · subst ht'
      rw [bumped_temps_self, hpool] at hb
      rw [bumped_bytes_self]
      obtain rfl := Option.some.inj hb
      exact (hhoused t a ha).apart hapart hp hbytes
    · rw [bumped_temps_of_ne s bytes ht'] at hb
      rw [bumped_bytes_of_ne s bytes ht']
      exact h t t' a b hne ha hb

theorem housed_of_bumped (hpool : s.pool = some p) (hfit : SumsFit s bytes)
    (hhoused : ∀ t a, s.temps t = some a → Housed env s m p a (s.tempBytes t))
    (ha : (bumped s i bytes).temps t = some a) :
    Housed env (bumped s i bytes) m p a ((bumped s i bytes).tempBytes t) := by
  have hcovers := hfit.covers
  have hused : (bumped s i bytes).poolUsed.toNat = s.poolUsed.toNat + (aligned bytes).toNat :=
    hfit.sum
  by_cases ht : t = i
  · subst ht
    rw [bumped_temps_self, hpool] at ha
    obtain rfl : p + s.poolUsed.toNat = a := Option.some.inj ha
    rw [bumped_bytes_self]
    exact .inl ⟨Nat.le_add_right _ _, by omega⟩
  · rw [bumped_temps_of_ne s bytes ht] at ha
    rw [bumped_bytes_of_ne s bytes ht]
    rcases hhoused t a ha with ⟨hlo, hhi⟩ | hold
    · exact .inl ⟨hlo, by omega⟩
    · exact .inr hold

theorem region_of_bumped (hfit : SumsFit s bytes) (hroom : s.poolUsed + aligned bytes ≤ s.poolCap)
    (ha : (bumped s i bytes).temps t = some a) :
    s.temps t = some a ∧ (bumped s i bytes).tempBytes t = s.tempBytes t ∨
      InPool (bumped s i bytes) t a ((bumped s i bytes).tempBytes t) := by
  have hcovers := hfit.covers
  have hsum := hfit.sum
  have hle := UInt32.le_iff_toNat_le.mp hroom
  by_cases ht : t = i
  · subst ht
    refine .inr ⟨ha, ?_⟩
    rw [bumped_temps_self] at ha
    obtain ⟨p, hp, hpa⟩ := Option.map_eq_some_iff.mp ha
    rw [bumped_bytes_self]
    refine ⟨p, hp, by omega, ?_⟩
    show a + bytes.toNat ≤ p + s.poolCap.toNat
    omega
  · rw [bumped_temps_of_ne s bytes ht] at ha
    exact .inl ⟨ha, bumped_bytes_of_ne s bytes ht⟩

theorem Housed.old (h : Housed env s m p a n) (hp : env.memalign m s.poolCap = some p)
    (hused : s.poolUsed.toNat ≤ s.poolCap.toNat) {m' : ℕ} (hm : m < m') (p' : ℕ) :
    Housed env s m' p' a n := by
  rcases h with ⟨hlo, hhi⟩ | ⟨k, hk, hold⟩
  · exact .inr ⟨m, hm, s.poolCap, p, hp, hlo, by omega⟩
  · exact .inr ⟨k, hk.trans hm, hold⟩

theorem BumpInv.got (hapart : BlocksApart env) (h : BumpInv env s)
    (hgot : Got env id bytes s v s') : BumpInv env s' := by
  cases hgot with
  | refused n hn =>
    refine ⟨h.mode, h.vtcm, h.cap, h.used_le, ?_, h.apart⟩
    rcases h.pools with hnone | ⟨m, hm, hpool⟩
    · exact .inl hnone
    · exact .inr ⟨m, hm.trans_le hn, hpool⟩
  | kept a ha hle => exact ⟨h.mode, h.vtcm, h.cap, h.used_le, h.pools, h.apart⟩
  | inPlace hfit hroom =>
    have hcovers := hfit.covers
    have hsum := hfit.sum
    have hle : (s.poolUsed + aligned bytes).toNat ≤ s.poolCap.toNat :=
      UInt32.le_iff_toNat_le.mp hroom
    rcases h.pools with ⟨hpool, hcap, htemps⟩ | ⟨m, hm, p, hpool, hp, hhoused⟩
    · -- no pool and no bytes: the address is null
      have hnone : ∀ t, (bumped s id.toNat bytes).temps t = none := by
        intro t
        by_cases ht : t = id.toNat
        · rw [ht, bumped_temps_self, hpool]
          rfl
        · rw [bumped_temps_of_ne s bytes ht, htemps]
      refine ⟨h.mode, h.vtcm, h.cap, hle, .inl ⟨hpool, hcap, hnone⟩, fun t t' a b _ ha => ?_⟩
      cases (hnone t).symm.trans ha
    · refine ⟨h.mode, h.vtcm, h.cap, hle, .inr ⟨m, hm, p, hpool, hp, fun t a ha => ?_⟩, ?_⟩
      · exact housed_of_bumped hpool hfit hhoused ha
      · intro t t' a b hne ha hb
        exact apart_of_bumped hapart hpool hp hhoused (by omega) h.apart hne ha hb
  | grown p ncap hfit hcap hroom hp =>
    have hcovers := hfit.covers
    have hsum := hfit.sum
    have hle : (s.poolUsed + aligned bytes).toNat ≤ ncap.toNat := UInt32.le_iff_toNat_le.mp hroom
    have hhoused : ∀ t a, (grownTo s p ncap).temps t = some a →
        Housed env (grownTo s p ncap) s.tick p a ((grownTo s p ncap).tempBytes t) := by
      intro t a ha
      rcases h.pools with ⟨-, -, htemps⟩ | ⟨m, hm, p', -, hp', hhoused⟩
      · cases (htemps t).symm.trans ha
      · exact (hhoused t a ha).old hp' h.used_le hm p
    refine ⟨h.mode, h.vtcm, .inr hcap, hle, .inr ⟨s.tick, Nat.lt_succ_self _, p, rfl, hp,
      fun t a ha => ?_⟩, ?_⟩
    · exact housed_of_bumped (s := grownTo s p ncap) rfl hfit hhoused ha
    · intro t t' a b hne ha hb
      have hbytes : s.poolUsed.toNat + bytes.toNat ≤ ncap.toNat := by omega
      exact apart_of_bumped (s := grownTo s p ncap) hapart rfl hp hhoused hbytes h.apart hne ha hb

theorem Got.returned (hgot : Got env id bytes s v s') (hv : v = some a) :
    s'.temps id.toNat = some a ∧ bytes ≤ s'.tempBytes id.toNat := by
  cases hgot with
  | refused n hn => cases hv
  | kept b hb hle =>
    obtain rfl := Option.some.inj hv
    exact ⟨hb, hle⟩
  | inPlace hfit hroom =>
    rw [bumped_temps_self, bumped_bytes_self]
    exact ⟨hv, UInt32.le_refl bytes⟩
  | grown p ncap hfit hcap hroom hp =>
    rw [bumped_temps_self, bumped_bytes_self]
    exact ⟨hv, UInt32.le_refl bytes⟩

theorem Got.region (hgot : Got env id bytes s v s') (ha : s'.temps t = some a) :
    s.temps t = some a ∧ s'.tempBytes t = s.tempBytes t ∨ InPool s' t a (s'.tempBytes t) := by
  cases hgot with
  | refused n hn => exact .inl ⟨ha, rfl⟩
  | kept b hb hle => exact .inl ⟨ha, rfl⟩
  | inPlace hfit hroom => exact region_of_bumped hfit hroom ha
  | grown p ncap hfit hcap hroom hp =>
    exact region_of_bumped (s := grownTo s p ncap) hfit hroom ha

end Steps

/-! ### Runs that fit -/

/-- What holds after the calls: the invariant, and each temp was inside the current pool after some
of them with the region that it has now. -/
structure RunInv (env : Env) (s₀ : ExecState) (calls : List (UInt32 × UInt32)) : Prop where
  inv : BumpInv env (after env s₀ calls)
  placed : ∀ t a, (after env s₀ calls).temps t = some a → ∃ pre, pre <+: calls ∧
    InPool (after env s₀ pre) t a ((after env s₀ calls).tempBytes t)

section Runs

variable {env : Env} {s₀ : ExecState} {calls : List (UInt32 × UInt32)} {c : UInt32 × UInt32}

theorem AllFit.last (h : AllFit env s₀ (calls ++ [c])) : Fits (after env s₀ calls) c :=
  h calls c (List.prefix_refl _)

theorem AllFit.init (h : AllFit env s₀ (calls ++ [c])) : AllFit env s₀ calls :=
  fun pre d hpre => h pre d (hpre.trans (List.prefix_append _ _))

theorem AllFit.concat (h : AllFit env s₀ calls) (hc : Fits (after env s₀ calls) c) :
    AllFit env s₀ (calls ++ [c]) := by
  intro pre d hpre
  rcases List.prefix_concat_iff.mp hpre with heq | hpre
  · obtain ⟨rfl, hd⟩ := List.append_inj' heq rfl
    obtain rfl := List.singleton_inj.mp hd
    exact hc
  · exact h pre d hpre

theorem allFit_nil (env : Env) (s₀ : ExecState) : AllFit env s₀ [] := by
  rintro pre d ⟨rest, h⟩
  simp at h

theorem RunInv.step (hapart : BlocksApart env) (h : RunInv env s₀ calls)
    (hrun : tempGet env c.1 c.2 (after env s₀ calls) = (.ok v, s'))
    (hgot : Got env c.1 c.2 (after env s₀ calls) v s') : RunInv env s₀ (calls ++ [c]) := by
  have hafter : after env s₀ (calls ++ [c]) = s' := by
    rw [after_concat, hrun]
  constructor
  · rw [hafter]
    exact h.inv.got hapart hgot
  · rw [hafter]
    intro t a ha
    rcases hgot.region ha with ⟨hold, hbytes⟩ | hnew
    · obtain ⟨pre, hpre, hin⟩ := h.placed t a hold
      rw [hbytes]
      exact ⟨pre, hpre.trans (List.prefix_append _ _), hin⟩
    · exact ⟨calls ++ [c], List.prefix_refl _, by rwa [hafter]⟩

theorem runInv (hapart : BlocksApart env) (hfresh : Fresh s₀) (hfit : AllFit env s₀ calls) :
    RunInv env s₀ calls := by
  induction calls using List.reverseRecOn with
  | nil =>
    refine ⟨hfresh.inv, fun t a ha => ?_⟩
    rw [show after env s₀ [] = s₀ from rfl, hfresh.temps t] at ha
    cases ha
  | append_singleton calls c ih =>
    have h := ih hfit.init
    obtain ⟨v, s', hrun, hgot⟩ := tempGet_got h.inv.mode h.inv.vtcm h.inv.cap hfit.last
    exact h.step hapart hrun hgot

/-- Without a table, in a run of calls whose 32-bit sums fit, every call returns; a region that it
returns has the bytes that were asked for, lies in the pool that was the current one when the temp
was placed, and overlaps the region of no other temp. SOURCE: oplist_exec.c:307-335 -/
theorem bump_regions (hapart : BlocksApart env) (hfresh : Fresh s₀)
    (hfit : AllFit env s₀ (calls ++ [c])) :
    ∃ v, tempGet env c.1 c.2 (after env s₀ calls) = (.ok v, after env s₀ (calls ++ [c])) ∧
      ∀ a, v = some a → RegionOk env s₀ (calls ++ [c]) c.1.toNat a c.2 := by
  have h := runInv hapart hfresh hfit.init
  obtain ⟨v, s', hrun, hgot⟩ := tempGet_got h.inv.mode h.inv.vtcm h.inv.cap hfit.last
  have hafter : after env s₀ (calls ++ [c]) = s' := by
    rw [after_concat, hrun]
  have hnext := h.step hapart hrun hgot
  refine ⟨v, by rw [hafter, hrun], fun a hv => ?_⟩
  obtain ⟨htemp, henough⟩ := hgot.returned hv
  rw [← hafter] at htemp henough
  refine ⟨htemp, henough, hnext.placed _ a htemp, fun t b hne hb => ?_⟩
  exact hnext.inv.apart _ t a b (Ne.symm hne) htemp hb

end Runs

/-! ### A run that grows its pool -/

/-- Every block is 4 GiB behind the one before. -/
def spacedEnv : Env := { grantingEnv with memalign := fun n _ => some ((n + 1) * 2 ^ 32) }

/-- No temp has an offset: the state behind a blob without a table. -/
def bumpState : ExecState := clearOffsets coldState

theorem fresh_bumpState : Fresh bumpState := ⟨rfl, fun _ => rfl, fun _ => rfl, rfl, rfl, rfl⟩

theorem blocksApart_spacedEnv : BlocksApart spacedEnv := by
  intro n n' size size' a a' hne ha ha'
  obtain rfl := Option.some.inj ha
  obtain rfl := Option.some.inj ha'
  have := size.toNat_lt
  have := size'.toNat_lt
  omega

/-- Temp 0 is placed, then temp 1 in a pool of its own, and temp 0 is asked for again. -/
def grownPool : List (UInt32 × UInt32) := [(0, 128), (1, 0x4000000)]

theorem grownPool_fits : AllFit spacedEnv bumpState (grownPool ++ [(0, 128)]) := by
  have hfirst : AllFit spacedEnv bumpState ([] ++ [(0, 128)]) :=
    (allFit_nil _ _).concat (.inr (.inr ⟨by decide, by decide⟩))
  have hsecond : AllFit spacedEnv bumpState ([(0, 128)] ++ [(1, 0x4000000)]) :=
    hfirst.concat (.inr (.inr ⟨by decide, by decide⟩))
  exact hsecond.concat
    (.inr (.inl ⟨2 ^ 32, rfl, by decide⟩))

/-- A temp that is asked for again keeps its region. -/
theorem grownPool_region :
    ∃ v, tempGet spacedEnv 0 128 (after spacedEnv bumpState grownPool) =
        (.ok v, after spacedEnv bumpState (grownPool ++ [(0, 128)])) ∧
      ∀ a, v = some a → RegionOk spacedEnv bumpState (grownPool ++ [(0, 128)]) 0 a 128 :=
  bump_regions blocksApart_spacedEnv fresh_bumpState grownPool_fits

/-- Temp 0 keeps its region, which is in front of the pool that is the current one by now. -/
theorem keptTemp_in_old_pool :
    tempGet spacedEnv 0 128 (after spacedEnv bumpState grownPool) =
        (.ok (some (2 ^ 32)), after spacedEnv bumpState (grownPool ++ [(0, 128)])) ∧
      (after spacedEnv bumpState (grownPool ++ [(0, 128)])).pool = some (2 * 2 ^ 32) ∧
      ¬ InPool (after spacedEnv bumpState (grownPool ++ [(0, 128)])) 0 (2 ^ 32) 128 := by
  refine ⟨rfl, rfl, ?_⟩
  rintro ⟨-, p, hp, hle, -⟩
  obtain rfl : 2 * 2 ^ 32 = p := Option.some.inj hp
  revert hle
  decide

end Gehtp.Analysis.BumpRegions
