import Gehtp.Analysis.ArenaInvariant

/-!
# The arena over whole runs

From buffers of whole units, every run keeps the regions of `ArenaInv` as long as the sum of
the region that an allocation takes does not wrap. A sum that wraps gives out a block that is
larger than the buffer, and a buffer that is no whole unit gets a footer behind its end, so both
conditions are exact.
-/

set_option autoImplicit false

namespace Gehtp.Analysis.ArenaRuns

open Lib Model.ArenaAlloc Analysis.ArenaTiles Analysis.ArenaInvariant

/-! ### The start -/

/-- The buffers of a caller: at aligned addresses, in the address space, and apart. -/
structure BuffersOk (bits : ℕ) (bufs : Loc → Option (ℕ × UInt32)) : Prop where
  wide : 32 ≤ bits
  base : ∀ loc b n, bufs loc = some (b, n) → b % 16 = 0 ∧ b ≠ 0
  top : ∀ loc b n, bufs loc = some (b, n) → b + n.toNat ≤ 2 ^ bits
  apart : ∀ loc loc' b n b' n', loc ≠ loc' → bufs loc = some (b, n) → bufs loc' = some (b', n') →
    b + n.toNat ≤ b' ∨ b' + n'.toNat ≤ b

/-- The buffers that are taken have a whole number of units. -/
def SizesOk (bufs : Loc → Option (ℕ × UInt32)) : Prop :=
  ∀ loc b n, bufs loc = some (b, n) → 64 ≤ n → n.toNat % 16 = 0

def taken (bufs : Loc → Option (ℕ × UInt32)) (loc : Loc) : Option (ℕ × UInt32) :=
  (bufs loc).filter fun b => decide (64 ≤ b.2)

variable {loc : Loc} {n : UInt32} {p : Pool} {ops : List Op}

theorem taken_eq_some {bufs : Loc → Option (ℕ × UInt32)} {b : ℕ} :
    taken bufs loc = some (b, n) ↔ bufs loc = some (b, n) ∧ 64 ≤ n := by
  unfold taken
  rw [Option.filter_eq_some_iff]
  simp

theorem poolOf_eq_some {buf : Option (ℕ × UInt32)} (h : poolOf buf = some p) :
    ∃ n, buf = some (p.base, n) ∧ 64 ≤ n ∧ p.cap = r16 n ∧ p.used = 0 := by
  unfold poolOf at h
  split at h
  · rename_i b n
    split at h
    · obtain rfl := Option.some.inj h
      exact ⟨n, rfl, ‹_›, rfl, rfl⟩
    · cases h
  · cases h

section Start

variable {bits : ℕ} {mem : ℕ → UInt32} {bufs : Loc → Option (ℕ × UInt32)}

theorem r16_whole (h : n.toNat % 16 = 0) : r16 n = n := by
  apply UInt32.toNat_inj.mp
  have := n.toNat_lt
  rw [r16_toNat] <;> omega

theorem pool_start (hsize : SizesOk bufs) (hp : poolOf (bufs loc) = some p) :
    bufs loc = some (p.base, p.cap) ∧ 64 ≤ p.cap ∧ p.cap.toNat % 16 = 0 ∧ p.used = 0 := by
  obtain ⟨n, hbuf, h64, hcap, hused⟩ := poolOf_eq_some hp
  have hwhole := hsize loc _ _ hbuf h64
  rw [r16_whole hwhole] at hcap
  subst hcap
  exact ⟨hbuf, h64, hwhole, hused⟩

theorem poolsOk_start (hbufs : BuffersOk bits bufs) (hsize : SizesOk bufs) :
    PoolsOk (arenaInit bits mem bufs) where
  bits := hbufs.wide
  base := fun loc p hp => (hbufs.base loc _ _ (pool_start hsize hp).1).1
  top := fun loc p hp => hbufs.top loc _ _ (pool_start hsize hp).1
  cap := by
    intro loc p hp
    obtain ⟨-, h64, hwhole, -⟩ := pool_start hsize hp
    have h64 : 64 ≤ p.cap.toNat := UInt32.le_iff_toNat_le.mp h64
    omega
  apart := fun loc loc' p q hne hp hq =>
    hbufs.apart loc loc' _ _ _ _ hne (pool_start hsize hp).1 (pool_start hsize hq).1

def startRegions (bufs : Loc → Option (ℕ × UInt32)) (loc : Loc) : List (Block Owner) :=
  ((poolOf (bufs loc)).map fun p => ⟨p.cap.toNat, none⟩).toList

theorem initPool_spec {h : Heap} (hcap : p.cap.toNat % 16 = 0) (h32 : 32 ≤ p.cap.toNat)
    (hused : p.used = 0) :
    Writes p.base p.fin h (initPool h (some p)) ∧
      PoolInv (initPool h (some p)) p [⟨p.cap.toNat, none⟩] := by
  obtain ⟨hw, hpool⟩ := PoolInv.reset h hcap h32
  rw [← hused] at hpool
  exact ⟨hw, hpool⟩

theorem arenaInv_start (hbufs : BuffersOk bits bufs) (hsize : SizesOk bufs) :
    ArenaInv (taken bufs) (start bits mem bufs) (startRegions bufs) := by
  have hok : PoolsOk (arenaInit bits mem bufs) := poolsOk_start hbufs hsize
  have hinit : ∀ loc (h : Heap), (∀ p, poolOf (bufs loc) = some p →
      Writes p.base p.fin h (initPool h (poolOf (bufs loc))) ∧
        PoolInv (initPool h (poolOf (bufs loc))) p (startRegions bufs loc)) := by
    intro loc h p hp
    obtain ⟨hcap, h32⟩ := hok.cap loc p hp
    rw [startRegions, hp]
    exact initPool_spec hcap h32 (pool_start hsize hp).2.2.2
  generalize hh₁ : initPool ⟨mem, .ddr, []⟩ (poolOf (bufs .ddr)) = h₁
  have hheap : (arenaInit bits mem bufs).heap = initPool (h₁.on .vtcm) (poolOf (bufs .vtcm)) := by
    rw [← hh₁]
    rfl
  constructor
  · intro loc
    show (poolOf (bufs loc)).map _ = _
    unfold taken
    cases hb : bufs loc with
    | none => rfl
    | some b =>
      by_cases h64 : 64 ≤ b.2
      · have hwhole := r16_whole (hsize loc b.1 b.2 hb h64)
        simp [poolOf, h64, hwhole, Option.filter]
      · simp [poolOf, h64, Option.filter]
  · exact hok
  · intro loc p hp
    show PoolInv (arenaInit bits mem bufs).heap p _
    rw [hheap]
    cases loc with
    | vtcm => exact (hinit .vtcm (h₁.on .vtcm) p hp).2
    | ddr =>
      -- the second pool is laid out apart from the first one
      have hpool : PoolInv h₁ p (startRegions bufs .ddr) := by
        rw [← hh₁]
        exact (hinit .ddr _ p hp).2
      apply hpool.frame
      intro a hlo hhi
      cases hq : poolOf (bufs .vtcm) with
      | none => rfl
      | some q =>
        have hw := (hinit .vtcm (h₁.on .vtcm) q hq).1
        rw [hq] at hw
        apply hw.same
        rcases hok.apart .ddr .vtcm p q (by simp) hp hq with h | h
        · omega
        · omega
  · intro loc p hp
    have hp' : poolOf (bufs loc) = some p := hp
    simp [startRegions, hp', grantsOf, liveIn, start]
  · intro loc _
    rfl
  · show ∀ e ∈ (arenaInit bits mem bufs).heap.stores, _
    rw [hheap]
    intro e he
    have hfirst : e ∈ h₁.stores → ∃ p, poolOf (bufs e.1) = some p ∧
        p.base ≤ e.2 ∧ e.2 + 4 ≤ p.fin := by
      intro he
      rw [← hh₁] at he
      cases hq : poolOf (bufs .ddr) with
      | none =>
        rw [hq] at he
        cases he
      | some q =>
        have hw := (hinit .ddr ⟨mem, .ddr, []⟩ q hq).1
        rcases hw.inside e he with he | ⟨hcur, hin⟩
        · cases he
        · refine ⟨q, ?_, hin⟩
          rw [hcur]
          exact hq
    cases hq : poolOf (bufs .vtcm) with
    | none =>
      rw [hq] at he
      exact hfirst he
    | some q =>
      have hw := (hinit .vtcm (h₁.on .vtcm) q hq).1
      rcases hw.inside e he with he | ⟨hcur, hin⟩
      · exact hfirst he
      · refine ⟨q, ?_, hin⟩
        rw [hcur]
        exact hq

end Start

/-! ### Runs -/

/-- A call whose sum does not wrap. -/
def OpOk (s : State) : Op → Prop
  | .alloc bytes align loc => AllocOk s.arena bytes align loc
  | .free _ => True
  | .reset _ => True

/-- All calls of a run meet their condition, each in the state before it. -/
def StepsOk : State → List Op → Prop
  | _, [] => True
  | s, op :: ops => OpOk s op ∧ ∀ s', step s op = .ok s' → StepsOk s' ops

section Runs

variable {caps : Loc → Option (ℕ × UInt32)} {s : State} {regions : Loc → List (Block Owner)}

theorem step_inv (hinv : ArenaInv caps s regions) {op : Op} (hop : OpOk s op) :
    ∃ s' regions', step s op = .ok s' ∧ ArenaInv caps s' regions' := by
  cases op with
  | alloc bytes align loc => exact hinv.alloc hop
  | free ptr => exact hinv.free ptr
  | reset loc => exact hinv.reset loc

theorem run_cons {op : Op} {s' : State} (h : step s op = .ok s') :
    run s (op :: ops) = run s' ops := by
  unfold run
  rw [List.foldlM_cons, h]
  rfl

theorem run_inv (hinv : ArenaInv caps s regions) (hops : StepsOk s ops) :
    ∃ s' regions', run s ops = .ok s' ∧ ArenaInv caps s' regions' := by
  induction ops generalizing s regions with
  | nil => exact ⟨s, regions, rfl, hinv⟩
  | cons op ops ih =>
    obtain ⟨s₁, regions₁, hstep, hinv₁⟩ := step_inv hinv hops.1
    rw [run_cons hstep]
    exact ih hinv₁ (hops.2 s₁ hstep)

theorem live_free {ptr : ℕ} {s' : State} (h : step s (.free ptr) = .ok s') :
    s'.live = s.live.filter fun g => decide (g.ptr ≠ ptr) := by
  unfold step at h
  obtain ⟨a, -, h⟩ := (bind_eq_ok _ _ _).mp h
  rw [← Except.ok.inj h]

theorem run_free (hinv : ArenaInv caps s regions) (order : List ℕ) :
    ∃ s' regions', run s (order.map .free) = .ok s' ∧ ArenaInv caps s' regions' ∧
      s'.live = s.live.filter fun g => decide (g.ptr ∉ order) := by
  induction order generalizing s regions with
  | nil => exact ⟨s, regions, rfl, hinv, (List.filter_eq_self.mpr (by simp)).symm⟩
  | cons ptr order ih =>
    obtain ⟨s₁, regions₁, hstep, hinv₁⟩ := hinv.free ptr
    obtain ⟨s', regions', hrun, hinv', hlive⟩ := ih hinv₁
    refine ⟨s', regions', (run_cons hstep).trans hrun, hinv', ?_⟩
    rw [hlive, live_free hstep, List.filter_filter]
    apply List.filter_congr
    intro g _
    simp only [List.mem_cons, not_or, Bool.decide_and]
    exact Bool.and_comm ..

/-- The bytes of the requests, in whole units. -/
def requested : List Grant → ℕ
  | [] => 0
  | g :: l => units g.bytes + requested l

theorem requested_perm {l l' : List Grant} (h : l.Perm l') : requested l = requested l' := by
  induction h with
  | nil => rfl
  | cons g _ ih => exact congrArg (units g.bytes + ·) ih
  | swap g g' l =>
    simp only [requested]
    omega
  | trans _ _ ih ih' => exact ih.trans ih'

theorem weight_eq_requested {m : ℕ → UInt32} {rs : ℕ} {l : List (Block Owner)} (h : Tiles m rs l)
    (loc : Loc) : Block.weight (fun o => o.req.toNat) l = requested (grantsOf loc rs l) := by
  induction l generalizing rs with
  | nil => rfl
  | cons r l ih =>
    have hrest := ih h.2
    rcases r with ⟨n, _ | o⟩
    · simpa [grantsOf] using hrest
    · have hreq := (h.1.owned o rfl).2.2.2.req
      simp only [Block.weight_cons, Option.map_some, Option.getD_some, hrest, hreq]
      rfl

/-- The regions tile the buffers, their footers agree with their tags, no two free ones are
neighbours, and those in use are the blocks of the caller; the blocks are apart and aligned as
they were asked for, the count of used bytes is that of the requests, and when the blocks are
given back, in any order, one free region is left. -/
structure Invariant (caps : Loc → Option (ℕ × UInt32)) (s : State) : Prop where
  tiles : ∀ loc base cap, caps loc = some (base, cap) → ∃ l, Tiles s.arena.heap.mem base l ∧
    Block.total l = cap.toNat ∧ Block.Coalesced l ∧ (liveIn s loc).Perm (grantsOf loc base l)
  apart : s.live.Pairwise fun g g' =>
    g.ptr + g.bytes.toNat ≤ g'.ptr ∨ g'.ptr + g'.bytes.toNat ≤ g.ptr
  aligned : ∀ g ∈ s.live, ∃ al, effectiveAlign g.align = some al ∧ g.ptr % al.toNat = 0
  used : ∀ loc base cap, caps loc = some (base, cap) →
    (arenaUsed s.arena loc).toNat = requested (liveIn s loc)
  restored : ∀ order : List ℕ, order.Perm (s.live.map (·.ptr)) →
    ∃ s', run s (order.map .free) = .ok s' ∧ s'.live = [] ∧
      ∀ loc base cap, caps loc = some (base, cap) →
        Tiles s'.arena.heap.mem base [⟨cap.toNat, none⟩] ∧ arenaUsed s'.arena loc = 0 ∧
          arenaLargestFree s'.arena loc = .ok cap

theorem pool_of_caps (hinv : ArenaInv caps s regions) {base : ℕ} {cap : UInt32}
    (h : caps loc = some (base, cap)) : ∃ p, s.arena.pool loc = some p ∧ p.base = base ∧
      p.cap = cap := by
  rw [← hinv.caps loc] at h
  obtain ⟨p, hp, heq⟩ := Option.map_eq_some_iff.mp h
  exact ⟨p, hp, congrArg Prod.fst heq, congrArg Prod.snd heq⟩

theorem largestLoop_end {m : ℕ → UInt32} {fin n rs : ℕ} (best : UInt32) (h : fin ≤ rs) :
    largestLoop m fin n rs best = .ok best := by
  cases n with
  | zero => rw [largestLoop, if_neg (by omega)]
  | succ n => rw [largestLoop, if_neg (by omega)]

theorem largestFree_single {a : Arena} (hp : a.pool loc = some p) (h32 : 32 ≤ p.cap.toNat)
    (ht : Tiles a.heap.mem p.base [⟨p.cap.toNat, none⟩]) : arenaLargestFree a loc = .ok p.cap := by
  have hsize : (a.heap.mem p.base).toNat = p.cap.toNat := ht.1.size
  have hword : a.heap.mem p.base = p.cap := UInt32.toNat_inj.mp hsize
  have hfree := ht.1.free rfl
  have hpos : (0 : UInt32) < p.cap := UInt32.lt_iff_toNat_lt.mpr (by simp; omega)
  unfold arenaLargestFree
  rw [hp]
  dsimp only
  unfold largestLoop
  rw [if_pos (by unfold Pool.fin; omega), hword, hfree, if_pos ⟨by decide, hpos⟩]
  exact largestLoop_end _ le_rfl

theorem liveIn_perm (s : State) : (liveIn s .ddr ++ liveIn s .vtcm).Perm s.live := by
  have hnot : liveIn s .vtcm = s.live.filter fun g => !decide (g.loc = .ddr) := by
    unfold liveIn
    apply List.filter_congr
    intro g _
    cases g.loc <;> rfl
  rw [hnot]
  exact List.filter_append_perm _ _

theorem live_apart (hinv : ArenaInv caps s regions) : s.live.Pairwise fun g g' =>
    g.ptr + g.bytes.toNat ≤ g'.ptr ∨ g'.ptr + g'.bytes.toNat ≤ g.ptr := by
  have hsymm : ∀ {g g' : Grant}, g.ptr + g.bytes.toNat ≤ g'.ptr ∨ g'.ptr + g'.bytes.toNat ≤ g.ptr →
      g'.ptr + g'.bytes.toNat ≤ g.ptr ∨ g.ptr + g.bytes.toNat ≤ g'.ptr := Or.symm
  have hone : ∀ loc, (liveIn s loc).Pairwise fun g g' =>
      g.ptr + g.bytes.toNat ≤ g'.ptr ∨ g'.ptr + g'.bytes.toNat ≤ g.ptr := by
    intro loc
    cases hp : s.arena.pool loc with
    | none =>
      rw [hinv.absent loc hp]
      exact List.Pairwise.nil
    | some p =>
      apply ((hinv.live loc p hp).pairwise_iff hsymm).mpr
      exact (grantsOf_sorted (hinv.pools loc p hp).tiles).imp fun h => .inl h.le
  apply ((liveIn_perm s).pairwise_iff hsymm).mp
  apply List.pairwise_append.mpr
  refine ⟨hone .ddr, hone .vtcm, fun g hg g' hg' => ?_⟩
  obtain ⟨hg, hloc⟩ := List.mem_filter.mp hg
  obtain ⟨hg', hloc'⟩ := List.mem_filter.mp hg'
  obtain ⟨p, hp, -, hlo, hhi, -⟩ := hinv.grant hg
  obtain ⟨q, hq, -, hlo', hhi', -⟩ := hinv.grant hg'
  rw [of_decide_eq_true hloc] at hp
  rw [of_decide_eq_true hloc'] at hq
  have := hinv.ok.apart .ddr .vtcm p q (by simp) hp hq
  omega

theorem invariant_of_inv (hinv : ArenaInv caps s regions) : Invariant caps s where
  tiles := by
    intro loc base cap h
    obtain ⟨p, hp, rfl, rfl⟩ := pool_of_caps hinv h
    have hpool := hinv.pools loc p hp
    exact ⟨regions loc, hpool.tiles, hpool.total, hpool.coalesced, hinv.live loc p hp⟩
  apart := live_apart hinv
  aligned := by
    intro g hg
    obtain ⟨p, -, -, -, -, hal⟩ := hinv.grant hg
    exact hal
  used := by
    intro loc base cap h
    obtain ⟨p, hp, rfl, rfl⟩ := pool_of_caps hinv h
    have hpool := hinv.pools loc p hp
    rw [requested_perm (hinv.live loc p hp), ← weight_eq_requested hpool.tiles loc, ← hpool.used,
      arenaUsed, hp]
    rfl
  restored := by
    intro order horder
    obtain ⟨s', regions', hrun, hinv', hlive⟩ := run_free hinv order
    have hnil : s'.live = [] := by
      rw [hlive, List.filter_eq_nil_iff]
      intro g hg
      simpa using horder.mem_iff.mpr (List.mem_map_of_mem hg)
    refine ⟨s', hrun, hnil, fun loc base cap h => ?_⟩
    obtain ⟨p, hp, rfl, rfl⟩ := pool_of_caps hinv' h
    have hpool := hinv'.pools loc p hp
    obtain ⟨-, h32⟩ := hinv'.ok.cap loc p hp
    have hgrants : grantsOf loc p.base (regions' loc) = [] := by
      have hperm := hinv'.live loc p hp
      rw [show liveIn s' loc = [] by rw [liveIn, hnil]; rfl] at hperm
      exact hperm.symm.eq_nil
    have htotal := hpool.total
    have hfree : ∀ b ∈ regions' loc, b.data = none :=
      Block.free_of_held_nil (List.map_eq_nil_iff.mp hgrants)
    have hsingle : regions' loc = [⟨p.cap.toNat, none⟩] := by
      rw [← htotal]
      apply hpool.coalesced.eq_singleton _ hfree
      intro hempty
      rw [hempty, Block.total_nil] at htotal
      omega
    have ht : Tiles s'.arena.heap.mem p.base [⟨p.cap.toNat, none⟩] := hsingle ▸ hpool.tiles
    refine ⟨ht, ?_, largestFree_single hp h32 ht⟩
    have hused := hpool.used
    rw [hsingle] at hused
    rw [arenaUsed, hp]
    exact UInt32.toNat_inj.mp hused

/-! ### The conditions are exact -/

/-- The blocks of the caller are inside of the pools. -/
def Inside (caps : Loc → Option (ℕ × UInt32)) (s : State) : Prop :=
  ∀ g ∈ s.live, ∀ base cap, caps g.loc = some (base, cap) →
    base ≤ g.ptr ∧ g.ptr + g.bytes.toNat ≤ base + cap.toNat

theorem Invariant.inside (h : Invariant caps s) : Inside caps s := by
  intro g hg base cap hcaps
  obtain ⟨l, ht, htotal, -, hperm⟩ := h.tiles g.loc base cap hcaps
  have hmem : g ∈ grantsOf g.loc base l :=
    hperm.mem_iff.mp (List.mem_filter.mpr ⟨hg, by simp⟩)
  obtain ⟨e, he, heq⟩ := List.mem_map.mp hmem
  obtain ⟨n, hlo, hhi, howned⟩ := ht.owned_of_mem_held he
  have hptr : g.ptr = e.1 + e.2.off.toNat := by rw [← heq]; rfl
  have hbytes : g.bytes = e.2.bytes := by rw [← heq]; rfl
  have hroom := howned.room
  have hreq := howned.req
  have hunits := (units_spec e.2.bytes).1
  rw [hptr, hbytes]
  omega

theorem alloc_outside (hinv : ArenaInv caps s regions) {bytes align : UInt32}
    (hok : ¬ AllocOk s.arena bytes align loc) :
    ∃ s', step s (.alloc bytes align loc) = .ok s' ∧ ¬ Inside caps s' := by
  unfold AllocOk at hok
  push Not at hok
  obtain ⟨p, al, hp, hal, rs, htakes, hwrap⟩ := hok
  have hpool : PoolInv (s.arena.heap.on loc) p (regions loc) :=
    (hinv.pools loc p hp).frame fun _ _ _ => rfl
  have hfin : p.base + Block.total (regions loc) = p.fin := by
    rw [hpool.total]
    rfl
  rcases @allocLoop_cases s.arena.ptrBits p.fin (p.cap.toNat + 1) p.base (reqOf bytes) al _ _
    hpool.tiles hfin hpool.length_le with ⟨-, hno⟩ | ⟨pre, k, post, hl, htakes', -, heq⟩
  · exact absurd htakes (hno rs)
  · obtain rfl : p.base + Block.total pre = rs := htakes'.unique htakes
    generalize carve (s.arena.heap.on loc) (p.base + Block.total pre) (reqOf bytes)
      (dataOff s.arena.ptrBits (p.base + Block.total pre) al)
      (r16 (needOf s.arena.ptrBits (p.base + Block.total pre) (reqOf bytes) al)) = h' at heq
    refine ⟨⟨withUsed s.arena loc p (p.used + reqOf bytes) h',
      ⟨loc, p.base + Block.total pre +
        (dataOff s.arena.ptrBits (p.base + Block.total pre) al).toNat, bytes, align⟩ :: s.live⟩,
      ?_, ?_⟩
    · unfold step arenaAlloc
      dsimp only
      rw [hp, hal]
      dsimp only
      rw [heq]
      rfl
    · intro hin
      have hcaps : caps loc = some (p.base, p.cap) := by
        rw [← hinv.caps loc, hp]
        rfl
      obtain ⟨-, hhi⟩ := hin _ (List.mem_cons_self ..) p.base p.cap hcaps
      obtain ⟨hpre, hr, -⟩ := tiles_append.mp (hl ▸ hpool.tiles)
      have htotal := hpool.total
      rw [hl, Block.total_append, Block.total_cons] at htotal
      have hmod := hpre.total_mod
      have hbase := hinv.ok.base loc p hp
      have htop := hinv.ok.top loc p hp
      have hleast : 32 ≤ k := hr.least
      obtain ⟨hcap, -⟩ := hinv.ok.cap loc p hp
      have hcaplt := p.cap.toNat_lt
      unfold Pool.fin at htop
      dsimp only at htotal hhi
      obtain ⟨-, hoff16, hoff, -⟩ := dataOff_spec hinv.ok.bits hal
        (show p.base + Block.total pre < 2 ^ s.arena.ptrBits by omega) (by omega)
      unfold wholeNeed units at hwrap
      omega

theorem stepsOk_of_inside (hinv : ArenaInv caps s regions)
    (h : ∀ pre, pre <+: ops → ∀ s', run s pre = .ok s' → Inside caps s') : StepsOk s ops := by
  induction ops generalizing s regions with
  | nil => trivial
  | cons op ops ih =>
    have hop : OpOk s op := by
      cases op with
      | alloc bytes align loc =>
        by_contra hbad
        obtain ⟨s', hstep, hout⟩ := alloc_outside hinv hbad
        exact hout (h [.alloc bytes align loc] ⟨ops, rfl⟩ s' (run_cons hstep))
      | free ptr => trivial
      | reset loc => trivial
    refine ⟨hop, fun s' hstep => ?_⟩
    obtain ⟨s₁, regions₁, hstep₁, hinv₁⟩ := step_inv hinv hop
    obtain rfl : s₁ = s' := Except.ok.inj (hstep₁.symm.trans hstep)
    apply ih hinv₁
    intro pre hpre s'' hrun
    apply h (op :: pre) (List.cons_prefix_cons.mpr ⟨rfl, hpre⟩)
    rw [run_cons hstep]
    exact hrun

theorem stepsOk_front {pre : List Op} (h : StepsOk s ops) (hpre : pre <+: ops) : StepsOk s pre := by
  induction pre generalizing s ops with
  | nil => trivial
  | cons op pre ih =>
    obtain ⟨rest, rfl⟩ := hpre
    exact ⟨h.1, fun s' hstep => ih (h.2 s' hstep) ⟨rest, rfl⟩⟩

end Runs

section Claims

variable {bits : ℕ} {mem : ℕ → UInt32} {bufs : Loc → Option (ℕ × UInt32)}

/-- From buffers of whole units, a run keeps its regions and the blocks of the caller in order at
every point, exactly if no allocation takes a region at which its sum wraps.
SOURCE: arena.c:18-104 -/
theorem arena_invariant_iff (hbufs : BuffersOk bits bufs) (hsize : SizesOk bufs) (ops : List Op) :
    (∀ pre, pre <+: ops → ∃ s, run (start bits mem bufs) pre = .ok s ∧ Invariant (taken bufs) s) ↔
      StepsOk (start bits mem bufs) ops := by
  have hstart := @arenaInv_start bits mem bufs hbufs hsize
  constructor
  · intro h
    apply stepsOk_of_inside hstart
    intro pre hpre s hrun
    obtain ⟨s', hrun', hinv⟩ := h pre hpre
    obtain rfl : s' = s := Except.ok.inj (hrun'.symm.trans hrun)
    exact hinv.inside
  · intro h pre hpre
    obtain ⟨s, regions, hrun, hinv⟩ := run_inv hstart (stepsOk_front h hpre)
    exact ⟨s, hrun, invariant_of_inv hinv⟩

/-- One buffer of `n` bytes at 4096. -/
def oneBuffer (n : UInt32) : Loc → Option (ℕ × UInt32)
  | .ddr => some (4096, n)
  | .vtcm => none

theorem oneBuffer_ok (n : UInt32) : BuffersOk 64 (oneBuffer n) where
  wide := by decide
  base := by
    intro loc b k h
    cases loc with
    | ddr =>
      obtain ⟨rfl, rfl⟩ := Prod.mk.inj (Option.some.inj h)
      exact ⟨rfl, by decide⟩
    | vtcm => cases h
  top := by
    intro loc b k h
    cases loc with
    | ddr =>
      obtain ⟨rfl, rfl⟩ := Prod.mk.inj (Option.some.inj h)
      have := n.toNat_lt
      omega
    | vtcm => cases h
  apart := by
    intro loc loc' b k b' k' hne h h'
    cases loc with
    | ddr =>
      cases loc' with
      | ddr => exact absurd rfl hne
      | vtcm => cases h'
    | vtcm => cases h

theorem oneBuffer_sizesOk (h : n.toNat % 16 = 0) : SizesOk (oneBuffer n) := by
  intro loc b k hk _
  cases loc with
  | ddr =>
    obtain ⟨rfl, rfl⟩ := Prod.mk.inj (Option.some.inj hk)
    exact h
  | vtcm => cases hk

/-- The start of an arena with one buffer and an empty memory. -/
def startOne (n : UInt32) : State := start 64 (fun _ => 0) (oneBuffer n)

theorem smallAlloc_ok : StepsOk (startOne 256) [.alloc 40 64 .ddr] := by
  refine ⟨?_, fun _ _ => trivial⟩
  intro p al hp hal rs htakes
  obtain rfl : (⟨4096, 256, 0⟩ : Pool) = p := Option.some.inj hp
  obtain rfl : (64 : UInt32) = al := Option.some.inj (hal.symm.trans (by decide)) |>.symm
  cases htakes with
  | here => decide
  | next _ hskip => exact absurd (show Passes _ _ _ _ _ by unfold Passes; decide) hskip

/-- The blocks of the caller after a run. -/
def liveAfter (x : Checked Unit State) : Option (List Grant) :=
  match x with
  | .ok s => some s.live
  | .error _ => none

/-- Two blocks from one buffer, given back in the order in which they were taken. -/
def twoBlocks : List Op := [.alloc 40 64 .ddr, .alloc 40 16 .ddr, .free 4160, .free 4240]

theorem twoBlocks_ok : StepsOk (startOne 256) twoBlocks := by
  refine ⟨smallAlloc_ok.1, fun s hs => ⟨?_, fun _ _ => ⟨trivial, fun _ _ => ⟨trivial, fun _ _ =>
    trivial⟩⟩⟩⟩
  obtain rfl := Except.ok.inj hs
  intro p al hp hal rs htakes
  obtain rfl := Option.some.inj hp
  obtain rfl : (16 : UInt32) = al := Option.some.inj (hal.symm.trans (by decide)) |>.symm
  cases htakes with
  | here => decide
  | next _ _ hrest =>
    cases hrest with
    | here => decide
    | next _ hskip => exact absurd (show Passes _ _ _ _ _ by unfold Passes; decide) hskip

/-- Two blocks of a buffer of 256 bytes; the second one to be freed joins the free regions before and
behind it. -/
theorem smallAlloc_invariant :
    liveAfter (run (startOne 256) (twoBlocks.take 2)) =
        some [⟨.ddr, 4240, 40, 16⟩, ⟨.ddr, 4160, 40, 64⟩] ∧
      liveAfter (run (startOne 256) twoBlocks) = some [] ∧
      ∀ pre, pre <+: twoBlocks → ∃ s, run (startOne 256) pre = .ok s ∧
        Invariant (taken (oneBuffer 256)) s :=
  ⟨by decide, by decide,
    (arena_invariant_iff (oneBuffer_ok 256) (oneBuffer_sizesOk rfl) _).mpr twoBlocks_ok⟩

theorem eq_ok_of_liveAfter {x : Checked Unit State} {l : List Grant} (h : liveAfter x = some l) :
    ∃ s, x = .ok s ∧ s.live = l := by
  unfold liveAfter at h
  split at h
  · exact ⟨_, rfl, Option.some.inj h⟩
  · cases h

/-- The caller asks for the whole of a buffer of 2^32 - 16 bytes and gets it, in a region of 16
bytes; 16 bytes more are given out in the middle of this block. -/
theorem wholeBuffer_overlap :
    liveAfter (run (startOne 0xFFFFFFF0) [.alloc 0xFFFFFFF0 16 .ddr, .alloc 16 16 .ddr]) =
        some [⟨.ddr, 4128, 16, 16⟩, ⟨.ddr, 4112, 0xFFFFFFF0, 16⟩] ∧
      ¬ ∀ pre, pre <+: [Op.alloc 0xFFFFFFF0 16 .ddr, .alloc 16 16 .ddr] →
        ∃ s, run (startOne 0xFFFFFFF0) pre = .ok s ∧
          Invariant (taken (oneBuffer 0xFFFFFFF0)) s := by
  have hlive : liveAfter (run (startOne 0xFFFFFFF0)
      [.alloc 0xFFFFFFF0 16 .ddr, .alloc 16 16 .ddr]) =
        some [⟨.ddr, 4128, 16, 16⟩, ⟨.ddr, 4112, 0xFFFFFFF0, 16⟩] := by decide
  refine ⟨hlive, fun h => ?_⟩
  obtain ⟨s, hrun, hinv⟩ := h _ List.prefix_rfl
  obtain ⟨s', hrun', heq⟩ := eq_ok_of_liveAfter hlive
  obtain rfl : s = s' := Except.ok.inj (hrun.symm.trans hrun')
  have hapart := hinv.apart
  rw [heq] at hapart
  have := (List.pairwise_cons.mp hapart).1 _ (List.mem_singleton_self _)
  exact absurd this (by decide)

/-- The tags and footers that the arena wrote are inside of their buffer, and so are the blocks
that it gave out. -/
def Contained (bufs : Loc → Option (ℕ × UInt32)) (s : State) : Prop :=
  (∀ e ∈ s.arena.heap.stores, ∃ b n, bufs e.1 = some (b, n) ∧ b ≤ e.2 ∧ e.2 + 4 ≤ b + n.toNat) ∧
    ∀ g ∈ s.live, ∃ b n, bufs g.loc = some (b, n) ∧ b ≤ g.ptr ∧
      g.ptr + g.bytes.toNat ≤ b + n.toNat

theorem contained_of_inv {s : State} {regions : Loc → List (Block Owner)}
    (hinv : ArenaInv (taken bufs) s regions) : Contained bufs s := by
  have hbuf : ∀ loc p, s.arena.pool loc = some p → bufs loc = some (p.base, p.cap) := by
    intro loc p hp
    have hcaps := hinv.caps loc
    rw [hp] at hcaps
    exact (taken_eq_some.mp hcaps.symm).1
  constructor
  · intro e he
    obtain ⟨p, hp, hlo, hhi⟩ := hinv.stores e he
    exact ⟨p.base, p.cap, hbuf e.1 p hp, hlo, hhi⟩
  · intro g hg
    obtain ⟨p, hp, -, hlo, hhi, -⟩ := hinv.grant hg
    refine ⟨p.base, p.cap, hbuf g.loc p hp, by omega, ?_⟩
    unfold Pool.fin at hhi
    omega

theorem mem_stores_oneRegion (h : Heap) (base : ℕ) (cap : UInt32) :
    (h.cur, base + cap.toNat - 8 + 4) ∈ (oneRegion h base cap).stores := by
  have hsize := (@setTag_spec h base cap 1 0 0).2.1
  unfold oneRegion Heap.mkFtr Heap.ftr
  rw [hsize]
  exact List.mem_cons_self ..

theorem stores_subset_initPool (h : Heap) (p : Option Pool) :
    ∀ e ∈ h.stores, e ∈ (initPool h p).stores := by
  intro e he
  cases p with
  | none => exact he
  | some p =>
    unfold initPool oneRegion Heap.mkFtr Heap.setTag Heap.store
    simp [he]

theorem mem_stores_start (hp : poolOf (bufs loc) = some p) :
    (loc, p.base + p.cap.toNat - 8 + 4) ∈ (start bits mem bufs).arena.heap.stores := by
  cases loc with
  | ddr =>
    apply stores_subset_initPool
    rw [hp]
    exact mem_stores_oneRegion _ _ _
  | vtcm =>
    show _ ∈ (initPool _ (poolOf (bufs .vtcm))).stores
    rw [hp]
    exact mem_stores_oneRegion _ _ _

theorem sizesOk_of_contained (hbufs : BuffersOk bits bufs)
    (h : Contained bufs (start bits mem bufs)) : SizesOk bufs := by
  intro loc b n hbuf h64
  have hp : poolOf (bufs loc) = some ⟨b, r16 n, 0⟩ := by
    rw [hbuf]
    exact if_pos h64
  obtain ⟨b', n', hbuf', hlo, hhi⟩ := h.1 _ (mem_stores_start hp)
  rw [hbuf] at hbuf'
  obtain ⟨rfl, rfl⟩ := Prod.mk.inj (Option.some.inj hbuf')
  obtain ⟨h16, hne⟩ := hbufs.base loc b n hbuf
  have hn : 64 ≤ n.toNat := UInt32.le_iff_toNat_le.mp h64
  have hlt := n.toNat_lt
  by_cases hwrap : n.toNat + 15 < 2 ^ 32
  · rw [r16_toNat hwrap] at hhi
    dsimp only at hhi
    omega
  · -- the capacity wraps to zero, and the footer is before the buffer
    have hzero : (r16 n).toNat = 0 := by
      have hadd : (n + 15).toNat = n.toNat + 15 - 2 ^ 32 := by
        rw [UInt32.toNat_add]
        show (n.toNat + 15) % 2 ^ 32 = _
        omega
      have hmask : ((n + 15) &&& ~~~15).toNat = (n + 15).toNat / 16 * 16 := by
        rw [UInt32.toNat_and]
        exact and_high_bits (n + 15).toNat_lt (show 4 ≤ 32 by decide)
      unfold r16
      rw [hmask, hadd]
      omega
    rw [hzero] at hlo
    dsimp only at hlo
    omega

/-- At every point of a run the tags, the footers and the blocks are inside of the buffers of the
caller, exactly if the buffers have a whole number of units and no allocation takes a region at
which its sum wraps. SOURCE: arena.c:13-104 -/
theorem arena_contained_iff (hbufs : BuffersOk bits bufs) (ops : List Op) :
    (∀ pre, pre <+: ops → ∀ s, run (start bits mem bufs) pre = .ok s → Contained bufs s) ↔
      SizesOk bufs ∧ StepsOk (start bits mem bufs) ops := by
  constructor
  · intro h
    have hsize := sizesOk_of_contained hbufs (h [] List.nil_prefix _ rfl)
    refine ⟨hsize, stepsOk_of_inside (@arenaInv_start bits mem bufs hbufs hsize) ?_⟩
    intro pre hpre s hrun g hg base cap hcaps
    obtain ⟨b, n, hbuf, hin⟩ := (h pre hpre s hrun).2 g hg
    rw [(taken_eq_some.mp hcaps).1] at hbuf
    obtain ⟨rfl, rfl⟩ := Prod.mk.inj (Option.some.inj hbuf)
    exact hin
  · rintro ⟨hsize, hops⟩ pre hpre s hrun
    obtain ⟨s', regions, hrun', hinv⟩ :=
      run_inv (@arenaInv_start bits mem bufs hbufs hsize) (stepsOk_front hops hpre)
    obtain rfl : s' = s := Except.ok.inj (hrun'.symm.trans hrun)
    exact contained_of_inv hinv

/-- 40 bytes from a buffer of 256 bytes. -/
theorem smallAlloc_contained :
    liveAfter (run (startOne 256) [.alloc 40 64 .ddr]) = some [⟨.ddr, 4160, 40, 64⟩] ∧
      ∀ pre, pre <+: [Op.alloc 40 64 .ddr] → ∀ s, run (startOne 256) pre = .ok s →
        Contained (oneBuffer 256) s :=
  ⟨by decide,
    (arena_contained_iff (oneBuffer_ok 256) _).mpr ⟨oneBuffer_sizesOk rfl, smallAlloc_ok⟩⟩

/-- The footer of a buffer of 65 bytes is written at its bytes 72 to 79. -/
theorem oddBuffer_outside :
    (Loc.ddr, 4096 + 76) ∈ (startOne 65).arena.heap.stores ∧
      ¬ ∀ pre, pre <+: ([] : List Op) → ∀ s, run (startOne 65) pre = .ok s →
        Contained (oneBuffer 65) s := by
  have hmem : (Loc.ddr, 4096 + 76) ∈ (startOne 65).arena.heap.stores := by decide
  refine ⟨hmem, fun h => ?_⟩
  obtain ⟨b, n, hbuf, -, hhi⟩ := (h [] List.nil_prefix _ rfl).1 _ hmem
  obtain ⟨rfl, rfl⟩ := Prod.mk.inj (Option.some.inj hbuf)
  exact absurd hhi (by decide)

/-! ### What the walks find -/

/-- The largest free region. -/
def largest : List (Block Owner) → ℕ
  | [] => 0
  | r :: l => if r.data.isNone then max r.size (largest l) else largest l

theorem largestLoop_spec {m : ℕ → UInt32} {fin n rs : ℕ} {l : List (Block Owner)} (best : UInt32)
    (ht : Tiles m rs l) (hfin : rs + Block.total l = fin) (hfuel : l.length ≤ n) :
    ∃ v, largestLoop m fin n rs best = .ok v ∧ v.toNat = max best.toNat (largest l) := by
  induction l generalizing rs n best with
  | nil =>
    rw [Block.total_nil] at hfin
    exact ⟨best, largestLoop_end best (by omega), (Nat.max_zero _).symm⟩
  | cons r l ih =>
    obtain ⟨n, rfl⟩ : ∃ k, n = k + 1 := ⟨n - 1, by rw [List.length_cons] at hfuel; omega⟩
    rw [Block.total_cons] at hfin
    have hlt : rs < fin := by
      have := ht.1.least
      omega
    rw [largestLoop, if_pos hlt, ht.1.size, largest]
    obtain ⟨v, hv, hmax⟩ := ih (if m (rs + 4) ≠ 0 ∧ best < m rs then m rs else best) (n := n) ht.2
      (by omega) (Nat.le_of_succ_le_succ hfuel)
    refine ⟨v, hv, hmax.trans ?_⟩
    cases hd : r.data with
    | none =>
      have hsize := ht.1.size
      rw [ht.1.free hd, Option.isNone_none, if_pos rfl]
      split
      · rename_i hless
        have := UInt32.lt_iff_toNat_lt.mp hless.2
        omega
      · rename_i hless
        have := UInt32.le_iff_toNat_le.mp (UInt32.not_lt.mp fun h => hless ⟨by decide, h⟩)
        omega
    | some o =>
      rw [(ht.1.owned o hd).1, if_neg fun h => h.1 rfl, Option.isNone_some,
        if_neg Bool.false_ne_true]

/-- A region of `k` bytes at `rs` has room for its tag, the request in whole units at an aligned
address, and its footer. -/
def Room (rs k : ℕ) (bytes al : UInt32) : Prop :=
  ∃ q, rs + 16 ≤ q ∧ al.toNat ∣ q ∧ q + units bytes + 8 ≤ rs + k

theorem takes_of_passes {bits fin rs : ℕ} {m : ℕ → UInt32} {req al : UInt32}
    {pre post : List (Block Owner)} {r : Block Owner} (ht : Tiles m rs (pre ++ r :: post))
    (hfin : rs + Block.total (pre ++ r :: post) = fin)
    (hpass : Passes bits m (rs + Block.total pre) req al) :
    ∃ r', Takes bits m fin req al rs r' := by
  induction pre generalizing rs with
  | nil =>
    have := ht.1.least
    rw [List.nil_append, Block.total_cons] at hfin
    exact ⟨rs, .here (by omega) hpass⟩
  | cons r₀ pre ih =>
    have := ht.1.least
    rw [List.cons_append, Block.total_cons] at hfin
    by_cases hhere : Passes bits m rs req al
    · exact ⟨rs, .here (by omega) hhere⟩
    · rw [Block.total_cons, ← Nat.add_assoc] at hpass
      obtain ⟨r', hr'⟩ := ih ht.2 (by omega) hpass
      exact ⟨r', .next (by omega) hhere (by rw [ht.1.size]; exact hr')⟩

section Request

variable {bits rs k : ℕ} {m : ℕ → UInt32} {bytes align al : UInt32}

/-- The first aligned address is the best one. -/
theorem room_iff (hbits : 32 ≤ bits) (hal : effectiveAlign align = some al) (hrs : rs < 2 ^ bits) :
    Room rs k bytes al ↔ wholeNeed bits rs bytes al ≤ k := by
  obtain ⟨hlo, -, hdvd, -⟩ := effectiveAlign_spec hal
  rw [wholeNeed, dataOff_toNat hbits hdvd hlo hrs, Room]
  generalize al.toNat = n at *
  have hlt := Nat.lt_div_mul_add (a := rs + 16 + n - 1) (show 0 < n by omega)
  constructor
  · rintro ⟨q, hq, ⟨c, rfl⟩, hroom⟩
    have hle : (rs + 16 + n - 1) / n ≤ c := by
      apply Nat.le_of_lt_succ
      apply (Nat.div_lt_iff_lt_mul (by omega)).mpr
      rw [Nat.succ_mul, Nat.mul_comm c n]
      omega
    have := Nat.mul_le_mul_right n hle
    rw [Nat.mul_comm c n] at this
    omega
  · intro h
    exact ⟨(rs + 16 + n - 1) / n * n, by omega, Nat.dvd_mul_left n _, by omega⟩

/-- The tests of the allocator ask for this room, if its sums do not wrap. -/
theorem passes_iff (hbits : 32 ≤ bits) (hal : effectiveAlign align = some al) (hrs : rs < 2 ^ bits)
    (h16 : rs % 16 = 0) (hbytes : bytes.toNat + 4134 < 2 ^ 32) (h : RegionAt m rs ⟨k, none⟩) :
    Passes bits m rs (reqOf bytes) al ↔ Room rs k bytes al := by
  have hsize : (m rs).toNat = k := h.size
  have hwhole : k % 16 = 0 := h.whole
  obtain ⟨-, -, hoff, -⟩ := dataOff_spec hbits hal hrs h16
  have hneed : wholeNeed bits rs bytes al + 15 < 2 ^ 32 := by
    unfold wholeNeed units
    omega
  have hnat := needOf_toNat (show wholeNeed bits rs bytes al < 2 ^ 32 by omega)
  rw [room_iff hbits hal hrs, Passes, h.free rfl, UInt32.le_iff_toNat_le, UInt32.le_iff_toNat_le,
    hsize, r16_toNat (by omega), hnat]
  constructor
  · exact fun hpass => hpass.2.1
  · exact fun hle => ⟨by decide, hle, by omega⟩

end Request

/-- After every run, the largest free region is found, and a valid request, the sum of which does not
wrap, is refused exactly if no free region has room for it. SOURCE: arena.c:33-63, 110-118 -/
theorem walks_exact (hbufs : BuffersOk bits bufs) (hsize : SizesOk bufs) (ops : List Op)
    (hops : StepsOk (start bits mem bufs) ops) :
    ∃ s, run (start bits mem bufs) ops = .ok s ∧ ∀ loc base cap,
      taken bufs loc = some (base, cap) → ∃ l, Tiles s.arena.heap.mem base l ∧
        Block.total l = cap.toNat ∧
        (∃ v, arenaLargestFree s.arena loc = .ok v ∧ v.toNat = largest l) ∧
        ∀ bytes align al, effectiveAlign align = some al → bytes.toNat + 4134 < 2 ^ 32 →
          (arenaAlloc s.arena bytes align loc = .ok (none, s.arena) ↔
            ∀ pre k post, l = pre ++ ⟨k, none⟩ :: post →
              ¬ Room (base + Block.total pre) k bytes al) := by
  obtain ⟨s, regions, hrun, hinv⟩ := run_inv (@arenaInv_start bits mem bufs hbufs hsize) hops
  refine ⟨s, hrun, fun loc base cap hcaps => ?_⟩
  obtain ⟨p, hp, rfl, rfl⟩ := pool_of_caps hinv hcaps
  have hpool := hinv.pools loc p hp
  have hfin : p.base + Block.total (regions loc) = p.fin := by rw [hpool.total]; rfl
  refine ⟨regions loc, hpool.tiles, hpool.total, ?_, fun bytes align al hal hbytes => ?_⟩
  · rw [arenaLargestFree, hp]
    obtain ⟨v, hv, hmax⟩ := largestLoop_spec 0 hpool.tiles hfin hpool.length_le
    exact ⟨v, hv, hmax.trans (Nat.zero_max _)⟩
  · have hroom : ∀ pre k post, regions loc = pre ++ ⟨k, none⟩ :: post →
        (Passes s.arena.ptrBits s.arena.heap.mem (p.base + Block.total pre) (reqOf bytes) al ↔
          Room (p.base + Block.total pre) k bytes al) := by
      intro pre k post hl
      have ht := hpool.tiles
      rw [hl, tiles_append] at ht
      obtain ⟨hpre, hregion, -⟩ := ht
      have hmod := hpre.total_mod
      have hbase := hinv.ok.base loc p hp
      have htop := hinv.ok.top loc p hp
      have hleast : 32 ≤ k := hregion.least
      rw [hl, Block.total_append, Block.total_cons] at hfin
      dsimp only at hfin
      exact passes_iff hinv.ok.bits hal (by omega) (by omega) hbytes hregion
    rw [arenaAlloc, hp, hal]
    dsimp only
    rcases @allocLoop_cases s.arena.ptrBits p.fin (p.cap.toNat + 1) p.base (reqOf bytes) al
      (s.arena.heap.on loc) _ hpool.tiles hfin hpool.length_le with
      ⟨heq, hno⟩ | ⟨pre, k, post, hl, -, hpass, heq⟩
    · rw [heq]
      refine iff_of_true rfl fun pre k post hl hhas => ?_
      obtain ⟨r, hr⟩ := takes_of_passes (hl ▸ hpool.tiles) (hl ▸ hfin)
        ((hroom pre k post hl).mpr hhas)
      exact hno r hr
    · rw [heq]
      have hhas := (hroom pre k post hl).mp hpass
      refine iff_of_false (fun h => ?_) fun h => h pre k post hl hhas
      cases Except.ok.inj h

/-- 40 bytes from a buffer of 256 bytes leave a region of 128 bytes: the walk finds its size, and
refuses 120 bytes more because no free region has room for them. -/
theorem smallAlloc_walks :
    ∃ s, run (startOne 256) [.alloc 40 64 .ddr] = .ok s ∧ ∃ l, Tiles s.arena.heap.mem 4096 l ∧
      arenaLargestFree s.arena .ddr = .ok 128 ∧ largest l = 128 ∧
      arenaAlloc s.arena 120 16 .ddr = .ok (none, s.arena) ∧
      ∀ pre k post, l = pre ++ ⟨k, none⟩ :: post → ¬ Room (4096 + Block.total pre) k 120 16 := by
  obtain ⟨s, hrun, hall⟩ := walks_exact (oneBuffer_ok 256) (oneBuffer_sizesOk rfl) _ smallAlloc_ok
  obtain ⟨l, ht, -, ⟨v, hv, hmax⟩, hrefuse⟩ := hall .ddr 4096 256 rfl
  obtain rfl := Except.ok.inj hrun
  have hlargest : v = 128 := Except.ok.inj (hv.symm.trans (by rfl))
  have hbest : largest l = 128 := hmax.symm.trans (congrArg UInt32.toNat hlargest)
  exact ⟨_, hrun, l, ht, hlargest ▸ hv, hbest, rfl,
    (hrefuse 120 16 16 (by decide) (by decide)).mp rfl⟩

end Claims

end Gehtp.Analysis.ArenaRuns
