import Gehtp.Analysis.ArenaTiles

/-!
# The arena over whole runs

In every run of allocations, releases and resets whose sums do not wrap, each pool is tiled by
regions without two free neighbours, and the regions in use are the blocks that the caller has.
The blocks are apart, aligned and inside of their buffer, and when the caller has given all of
them back, in any order, one free region is left.

The sum `data_off + req + 8` is taken in 32 bits. For a request close to 2^32 it wraps, and the
allocator gives out a region that is too small.
-/

set_option autoImplicit false

namespace Gehtp.Analysis.ArenaInvariant

open Lib Model.ArenaAlloc Analysis.ArenaTiles

/-! ### One pool -/

/-- The regions of a pool. -/
structure PoolInv (h : Heap) (p : Pool) (l : List (Block Owner)) : Prop where
  tiles : Tiles h.mem p.base l
  total : Block.total l = p.cap.toNat
  coalesced : Block.Coalesced l
  used : p.used.toNat = Block.weight (fun o => o.req.toNat) l

/-- The block of the caller in a region. -/
def grantAt (loc : Loc) (e : ℕ × Owner) : Grant :=
  ⟨loc, e.1 + e.2.off.toNat, e.2.bytes, e.2.align⟩

def grantsOf (loc : Loc) (base : ℕ) (l : List (Block Owner)) : List Grant :=
  (Block.held base l).map (grantAt loc)

theorem grantsOf_append (loc : Loc) (base : ℕ) (l₁ l₂ : List (Block Owner)) :
    grantsOf loc base (l₁ ++ l₂) =
      grantsOf loc base l₁ ++ grantsOf loc (base + Block.total l₁) l₂ := by
  unfold grantsOf
  rw [Block.held_append, List.map_append]

theorem weight_le_total {m : ℕ → UInt32} {rs : ℕ} {l : List (Block Owner)} (h : Tiles m rs l) :
    Block.weight (fun o => o.req.toNat) l ≤ Block.total l := by
  induction l generalizing rs with
  | nil => exact le_rfl
  | cons r l ih =>
    have hrest := ih h.2
    rw [Block.weight_cons, Block.total_cons]
    rcases r with ⟨n, _ | o⟩
    · simp only [Option.map_none, Option.getD_none]
      omega
    · have hroom := (h.1.owned o rfl).2.2.2.room
      simp only [Option.map_some, Option.getD_some]
      dsimp only at hroom
      omega

section Pool

variable {h : Heap} {p : Pool} {l : List (Block Owner)} {loc : Loc}

theorem PoolInv.frame {h' : Heap} (hinv : PoolInv h p l)
    (hsame : ∀ a, p.base ≤ a → a < p.fin → h'.mem a = h.mem a) : PoolInv h' p l where
  tiles := by
    apply hinv.tiles.frame
    rw [hinv.total]
    exact hsame
  total := hinv.total
  coalesced := hinv.coalesced
  used := hinv.used

theorem PoolInv.length_le (hinv : PoolInv h p l) : l.length ≤ p.cap.toNat + 1 := by
  have := hinv.tiles.length_le
  have := hinv.total
  omega

theorem PoolInv.grant (hinv : PoolInv h p l) {g : Grant} (hg : g ∈ grantsOf loc p.base l) :
    p.base + 16 ≤ g.ptr ∧ g.ptr + g.bytes.toNat + 8 ≤ p.fin ∧
      ∃ al, effectiveAlign g.align = some al ∧ g.ptr % al.toNat = 0 := by
  obtain ⟨e, he, rfl⟩ := List.mem_map.mp hg
  obtain ⟨n, hlo, hhi, howned⟩ := hinv.tiles.owned_of_mem_held he
  have htag := howned.tag
  have hroom := howned.room
  have hreq := howned.req
  have hunits := (units_spec e.2.bytes).1
  rw [hinv.total] at hhi
  unfold grantAt Pool.fin
  dsimp only
  exact ⟨by omega, by omega, howned.aligned⟩

theorem grantsOf_sorted {m : ℕ → UInt32} {rs : ℕ} (ht : Tiles m rs l) :
    (grantsOf loc rs l).Pairwise fun g g' => g.ptr + g.bytes.toNat < g'.ptr := by
  induction l generalizing rs with
  | nil => exact List.Pairwise.nil
  | cons r l ih =>
    rcases r with ⟨n, _ | o⟩
    · exact ih ht.2
    · apply List.pairwise_cons.mpr
      refine ⟨fun g hg => ?_, ih ht.2⟩
      obtain ⟨e, he, rfl⟩ := List.mem_map.mp hg
      obtain ⟨n', hlo, -, howned'⟩ := ht.2.owned_of_mem_held he
      have howned := (ht.1.owned o rfl).2.2.2
      have hroom := howned.room
      have hreq := howned.req
      have hunits := (units_spec o.bytes).1
      have htag := howned'.tag
      unfold grantAt
      dsimp only at hroom hlo ⊢
      omega

/-- An allocation keeps the invariant of its pool. -/
theorem PoolInv.alloc {bits : ℕ} {bytes align al : UInt32} (hinv : PoolInv h p l)
    (hbits : 32 ≤ bits) (h16 : p.base % 16 = 0) (htop : p.fin ≤ 2 ^ bits)
    (hal : effectiveAlign align = some al)
    (hwrap : ∀ rs, Takes bits h.mem p.fin (reqOf bytes) al p.base rs →
      wholeNeed bits rs bytes al < 2 ^ 32) :
    allocLoop bits (reqOf bytes) al p.fin (p.cap.toNat + 1) p.base h = .ok (none, h) ∨
      ∃ q h' l', allocLoop bits (reqOf bytes) al p.fin (p.cap.toNat + 1) p.base h =
          .ok (some q, h') ∧ Writes p.base p.fin h h' ∧
        PoolInv h' { p with used := p.used + reqOf bytes } l' ∧
        (grantsOf loc p.base l').Perm (⟨loc, q, bytes, align⟩ :: grantsOf loc p.base l) := by
  have hfin : p.base + Block.total l = p.fin := by
    rw [hinv.total]
    rfl
  rcases @allocLoop_cases bits p.fin (p.cap.toNat + 1) p.base (reqOf bytes) al h l hinv.tiles hfin
    hinv.length_le with ⟨hnone, -⟩ | ⟨pre, k, post, rfl, htakes, hpass, heq⟩
  · exact .inl hnone
  · right
    rw [heq]
    obtain ⟨hpre, hr, hpost⟩ := tiles_append.mp hinv.tiles
    have htotal := hinv.total
    rw [Block.total_append, Block.total_cons] at htotal
    have hleast : 32 ≤ k := hr.least
    have hmod := hpre.total_mod
    have hcap : p.cap.toNat < 2 ^ 32 := p.cap.toNat_lt
    unfold Pool.fin at htop
    dsimp only at htotal
    obtain ⟨hw, n, rest, hrest, hsum, hmid⟩ := carve_spec hr hbits hal
      (show p.base + Block.total pre < 2 ^ bits by omega) (by omega) hpass (hwrap _ htakes)
    have hneed := hwrap _ htakes
    generalize carve h (p.base + Block.total pre) (reqOf bytes)
      (dataOff bits (p.base + Block.total pre) al)
      (r16 (needOf bits (p.base + Block.total pre) (reqOf bytes) al)) = h' at *
    have hreq : (reqOf bytes).toNat = units bytes := by
      apply reqOf_toNat
      unfold wholeNeed at hneed
      omega
    have hwide : Writes p.base p.fin h h' := by
      apply hw.mono (by omega)
      unfold Pool.fin
      omega
    have hown : grantAt loc (p.base + Block.total pre,
        ⟨bytes, align, reqOf bytes, dataOff bits (p.base + Block.total pre) al⟩) =
          ⟨loc, p.base + Block.total pre + (dataOff bits (p.base + Block.total pre) al).toNat,
            bytes, align⟩ := rfl
    have hownreq : (⟨bytes, align, reqOf bytes, dataOff bits (p.base + Block.total pre) al⟩ :
      Owner).req = reqOf bytes := rfl
    generalize (⟨bytes, align, reqOf bytes, dataOff bits (p.base + Block.total pre) al⟩ :
      Owner) = o at *
    have hold : Tiles h.mem p.base (pre ++ ([⟨k, none⟩] ++ post)) := hinv.tiles
    have htiles : Tiles h'.mem p.base (pre ++ ((⟨n, some o⟩ :: rest) ++ post)) := by
      apply hold.splice hmid
      · simp only [Block.total_cons, Block.total_nil]
        omega
      · intro a ha
        apply hw.same
        simpa using ha
    refine ⟨_, _, pre ++ ((⟨n, some o⟩ :: rest) ++ post), rfl, hwide, ?_, ?_⟩
    · refine ⟨htiles, ?_, hinv.coalesced.carve rfl hrest, ?_⟩
      · simp only [Block.total_append, Block.total_cons, List.cons_append]
        omega
      · have hle := weight_le_total htiles
        have hrestw : Block.weight (fun o : Owner => o.req.toNat) rest = 0 := by
          rcases hrest with rfl | ⟨j, rfl⟩ <;> rfl
        have hused := hinv.used
        simp only [Block.weight_append, Block.weight_cons, Block.total_append, Block.total_cons,
          List.cons_append, Option.map_some, Option.map_none, Option.getD_some,
          Option.getD_none, hrestw, hownreq] at hle hused ⊢
        rw [UInt32.toNat_add, hused, Nat.mod_eq_of_lt (by omega)]
        omega
    · have hfree : ∀ a, Block.held a (rest ++ post) = Block.held (a + Block.total rest) post := by
        intro a
        rcases hrest with rfl | ⟨j, rfl⟩ <;> simp
      unfold grantsOf
      rw [List.cons_append, Block.held_append, Block.held_append, Block.held_cons_some,
        Block.held_cons_none, hfree, Nat.add_assoc _ n, hsum, List.map_append, List.map_append,
        List.map_cons, hown]
      exact List.perm_middle

/-- The blocks in use after a release. -/
theorem grantsOf_release {m : ℕ → UInt32} {base k ptr : ℕ} {o : Owner}
    {pre post : List (Block Owner)} (ht : Tiles m base (pre ++ (⟨k, some o⟩ :: post)))
    (hptr : base + Block.total pre + o.off.toNat = ptr) :
    grantsOf loc base (Block.release pre.reverse k post) =
      (grantsOf loc base (pre ++ (⟨k, some o⟩ :: post))).filter fun g => decide (g.ptr ≠ ptr) := by
  have hsorted := @grantsOf_sorted _ loc _ _ ht
  have hsplit : grantsOf loc base (pre ++ (⟨k, some o⟩ :: post)) = grantsOf loc base pre ++
      (⟨loc, ptr, o.bytes, o.align⟩ :: grantsOf loc (base + Block.total pre + k) post) := by
    rw [grantsOf_append, ← hptr]
    rfl
  have hrelease : grantsOf loc base (Block.release pre.reverse k post) =
      grantsOf loc base pre ++ grantsOf loc (base + Block.total pre + k) post := by
    have hleft := Block.total_absorb pre.reverse
    have hheld := Block.held_absorb (base + Block.total pre + k) post
    have hpre : grantsOf loc base (Block.absorb pre.reverse).2.reverse = grantsOf loc base pre := by
      unfold grantsOf
      rcases pre.eq_nil_or_concat' with rfl | ⟨pre', ⟨q, _ | o'⟩, rfl⟩
      · rfl
      · simp [Block.held_append]
      · simp
    rw [Block.total_reverse] at hleft
    unfold Block.release
    rw [grantsOf_append, hpre]
    unfold grantsOf
    rw [Block.held_cons_none, Block.total_reverse, ← hheld]
    congr 3
    omega
  rw [hsplit] at hsorted ⊢
  rw [hrelease, List.filter_append, List.filter_cons_of_neg (by simp)]
  obtain ⟨-, hpost, hpre⟩ := List.pairwise_append.mp hsorted
  have hbefore : ∀ g ∈ grantsOf loc base pre, g.ptr ≠ ptr := by
    intro g hg heq
    have := hpre g hg _ (List.mem_cons_self ..)
    dsimp only at this
    omega
  have hbehind : ∀ g ∈ grantsOf loc (base + Block.total pre + k) post, g.ptr ≠ ptr := by
    intro g hg heq
    have := (List.pairwise_cons.mp hpost).1 g hg
    dsimp only at this
    omega
  rw [List.filter_eq_self.mpr fun g hg => by simpa using hbefore g hg,
    List.filter_eq_self.mpr fun g hg => by simpa using hbehind g hg]

/-- So does a release, which may find nothing. -/
theorem PoolInv.free {a : Arena} {ptr : ℕ} (hp : a.pool loc = some p) (hinv : PoolInv a.heap p l) :
    (freeIn a ptr loc = .ok none ∧ ∀ g ∈ grantsOf loc p.base l, g.ptr ≠ ptr) ∨
      ∃ used h' l', freeIn a ptr loc = .ok (some { a with
          pool := Function.update a.pool loc (some { p with used := used }), heap := h' }) ∧
        Writes p.base p.fin (a.heap.on loc) h' ∧ PoolInv h' { p with used := used } l' ∧
        (p.base ≤ ptr ∧ ptr < p.fin) ∧
        grantsOf loc p.base l' = (grantsOf loc p.base l).filter fun g => decide (g.ptr ≠ ptr) := by
  unfold freeIn
  rw [hp]
  dsimp only
  split
  · rename_i hout
    refine .inl ⟨rfl, fun g hg heq => ?_⟩
    have := hinv.grant hg
    omega
  · rename_i hin
    have hfin : p.base + Block.total l = p.fin := by
      rw [hinv.total]
      rfl
    rcases @findLoop_cases p.fin (p.cap.toNat + 1) ptr p.base a.heap l hinv.tiles hfin
      hinv.length_le with ⟨hnone, hall⟩ | ⟨pre, k, o, post, rfl, hptr, heq⟩
    · refine .inl ⟨by rw [hnone]; rfl, fun g hg => ?_⟩
      obtain ⟨e, he, rfl⟩ := List.mem_map.mp hg
      exact hall e he
    · right
      rw [heq]
      have hcap : p.cap.toNat < 2 ^ 32 := p.cap.toNat_lt
      have hsum : Block.total (pre ++ (⟨k, some o⟩ :: post)) < 2 ^ 32 := by
        rw [hinv.total]
        exact hcap
      obtain ⟨hw, ht⟩ := @freeRegion_spec _ _ (a.heap.on loc) _ _ _ _ hinv.tiles hfin hsum
      have hreq := ((tiles_append.mp hinv.tiles).2.1.owned o rfl).2.1
      have hused := hinv.used
      rw [Block.weight_append, Block.weight_cons] at hused
      simp only [Option.map_some, Option.getD_some] at hused
      have hle : o.req ≤ p.used := UInt32.le_iff_toNat_le.mpr (by omega)
      refine ⟨_, _, _, rfl, hw, ⟨ht, ?_, ?_, ?_⟩, by omega, grantsOf_release hinv.tiles hptr⟩
      · rw [Block.total_release, Block.total_reverse]
        have := hinv.total
        rw [Block.total_append, Block.total_cons] at this
        dsimp only at this ⊢
        omega
      · apply Block.Coalesced.release (d := o)
        rw [List.reverse_reverse]
        exact hinv.coalesced
      · rw [Block.weight_release, Block.weight_reverse]
        dsimp only
        rw [hreq, if_pos hle, UInt32.toNat_sub_of_le _ _ hle]
        omega

/-- After a reset one free region is left. -/
theorem PoolInv.reset (h : Heap) {p : Pool} (hcap : p.cap.toNat % 16 = 0) (h32 : 32 ≤ p.cap.toNat) :
    Writes p.base p.fin h (oneRegion h p.base p.cap) ∧
      PoolInv (oneRegion h p.base p.cap) { p with used := 0 } [⟨p.cap.toNat, none⟩] := by
  obtain ⟨hw, ht⟩ := @oneRegion_spec h p.base p.cap h32 hcap
  exact ⟨hw, ht, rfl, Block.coalesced_singleton _, rfl⟩

end Pool

/-! ### Both pools -/

/-- The pools of an arena are whole units at aligned addresses, and apart. -/
structure PoolsOk (a : Arena) : Prop where
  bits : 32 ≤ a.ptrBits
  base : ∀ loc p, a.pool loc = some p → p.base % 16 = 0
  top : ∀ loc p, a.pool loc = some p → p.fin ≤ 2 ^ a.ptrBits
  cap : ∀ loc p, a.pool loc = some p → p.cap.toNat % 16 = 0 ∧ 32 ≤ p.cap.toNat
  apart : ∀ loc loc' p q, loc ≠ loc' → a.pool loc = some p → a.pool loc' = some q →
    p.fin ≤ q.base ∨ q.fin ≤ p.base

/-- The blocks of the caller in the pool `loc`. -/
def liveIn (s : State) (loc : Loc) : List Grant := s.live.filter fun g => decide (g.loc = loc)

/-- Pools at the bases and with the sizes `caps`, their regions, the blocks of the caller in
them, and all stores in their pool. -/
structure ArenaInv (caps : Loc → Option (ℕ × UInt32)) (s : State)
    (regions : Loc → List (Block Owner)) : Prop where
  caps : ∀ loc, (s.arena.pool loc).map (fun p => (p.base, p.cap)) = caps loc
  ok : PoolsOk s.arena
  pools : ∀ loc p, s.arena.pool loc = some p → PoolInv s.arena.heap p (regions loc)
  live : ∀ loc p, s.arena.pool loc = some p →
    (liveIn s loc).Perm (grantsOf loc p.base (regions loc))
  absent : ∀ loc, s.arena.pool loc = none → liveIn s loc = []
  stores : ∀ e ∈ s.arena.heap.stores, ∃ p, s.arena.pool e.1 = some p ∧
    p.base ≤ e.2 ∧ e.2 + 4 ≤ p.fin

section Arena

variable {caps : Loc → Option (ℕ × UInt32)} {s : State} {regions : Loc → List (Block Owner)}
  {loc : Loc} {p : Pool}

/-- A pool with another count of used bytes. -/
def withUsed (a : Arena) (loc : Loc) (p : Pool) (used : UInt32) (h : Heap) : Arena :=
  { a with pool := Function.update a.pool loc (some { p with used := used }), heap := h }

theorem pool_withUsed {a : Arena} (hp : a.pool loc = some p) {used : UInt32} {h : Heap} {loc' : Loc}
    {q : Pool} (hq : (withUsed a loc p used h).pool loc' = some q) :
    ∃ q', a.pool loc' = some q' ∧ q.base = q'.base ∧ q.cap = q'.cap ∧
      (loc' = loc ∧ q' = p ∧ q = { p with used := used } ∨ loc' ≠ loc ∧ q = q') := by
  unfold withUsed at hq
  dsimp only at hq
  by_cases hloc : loc' = loc
  · subst hloc
    rw [Function.update_self] at hq
    obtain rfl := Option.some.inj hq
    exact ⟨p, hp, rfl, rfl, .inl ⟨rfl, rfl, rfl⟩⟩
  · rw [Function.update_of_ne hloc] at hq
    exact ⟨q, hq, rfl, rfl, .inr ⟨hloc, rfl⟩⟩

theorem PoolsOk.withUsed {a : Arena} (h : PoolsOk a) (hp : a.pool loc = some p) (used : UInt32)
    (h' : Heap) : PoolsOk (withUsed a loc p used h') where
  bits := h.bits
  base := by
    intro loc' q hq
    obtain ⟨q', hq', hb, -⟩ := pool_withUsed hp hq
    rw [hb]
    exact h.base loc' q' hq'
  top := by
    intro loc' q hq
    obtain ⟨q', hq', hb, hc, -⟩ := pool_withUsed hp hq
    unfold Pool.fin
    rw [hb, hc]
    exact h.top loc' q' hq'
  cap := by
    intro loc' q hq
    obtain ⟨q', hq', -, hc, -⟩ := pool_withUsed hp hq
    rw [hc]
    exact h.cap loc' q' hq'
  apart := by
    intro loc₁ loc₂ q₁ q₂ hne h₁ h₂
    obtain ⟨q₁', h₁', hb₁, hc₁, -⟩ := pool_withUsed hp h₁
    obtain ⟨q₂', h₂', hb₂, hc₂, -⟩ := pool_withUsed hp h₂
    unfold Pool.fin
    rw [hb₁, hc₁, hb₂, hc₂]
    exact h.apart loc₁ loc₂ q₁' q₂' hne h₁' h₂'

/-- A change of one pool leaves the other as it is. -/
theorem ArenaInv.change (hinv : ArenaInv caps s regions) (hp : s.arena.pool loc = some p) {used : UInt32}
    {h' : Heap} {l' : List (Block Owner)} {live' : List Grant}
    (hw : Writes p.base p.fin (s.arena.heap.on loc) h') (hpool : PoolInv h' { p with used := used } l')
    (hlive : (liveIn ⟨s.arena, live'⟩ loc).Perm (grantsOf loc p.base l'))
    (hother : ∀ loc' ≠ loc, liveIn ⟨s.arena, live'⟩ loc' = liveIn s loc') :
    ArenaInv caps ⟨withUsed s.arena loc p used h', live'⟩ (Function.update regions loc l') where
  caps := by
    intro loc'
    rw [← hinv.caps loc']
    unfold withUsed
    dsimp only
    by_cases hloc : loc' = loc
    · subst hloc
      rw [Function.update_self, hp]
      rfl
    · rw [Function.update_of_ne hloc]
  ok := hinv.ok.withUsed hp used h'
  pools := by
    intro loc' q hq
    obtain ⟨q', hq', -, -, ⟨rfl, rfl, rfl⟩ | ⟨hne, rfl⟩⟩ := pool_withUsed hp hq
    · rw [Function.update_self]
      exact hpool
    · rw [Function.update_of_ne hne]
      apply (hinv.pools loc' q hq').frame
      intro a hlo hhi
      apply hw.same
      rcases hinv.ok.apart loc' loc q p hne hq' hp with h | h
      · omega
      · omega
  live := by
    intro loc' q hq
    obtain ⟨q', hq', -, -, ⟨rfl, rfl, rfl⟩ | ⟨hne, rfl⟩⟩ := pool_withUsed hp hq
    · rw [Function.update_self]
      exact hlive
    · rw [Function.update_of_ne hne]
      have := hinv.live loc' q hq'
      rw [← hother loc' hne] at this
      exact this
  absent := by
    intro loc' hnone
    have hne : loc' ≠ loc := by
      rintro rfl
      simp [withUsed] at hnone
    have hnone' : s.arena.pool loc' = none := by
      simpa [withUsed, Function.update_of_ne hne] using hnone
    exact (hother loc' hne).trans (hinv.absent loc' hnone')
  stores := by
    intro e he
    rcases hw.inside e he with he | ⟨hcur, hlo, hhi⟩
    · obtain ⟨q, hq, hlo, hhi⟩ := hinv.stores e he
      by_cases hloc : e.1 = loc
      · rw [hloc, hp] at hq
        obtain rfl := Option.some.inj hq
        exact ⟨{ p with used := used }, by simp [withUsed, hloc], hlo, hhi⟩
      · exact ⟨q, by simpa [withUsed, Function.update_of_ne hloc] using hq, hlo, hhi⟩
    · have hcur : e.1 = loc := hcur
      exact ⟨{ p with used := used }, by simp [withUsed, hcur], hlo, hhi⟩

theorem ArenaInv.grant (hinv : ArenaInv caps s regions) {g : Grant} (hg : g ∈ s.live) :
    ∃ p, s.arena.pool g.loc = some p ∧ g ∈ grantsOf g.loc p.base (regions g.loc) ∧
      p.base + 16 ≤ g.ptr ∧ g.ptr + g.bytes.toNat + 8 ≤ p.fin ∧
      ∃ al, effectiveAlign g.align = some al ∧ g.ptr % al.toNat = 0 := by
  have hmem : g ∈ liveIn s g.loc := List.mem_filter.mpr ⟨hg, by simp⟩
  cases hp : s.arena.pool g.loc with
  | none =>
    rw [hinv.absent g.loc hp] at hmem
    cases hmem
  | some p =>
    have hgrant := (hinv.live g.loc p hp).mem_iff.mp hmem
    exact ⟨p, rfl, hgrant, (hinv.pools g.loc p hp).grant hgrant⟩

/-- The sum of the region that the walk takes does not wrap. -/
def AllocOk (a : Arena) (bytes align : UInt32) (loc : Loc) : Prop :=
  ∀ p al, a.pool loc = some p → effectiveAlign align = some al →
    ∀ rs, Takes a.ptrBits a.heap.mem p.fin (reqOf bytes) al p.base rs →
      wholeNeed a.ptrBits rs bytes al < 2 ^ 32

/-- An allocation keeps the invariant. -/
theorem ArenaInv.alloc (hinv : ArenaInv caps s regions) {bytes align : UInt32}
    (hok : AllocOk s.arena bytes align loc) :
    ∃ s' regions', step s (.alloc bytes align loc) = .ok s' ∧ ArenaInv caps s' regions' := by
  have hstay : arenaAlloc s.arena bytes align loc = .ok (none, s.arena) →
      ∃ s' regions', step s (.alloc bytes align loc) = .ok s' ∧ ArenaInv caps s' regions' := by
    intro h
    refine ⟨s, regions, ?_, hinv⟩
    unfold step
    dsimp only
    rw [h]
    rfl
  cases hp : s.arena.pool loc with
  | none =>
    apply hstay
    unfold arenaAlloc
    rw [hp]
    rfl
  | some p =>
    cases hal : effectiveAlign align with
    | none =>
      apply hstay
      unfold arenaAlloc
      rw [hp, hal]
      rfl
    | some al =>
      have hpool : PoolInv (s.arena.heap.on loc) p (regions loc) :=
        (hinv.pools loc p hp).frame fun _ _ _ => rfl
      rcases @PoolInv.alloc _ _ _ loc _ bytes _ _ hpool hinv.ok.bits (hinv.ok.base loc p hp)
        (hinv.ok.top loc p hp) hal (hok p al hp hal) with hnone | ⟨q, h', l', heq, hw, hpool', hperm⟩
      · apply hstay
        unfold arenaAlloc
        rw [hp, hal]
        dsimp only
        rw [hnone]
        rfl
      · refine ⟨⟨withUsed s.arena loc p (p.used + reqOf bytes) h',
          ⟨loc, q, bytes, align⟩ :: s.live⟩, Function.update regions loc l', ?_, ?_⟩
        · unfold step arenaAlloc
          dsimp only
          rw [hp, hal]
          dsimp only
          rw [heq]
          rfl
        · apply hinv.change hp hw hpool'
          · have hcons : liveIn ⟨s.arena, ⟨loc, q, bytes, align⟩ :: s.live⟩ loc =
                ⟨loc, q, bytes, align⟩ :: liveIn s loc := List.filter_cons_of_pos (by simp)
            rw [hcons]
            exact ((hinv.live loc p hp).cons _).trans hperm.symm
          · intro loc' hne
            exact List.filter_cons_of_neg (by simpa using hne.symm)

theorem liveIn_filter (a : Arena) (live : List Grant) (ptr : ℕ) (loc : Loc) :
    liveIn ⟨a, live.filter fun g => decide (g.ptr ≠ ptr)⟩ loc =
      (liveIn ⟨a, live⟩ loc).filter fun g => decide (g.ptr ≠ ptr) := by
  unfold liveIn
  dsimp only
  rw [List.filter_filter, List.filter_filter]
  congr 1
  funext g
  exact Bool.and_comm ..

theorem ArenaInv.freeIn (hinv : ArenaInv caps s regions) (ptr : ℕ) (loc : Loc) :
    (freeIn s.arena ptr loc = .ok none ∧ ∀ g ∈ s.live, g.loc = loc → g.ptr ≠ ptr) ∨
      ∃ a' regions', freeIn s.arena ptr loc = .ok (some a') ∧
        ArenaInv caps ⟨a', s.live.filter fun g => decide (g.ptr ≠ ptr)⟩ regions' := by
  cases hp : s.arena.pool loc with
  | none =>
    left
    refine ⟨by unfold Model.ArenaAlloc.freeIn; rw [hp]; rfl, fun g hg hloc => ?_⟩
    obtain ⟨p, hp', -⟩ := hinv.grant hg
    rw [hloc, hp] at hp'
    cases hp'
  | some p =>
    rcases @PoolInv.free _ _ loc _ ptr hp (hinv.pools loc p hp) with
      ⟨hnone, hall⟩ | ⟨used, h', l', heq, hw, hpool, hin, hgrants⟩
    · refine .inl ⟨hnone, fun g hg hloc => ?_⟩
      obtain ⟨p', hp', hmem, -⟩ := hinv.grant hg
      rw [hloc, hp] at hp'
      obtain rfl := Option.some.inj hp'
      rw [hloc] at hmem
      exact hall g hmem
    · refine .inr ⟨_, Function.update regions loc l', heq, ?_⟩
      apply hinv.change hp hw hpool
      · rw [liveIn_filter, hgrants]
        exact (hinv.live loc p hp).filter _
      · intro loc' hne
        rw [liveIn_filter]
        apply List.filter_eq_self.mpr
        intro g hg
        obtain ⟨hg, hloc⟩ := List.mem_filter.mp hg
        obtain ⟨q, hq, -, hlo, hhi, -⟩ := hinv.grant hg
        rw [of_decide_eq_true hloc] at hq
        have := hinv.ok.apart loc' loc q p hne hq hp
        simp only [ne_eq, decide_eq_true_eq]
        omega

/-- A release keeps the invariant. -/
theorem ArenaInv.free (hinv : ArenaInv caps s regions) (ptr : ℕ) :
    ∃ s' regions', step s (.free ptr) = .ok s' ∧ ArenaInv caps s' regions' := by
  rcases hinv.freeIn ptr .ddr with ⟨hnone, hddr⟩ | ⟨a', regions', heq, hinv'⟩
  · rcases hinv.freeIn ptr .vtcm with ⟨hnone', hvtcm⟩ | ⟨a', regions', heq, hinv'⟩
    · have hall : s.live.filter (fun g => decide (g.ptr ≠ ptr)) = s.live := by
        apply List.filter_eq_self.mpr
        intro g hg
        cases hloc : g.loc with
        | ddr => simpa using hddr g hg hloc
        | vtcm => simpa using hvtcm g hg hloc
      refine ⟨s, regions, ?_, hinv⟩
      unfold step arenaFree
      dsimp only
      rw [hnone, hnone', hall]
      rfl
    · refine ⟨_, regions', ?_, hinv'⟩
      unfold step arenaFree
      dsimp only
      rw [hnone, heq]
      rfl
  · refine ⟨_, regions', ?_, hinv'⟩
    unfold step arenaFree
    dsimp only
    rw [heq]
    rfl

/-- A reset keeps the invariant. -/
theorem ArenaInv.reset (hinv : ArenaInv caps s regions) (loc : Loc) :
    ∃ s' regions', step s (.reset loc) = .ok s' ∧ ArenaInv caps s' regions' := by
  have hloc : liveIn ⟨s.arena, s.live.filter fun g => decide (g.loc ≠ loc)⟩ loc = [] := by
    unfold liveIn
    rw [List.filter_filter, List.filter_eq_nil_iff]
    simp
  have hother : ∀ loc' ≠ loc,
      liveIn ⟨s.arena, s.live.filter fun g => decide (g.loc ≠ loc)⟩ loc' = liveIn s loc' := by
    intro loc' hne
    unfold liveIn
    dsimp only
    rw [List.filter_filter]
    apply List.filter_congr
    intro g _
    by_cases hg : g.loc = loc'
    · simp [hg, hne]
    · simp [hg]
  cases hp : s.arena.pool loc with
  | none =>
    have hnil := hinv.absent loc hp
    refine ⟨s, regions, ?_, hinv⟩
    have hall : s.live.filter (fun g => decide (g.loc ≠ loc)) = s.live := by
      apply List.filter_eq_self.mpr
      intro g hg
      have : g ∉ liveIn s loc := by
        rw [hnil]
        exact List.not_mem_nil
      simpa [liveIn, hg] using this
    unfold step arenaReset
    dsimp only
    rw [hp, hall]
    rfl
  | some p =>
    obtain ⟨hcap, h32⟩ := hinv.ok.cap loc p hp
    obtain ⟨hw, hpool⟩ := PoolInv.reset (s.arena.heap.on loc) hcap h32
    refine ⟨⟨withUsed s.arena loc p 0 (oneRegion (s.arena.heap.on loc) p.base p.cap),
      s.live.filter fun g => decide (g.loc ≠ loc)⟩,
      Function.update regions loc [⟨p.cap.toNat, none⟩], ?_, ?_⟩
    · unfold step arenaReset
      dsimp only
      rw [hp]
      rfl
    · apply hinv.change hp hw hpool _ hother
      rw [hloc]
      exact List.Perm.refl _

end Arena

end Gehtp.Analysis.ArenaInvariant
