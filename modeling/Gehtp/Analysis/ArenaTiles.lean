import Gehtp.Lib.Blocks
import Gehtp.Lib.Bytes
import Gehtp.Model.ArenaAlloc

/-!
# The regions of an arena

A pool of the arena is a list of blocks, and the tags and footers in memory say which: `Tiles`
relates the two. The operations of the arena rewrite a few words inside of the regions that they
change; what stands before and behind them is the same as before.
-/

set_option autoImplicit false

namespace Gehtp.Analysis.ArenaTiles

open Lib Model.ArenaAlloc

/-! ### Units and alignment -/

theorem r16_toNat {x : UInt32} (h : x.toNat + 15 < 2 ^ 32) :
    (r16 x).toNat = (x.toNat + 15) / 16 * 16 := by
  have hmask : ∀ y : UInt32, (y &&& ~~~15).toNat = y.toNat / 16 * 16 := by
    intro y
    rw [UInt32.toNat_and]
    exact and_high_bits y.toNat_lt (show 4 ≤ 32 by decide)
  unfold r16
  rw [hmask, UInt32.toNat_add]
  have : (15 : UInt32).toNat = 15 := rfl
  rw [this, Nat.mod_eq_of_lt h]

/-- The bytes of a request in whole units. -/
def units (bytes : UInt32) : ℕ := (max bytes.toNat 1 + 15) / 16 * 16

/-- The units cover the bytes. -/
theorem units_spec (bytes : UInt32) :
    bytes.toNat ≤ units bytes ∧ 16 ≤ units bytes ∧ units bytes % 16 = 0 := by
  unfold units
  omega

theorem reqOf_toNat {bytes : UInt32} (h : units bytes < 2 ^ 32) :
    (reqOf bytes).toNat = units bytes := by
  have hval : (if bytes ≠ 0 then bytes else 1).toNat = max bytes.toNat 1 := by
    by_cases hb : bytes = 0
    · rw [if_neg (not_not.mpr hb), hb]
      rfl
    · have hpos : bytes.toNat ≠ 0 := fun h => hb (UInt32.toNat_inj.mp h)
      rw [if_pos hb]
      omega
  unfold reqOf
  unfold units at h ⊢
  rw [r16_toNat, hval]
  rw [hval]
  omega

/-- The alignment in use is a power of two up to a page. -/
theorem effectiveAlign_spec {align al : UInt32} (h : effectiveAlign align = some al) :
    16 ≤ al.toNat ∧ al.toNat ≤ 4096 ∧ al.toNat ∣ 2 ^ 12 ∧ 16 ∣ al.toNat := by
  unfold effectiveAlign at h
  dsimp only at h
  generalize (if align = 0 then arenaAlignHvx else align) = x at h
  split at h
  · cases h
  · rename_i hx
    obtain rfl := Option.some.inj h
    simp only [not_or, ne_eq, not_not] at hx
    obtain ⟨hlo, hhi, hand⟩ := hx
    have hlo : 16 ≤ x.toNat := UInt32.not_lt.mp hlo
    have hhi : x.toNat ≤ 4096 := UInt32.not_lt.mp hhi
    have hsub : (x - 1).toNat = x.toNat - 1 := by
      rw [UInt32.toNat_sub_of_le _ _ (UInt32.le_iff_toNat_le.mpr (by simp; omega))]
      rfl
    have hand' : x.toNat &&& (x.toNat - 1) = 0 := by
      rw [← hsub, ← UInt32.toNat_and, hand]
      rfl
    obtain ⟨k, hk⟩ := (Nat.and_sub_one_eq_zero_iff_isPowerOfTwo (by omega)).mp hand'
    have hk4 : 4 ≤ k := by
      by_contra hlt
      have := Nat.pow_le_pow_right (show 0 < 2 by omega) (show k ≤ 3 by omega)
      omega
    have hk12 : k ≤ 12 := by
      by_contra hlt
      have := Nat.pow_le_pow_right (show 0 < 2 by omega) (show 13 ≤ k by omega)
      omega
    refine ⟨hlo, hhi, ?_, ?_⟩
    · rw [hk]
      exact Nat.pow_dvd_pow 2 hk12
    · rw [hk]
      exact Nat.pow_dvd_pow 2 hk4

theorem dataOff_toNat {ptrBits rs : ℕ} {al : UInt32} (hbits : 32 ≤ ptrBits)
    (hal : al.toNat ∣ 2 ^ 12) (hpos : 16 ≤ al.toNat) (hrs : rs < 2 ^ ptrBits) :
    (dataOff ptrBits rs al).toNat = (rs + 16 + al.toNat - 1) / al.toNat * al.toNat - rs := by
  have hle : al.toNat ≤ 2 ^ 12 := Nat.le_of_dvd (by omega) hal
  have hdvd : al.toNat ∣ 2 ^ ptrBits := hal.trans (Nat.pow_dvd_pow 2 (by omega))
  have hbig : 2 ^ 32 ≤ 2 ^ ptrBits := Nat.pow_le_pow_right (by omega) hbits
  unfold dataOff
  generalize 2 ^ ptrBits = M at *
  generalize al.toNat = n at *
  obtain ⟨k, rfl⟩ := hdvd
  -- the address in units of the alignment, before and after the wrap
  have hdiv : (rs + 16 + n - 1) % (n * k) / n = (rs + 16 + n - 1) / n % k :=
    Nat.mod_mul_right_div_self _ _ _
  have hlo : rs ≤ (rs + 16 + n - 1) / n * n := by
    have := Nat.lt_div_mul_add (a := rs + 16 + n - 1) (show 0 < n by omega)
    omega
  have hhi : (rs + 16 + n - 1) / n * n ≤ rs + 16 + n - 1 := Nat.div_mul_le_self _ _
  have hwrap : ((rs + 16 + n - 1) / n % k * n + (n * k - rs)) % (n * k) =
      (rs + 16 + n - 1) / n * n - rs := by
    generalize (rs + 16 + n - 1) / n = q at *
    have hmod : q % k * n = q * n % (n * k) := by
      rw [Nat.mul_comm n k, Nat.mul_mod_mul_right]
    rw [hmod, Nat.mod_add_mod]
    have heq : q * n + (n * k - rs) = (q * n - rs) + n * k := by omega
    rw [heq, Nat.add_mod_right, Nat.mod_eq_of_lt (by omega)]
  rw [hdiv, hwrap, UInt32.toNat_ofNat', Nat.mod_eq_of_lt (by omega)]

/-- The data stand behind the tag and are aligned. -/
theorem dataOff_spec {ptrBits rs : ℕ} {align al : UInt32} (hbits : 32 ≤ ptrBits)
    (hal : effectiveAlign align = some al) (hrs : rs < 2 ^ ptrBits) (h16 : rs % 16 = 0) :
    16 ≤ (dataOff ptrBits rs al).toNat ∧ (dataOff ptrBits rs al).toNat % 16 = 0 ∧
      (dataOff ptrBits rs al).toNat ≤ 4096 ∧ (rs + (dataOff ptrBits rs al).toNat) % al.toNat = 0 := by
  obtain ⟨hlo, hhi, hdvd, h16al⟩ := effectiveAlign_spec hal
  rw [dataOff_toNat hbits hdvd hlo hrs]
  generalize al.toNat = n at *
  have hlt := Nat.lt_div_mul_add (a := rs + 16 + n - 1) (show 0 < n by omega)
  have hle : (rs + 16 + n - 1) / n * n ≤ rs + 16 + n - 1 := Nat.div_mul_le_self _ _
  have h16q : 16 ∣ (rs + 16 + n - 1) / n * n := h16al.mul_left _
  refine ⟨by omega, by omega, by omega, ?_⟩
  rw [Nat.add_sub_cancel' (by omega)]
  exact Nat.mul_mod_left _ _

/-! ### Frames -/

/-- The second heap differs from the first one between two addresses only, and what was stored
in between was stored there, for the pool that is worked on. -/
structure Writes (lo hi : ℕ) (h h' : Heap) : Prop where
  same : ∀ a, a < lo ∨ hi ≤ a → h'.mem a = h.mem a
  inside : ∀ e ∈ h'.stores, e ∈ h.stores ∨ e.1 = h.cur ∧ lo ≤ e.2 ∧ e.2 + 4 ≤ hi
  cur : h'.cur = h.cur

namespace Writes

variable {lo hi lo' hi' : ℕ} {h h' h'' : Heap}

theorem refl (lo hi : ℕ) (h : Heap) : Writes lo hi h h :=
  ⟨fun _ _ => rfl, fun _ ha => .inl ha, rfl⟩

theorem trans (h₁ : Writes lo hi h h') (h₂ : Writes lo hi h' h'') : Writes lo hi h h'' where
  same := fun a ha => (h₂.same a ha).trans (h₁.same a ha)
  inside := by
    intro e he
    rcases h₂.inside e he with he | ⟨hcur, hin⟩
    · exact h₁.inside e he
    · exact .inr ⟨hcur.trans h₁.cur, hin⟩
  cur := h₂.cur.trans h₁.cur

theorem mono (hw : Writes lo hi h h') (hlo : lo' ≤ lo) (hhi : hi ≤ hi') : Writes lo' hi' h h' where
  same := fun a ha => hw.same a (by omega)
  inside := by
    intro e he
    rcases hw.inside e he with he | ⟨hcur, hin⟩
    · exact .inl he
    · exact .inr ⟨hcur, by omega⟩
  cur := hw.cur

theorem store (hw : Writes lo hi h h') {a : ℕ} {v : UInt32} (hlo : lo ≤ a) (hhi : a + 4 ≤ hi) :
    Writes lo hi h (h'.store a v) where
  same := fun b hb => (Function.update_of_ne (by omega) _ _).trans (hw.same b hb)
  inside := by
    intro e he
    rcases List.mem_cons.mp he with rfl | he
    · exact .inr ⟨hw.cur, hlo, hhi⟩
    · exact hw.inside e he
  cur := hw.cur

end Writes

@[simp] theorem store_mem_self (h : Heap) (a : ℕ) (v : UInt32) : (h.store a v).mem a = v :=
  Function.update_self _ _ _

theorem store_mem_ne (h : Heap) {a b : ℕ} (v : UInt32) (hne : b ≠ a) :
    (h.store a v).mem b = h.mem b := Function.update_of_ne hne _ _

section Region

variable {h : Heap} {rs : ℕ}

theorem mkFtr_spec {n : ℕ} (hn : (h.mem rs).toNat = n) (hmin : 32 ≤ n) :
    Writes (rs + 16) (rs + n) h (h.mkFtr rs) ∧ (h.mkFtr rs).mem (rs + n - 8) = h.mem rs ∧
      (h.mkFtr rs).mem (rs + n - 8 + 4) = h.mem (rs + 4) := by
  subst hn
  unfold Heap.mkFtr Heap.ftr
  refine ⟨?_, ?_, ?_⟩
  · refine Writes.store (Writes.store (Writes.refl _ _ h) ?_ ?_) ?_ ?_ <;> omega
  · rw [store_mem_ne _ _ (by omega), store_mem_self]
  · exact store_mem_self _ _ _

theorem setTag_spec (size free req off : UInt32) :
    Writes rs (rs + 16) h (h.setTag rs size free req off) ∧
      (h.setTag rs size free req off).mem rs = size ∧
      (h.setTag rs size free req off).mem (rs + 4) = free ∧
      (h.setTag rs size free req off).mem (rs + 8) = req ∧
      (h.setTag rs size free req off).mem (rs + 12) = off := by
  unfold Heap.setTag
  refine ⟨?_, ?_, ?_, ?_, store_mem_self _ _ _⟩
  · refine Writes.store (Writes.store (Writes.store (Writes.store (Writes.refl _ _ h)
      ?_ ?_) ?_ ?_) ?_ ?_) ?_ ?_ <;> omega
  · rw [store_mem_ne _ _ (by omega), store_mem_ne _ _ (by omega), store_mem_ne _ _ (by omega),
      store_mem_self]
  · rw [store_mem_ne _ _ (by omega), store_mem_ne _ _ (by omega), store_mem_self]
  · rw [store_mem_ne _ _ (by omega), store_mem_self]

end Region

/-! ### Regions -/

/-- What a region was given out for: the bytes and the alignment that the caller asked for, and
what the tag says of them. -/
structure Owner where
  bytes : UInt32
  align : UInt32
  req : UInt32
  off : UInt32

/-- The data of an owner lies in a region of `n` bytes at `rs`. -/
structure Owned (rs n : ℕ) (o : Owner) : Prop where
  tag : 16 ≤ o.off.toNat
  room : o.off.toNat + o.req.toNat + 8 ≤ n
  req : o.req.toNat = units o.bytes
  aligned : ∃ al, effectiveAlign o.align = some al ∧ (rs + o.off.toNat) % al.toNat = 0

/-- The tag and the footer of a region. -/
structure RegionAt (m : ℕ → UInt32) (rs : ℕ) (r : Block Owner) : Prop where
  size : (m rs).toNat = r.size
  ftrSize : m (rs + r.size - 8) = m rs
  ftrFree : m (rs + r.size - 8 + 4) = m (rs + 4)
  whole : r.size % 16 = 0
  least : 32 ≤ r.size
  free : r.data = none → m (rs + 4) = 1
  owned : ∀ o, r.data = some o →
    m (rs + 4) = 0 ∧ m (rs + 8) = o.req ∧ m (rs + 12) = o.off ∧ Owned rs r.size o

/-- The regions follow each other from `rs` on. -/
def Tiles (m : ℕ → UInt32) : ℕ → List (Block Owner) → Prop
  | _, [] => True
  | rs, r :: l => RegionAt m rs r ∧ Tiles m (rs + r.size) l

section Tiles

variable {m m' : ℕ → UInt32} {rs : ℕ} {r : Block Owner} {l l₁ l₂ : List (Block Owner)}

theorem RegionAt.frame (h : RegionAt m rs r)
    (hsame : ∀ a, rs ≤ a → a < rs + r.size → m' a = m a) : RegionAt m' rs r where
  size := by
    rw [hsame rs le_rfl (by have := h.least; omega)]
    exact h.size
  ftrSize := by
    have := h.least
    rw [hsame _ (by omega) (by omega), hsame rs le_rfl (by omega)]
    exact h.ftrSize
  ftrFree := by
    have := h.least
    rw [hsame _ (by omega) (by omega), hsame (rs + 4) (by omega) (by omega)]
    exact h.ftrFree
  whole := h.whole
  least := h.least
  free := by
    have := h.least
    rw [hsame (rs + 4) (by omega) (by omega)]
    exact h.free
  owned := by
    have := h.least
    rw [hsame (rs + 4) (by omega) (by omega), hsame (rs + 8) (by omega) (by omega),
      hsame (rs + 12) (by omega) (by omega)]
    exact h.owned

theorem tiles_append : Tiles m rs (l₁ ++ l₂) ↔ Tiles m rs l₁ ∧ Tiles m (rs + Block.total l₁) l₂ := by
  induction l₁ generalizing rs with
  | nil => simp [Tiles]
  | cons r l ih =>
    simp only [List.cons_append, Tiles, ih, Block.total_cons, Nat.add_assoc, and_assoc]

/-- Only the words of the regions matter. -/
theorem Tiles.frame (h : Tiles m rs l)
    (hsame : ∀ a, rs ≤ a → a < rs + Block.total l → m' a = m a) : Tiles m' rs l := by
  induction l generalizing rs with
  | nil => trivial
  | cons r l ih =>
    rw [Block.total_cons] at hsame
    refine ⟨h.1.frame fun a hlo hhi => hsame a hlo (by omega), ?_⟩
    exact ih h.2 fun a hlo hhi => hsame a (by omega) (by omega)

/-- Some neighbours are replaced by others of the same size. -/
theorem Tiles.splice {pre mid mid' post : List (Block Owner)}
    (h : Tiles m rs (pre ++ (mid ++ post))) (hmid : Tiles m' (rs + Block.total pre) mid')
    (htotal : Block.total mid' = Block.total mid)
    (hsame : ∀ a, a < rs + Block.total pre ∨ rs + Block.total pre + Block.total mid ≤ a →
      m' a = m a) : Tiles m' rs (pre ++ (mid' ++ post)) := by
  rw [tiles_append, tiles_append] at h ⊢
  obtain ⟨hpre, -, hpost⟩ := h
  refine ⟨hpre.frame fun a _ hhi => hsame a (.inl hhi), hmid, ?_⟩
  rw [htotal]
  exact hpost.frame fun a hlo _ => hsame a (.inr hlo)

theorem Tiles.total_mod (h : Tiles m rs l) : Block.total l % 16 = 0 := by
  induction l generalizing rs with
  | nil => rfl
  | cons r l ih =>
    have := ih h.2
    have := h.1.whole
    rw [Block.total_cons]
    omega

theorem Tiles.length_le (h : Tiles m rs l) : l.length ≤ Block.total l := by
  induction l generalizing rs with
  | nil => exact le_rfl
  | cons r l ih =>
    have := ih h.2
    have := h.1.least
    rw [Block.total_cons, List.length_cons]
    omega

/-- A block in use is a region with an owner. -/
theorem Tiles.owned_of_mem_held (h : Tiles m rs l) {e : ℕ × Owner} (he : e ∈ Block.held rs l) :
    ∃ n, rs ≤ e.1 ∧ e.1 + n ≤ rs + Block.total l ∧ Owned e.1 n e.2 := by
  induction l generalizing rs with
  | nil => cases he
  | cons r l ih =>
    have hrest : e ∈ Block.held (rs + r.size) l →
        ∃ n, rs ≤ e.1 ∧ e.1 + n ≤ rs + Block.total (r :: l) ∧ Owned e.1 n e.2 := by
      intro he
      obtain ⟨n, hlo, hhi, howned⟩ := ih h.2 he
      exact ⟨n, by omega, by rw [Block.total_cons]; omega, howned⟩
    rcases r with ⟨n, _ | o⟩
    · exact hrest he
    · rcases List.mem_cons.mp he with rfl | he
      · refine ⟨n, le_rfl, ?_, (h.1.owned o rfl).2.2.2⟩
        rw [Block.total_cons]
        dsimp only
        omega
      · exact hrest he

end Tiles

/-! ### Allocation -/

/-- A free region at `rs` passes the tests of the allocator. -/
def Passes (ptrBits : ℕ) (m : ℕ → UInt32) (rs : ℕ) (req align : UInt32) : Prop :=
  m (rs + 4) ≠ 0 ∧ needOf ptrBits rs req align ≤ m rs ∧ r16 (needOf ptrBits rs req align) ≤ m rs

/-- The walk from `rs` takes the region at `r`, the first one that passes. -/
inductive Takes (ptrBits : ℕ) (m : ℕ → UInt32) (fin : ℕ) (req align : UInt32) : ℕ → ℕ → Prop
  | here {rs : ℕ} : rs < fin → Passes ptrBits m rs req align → Takes ptrBits m fin req align rs rs
  | next {rs r : ℕ} : rs < fin → ¬ Passes ptrBits m rs req align →
      Takes ptrBits m fin req align (rs + (m rs).toNat) r → Takes ptrBits m fin req align rs r

theorem Takes.unique {ptrBits fin rs r r' : ℕ} {m : ℕ → UInt32} {req align : UInt32}
    (h : Takes ptrBits m fin req align rs r) (h' : Takes ptrBits m fin req align rs r') : r = r' := by
  induction h with
  | here _ hpass =>
    cases h' with
    | here => rfl
    | next _ hskip => exact absurd hpass hskip
  | next _ hskip _ ih =>
    cases h' with
    | here _ hpass => exact absurd hpass hskip
    | next _ _ h' => exact ih h'

section Alloc

variable {ptrBits fin n rs : ℕ} {req align : UInt32} {h : Heap} {l : List (Block Owner)}

theorem allocLoop_nil (hle : fin ≤ rs) :
    allocLoop ptrBits req align fin n rs h = .ok (none, h) := by
  cases n with
  | zero => rw [allocLoop, if_neg (by omega)]
  | succ n => rw [allocLoop, if_neg (by omega)]

theorem allocLoop_next (hlt : rs < fin) (hskip : ¬ Passes ptrBits h.mem rs req align) :
    allocLoop ptrBits req align fin (n + 1) rs h =
      allocLoop ptrBits req align fin n (rs + (h.mem rs).toNat) h := by
  rw [allocLoop, if_pos hlt]
  dsimp only
  by_cases hfree : h.mem (rs + 4) = 0
  · rw [if_pos hfree]
  · rw [if_neg hfree]
    split
    · rfl
    · rename_i hneed
      rw [if_pos]
      by_contra hnew
      exact hskip ⟨hfree, UInt32.not_lt.mp hneed, UInt32.not_lt.mp hnew⟩

theorem allocLoop_take (hlt : rs < fin) (hpass : Passes ptrBits h.mem rs req align) :
    allocLoop ptrBits req align fin (n + 1) rs h =
      .ok (some (rs + (dataOff ptrBits rs align).toNat),
        carve h rs req (dataOff ptrBits rs align) (r16 (needOf ptrBits rs req align))) := by
  obtain ⟨hfree, hneed, hnew⟩ := hpass
  rw [allocLoop, if_pos hlt]
  dsimp only
  rw [if_neg hfree, if_neg (UInt32.not_lt.mpr hneed), if_neg (UInt32.not_lt.mpr hnew)]

/-- The walk takes the first region that passes, or finds none. -/
theorem allocLoop_cases (ht : Tiles h.mem rs l) (hfin : rs + Block.total l = fin)
    (hfuel : l.length ≤ n) :
    (allocLoop ptrBits req align fin n rs h = .ok (none, h) ∧
        ∀ r, ¬ Takes ptrBits h.mem fin req align rs r) ∨
      ∃ pre k post, l = pre ++ (⟨k, none⟩ :: post) ∧
        Takes ptrBits h.mem fin req align rs (rs + Block.total pre) ∧
        Passes ptrBits h.mem (rs + Block.total pre) req align ∧
        allocLoop ptrBits req align fin n rs h =
          .ok (some (rs + Block.total pre + (dataOff ptrBits (rs + Block.total pre) align).toNat),
            carve h (rs + Block.total pre) req (dataOff ptrBits (rs + Block.total pre) align)
              (r16 (needOf ptrBits (rs + Block.total pre) req align))) := by
  induction l generalizing rs n with
  | nil =>
    rw [Block.total_nil] at hfin
    refine .inl ⟨allocLoop_nil (by omega), fun r hr => ?_⟩
    cases hr with
    | here hlt => omega
    | next hlt => omega
  | cons r l ih =>
    cases n with
    | zero => simp at hfuel
    | succ n =>
      have hleast := ht.1.least
      rw [Block.total_cons] at hfin
      have hlt : rs < fin := by omega
      by_cases hpass : Passes ptrBits h.mem rs req align
      · -- only a free region passes
        have hnone : r.data = none := by
          cases hd : r.data with
          | none => rfl
          | some o => exact absurd (ht.1.owned o hd).1 hpass.1
        refine .inr ⟨[], r.size, l, ?_, .here hlt hpass, hpass, allocLoop_take hlt hpass⟩
        rw [List.nil_append, ← hnone]
      · rw [allocLoop_next hlt hpass, ht.1.size]
        rcases ih ht.2 (by omega) (by simpa using hfuel) with
          ⟨hnone, hno⟩ | ⟨pre, k, post, hl, hv, hp, heq⟩
        · refine .inl ⟨hnone, fun r' hr => ?_⟩
          cases hr with
          | here _ hp => exact hpass hp
          | next _ _ hr =>
            rw [ht.1.size] at hr
            exact hno r' hr
        · have hpos : rs + Block.total (r :: pre) = rs + r.size + Block.total pre := by
            rw [Block.total_cons]
            omega
          refine .inr ⟨r :: pre, k, post, by rw [hl, List.cons_append], ?_, ?_, ?_⟩
          · rw [hpos]
            apply Takes.next hlt hpass
            rw [ht.1.size]
            exact hv
          · rw [hpos]
            exact hp
          · rw [hpos]
            exact heq

/-- The bytes that a region needs for a request, without a bound. -/
def wholeNeed (ptrBits rs : ℕ) (bytes align : UInt32) : ℕ :=
  (dataOff ptrBits rs align).toNat + units bytes + 8

theorem needOf_toNat {bytes : UInt32} (h : wholeNeed ptrBits rs bytes align < 2 ^ 32) :
    (needOf ptrBits rs (reqOf bytes) align).toNat = wholeNeed ptrBits rs bytes align := by
  unfold wholeNeed at h ⊢
  have hreq : (reqOf bytes).toNat = units bytes := reqOf_toNat (by omega)
  have h8 : (8 : UInt32).toNat = 8 := rfl
  unfold needOf
  rw [UInt32.toNat_add, UInt32.toNat_add, hreq, h8, Nat.mod_eq_of_lt (a := _ + _) (by omega),
    Nat.mod_eq_of_lt (by omega)]

end Alloc

section Make

variable {h : Heap} {rs n : ℕ}

theorem setTag_mkFtr_spec {size : UInt32} (free req off : UInt32) (hn : size.toNat = n)
    (hleast : 32 ≤ n) :
    Writes rs (rs + n) h ((h.setTag rs size free req off).mkFtr rs) ∧
      ((h.setTag rs size free req off).mkFtr rs).mem rs = size ∧
      ((h.setTag rs size free req off).mkFtr rs).mem (rs + 4) = free ∧
      ((h.setTag rs size free req off).mkFtr rs).mem (rs + 8) = req ∧
      ((h.setTag rs size free req off).mkFtr rs).mem (rs + 12) = off ∧
      ((h.setTag rs size free req off).mkFtr rs).mem (rs + n - 8) = size ∧
      ((h.setTag rs size free req off).mkFtr rs).mem (rs + n - 8 + 4) = free := by
  obtain ⟨hw, hsize, hfree, hreq, hoff⟩ := @setTag_spec h rs size free req off
  have hsize' : ((h.setTag rs size free req off).mem rs).toNat = n := by rw [hsize, hn]
  obtain ⟨hw', hf, hf'⟩ := mkFtr_spec hsize' hleast
  refine ⟨(hw.mono le_rfl (by omega)).trans (hw'.mono (by omega) le_rfl), ?_, ?_, ?_, ?_, ?_, ?_⟩
  · rw [hw'.same _ (by omega), hsize]
  · rw [hw'.same _ (by omega), hfree]
  · rw [hw'.same _ (by omega), hreq]
  · rw [hw'.same _ (by omega), hoff]
  · rw [hf, hsize]
  · rw [hf', hfree]

theorem regionAt_free {size req off : UInt32} (hn : size.toNat = n) (hleast : 32 ≤ n)
    (hwhole : n % 16 = 0) :
    RegionAt ((h.setTag rs size 1 req off).mkFtr rs).mem rs ⟨n, none⟩ := by
  obtain ⟨-, hsize, hfree, -, -, hfsize, hffree⟩ :=
    @setTag_mkFtr_spec h rs n size 1 req off hn hleast
  constructor
  · rw [hsize, hn]
  · rw [hfsize, hsize]
  · rw [hffree, hfree]
  · exact hwhole
  · exact hleast
  · exact fun _ => hfree
  · intro o ho
    cases ho

theorem regionAt_owned {size : UInt32} {o : Owner} (hn : size.toNat = n) (hleast : 32 ≤ n)
    (hwhole : n % 16 = 0) (ho : Owned rs n o) :
    RegionAt ((h.setTag rs size 0 o.req o.off).mkFtr rs).mem rs ⟨n, some o⟩ := by
  obtain ⟨-, hsize, hfree, hreq, hoff, hfsize, hffree⟩ :=
    @setTag_mkFtr_spec h rs n size 0 o.req o.off hn hleast
  constructor
  · rw [hsize, hn]
  · rw [hfsize, hsize]
  · rw [hffree, hfree]
  · exact hwhole
  · exact hleast
  · intro hd
    cases hd
  · intro o' ho'
    obtain rfl := Option.some.inj ho'
    exact ⟨hfree, hreq, hoff, ho⟩

end Make

/-- What the chosen region is split into. -/
theorem carve_spec {ptrBits rs k : ℕ} {h : Heap} {bytes align al : UInt32}
    (hr : RegionAt h.mem rs ⟨k, none⟩) (hbits : 32 ≤ ptrBits)
    (hal : effectiveAlign align = some al) (hrs : rs < 2 ^ ptrBits) (h16 : rs % 16 = 0)
    (hpass : Passes ptrBits h.mem rs (reqOf bytes) al)
    (hwrap : wholeNeed ptrBits rs bytes al < 2 ^ 32) :
    Writes rs (rs + k) h (carve h rs (reqOf bytes) (dataOff ptrBits rs al)
        (r16 (needOf ptrBits rs (reqOf bytes) al))) ∧
      ∃ n rest, (rest = [] ∨ ∃ j, rest = [⟨j, none⟩]) ∧ n + Block.total rest = k ∧
        Tiles (carve h rs (reqOf bytes) (dataOff ptrBits rs al)
            (r16 (needOf ptrBits rs (reqOf bytes) al))).mem rs
          (⟨n, some ⟨bytes, align, reqOf bytes, dataOff ptrBits rs al⟩⟩ :: rest) := by
  obtain ⟨-, hneed, -⟩ := hpass
  obtain ⟨hoff, hoff16, -, hmod⟩ := dataOff_spec hbits hal hrs h16
  obtain ⟨-, hu, hu16⟩ := units_spec bytes
  have hreq : (reqOf bytes).toNat = units bytes := by
    apply reqOf_toNat
    unfold wholeNeed at hwrap
    omega
  have hsize : (h.mem rs).toNat = k := hr.size
  have hwhole : k % 16 = 0 := hr.whole
  have hneedNat := needOf_toNat hwrap
  have hle : (needOf ptrBits rs (reqOf bytes) al).toNat ≤ k := by
    rw [← hsize]
    exact UInt32.le_iff_toNat_le.mp hneed
  have hk : k < 2 ^ 32 := by
    rw [← hsize]
    exact (h.mem rs).toNat_lt
  unfold wholeNeed at hneedNat
  -- the sum is eight above a whole unit, so that the rounding adds eight
  have hnew : (r16 (needOf ptrBits rs (reqOf bytes) al)).toNat =
      (dataOff ptrBits rs al).toNat + units bytes + 16 := by
    rw [r16_toNat] <;> omega
  generalize r16 (needOf ptrBits rs (reqOf bytes) al) = newSz at *
  have howned : ∀ n, newSz.toNat ≤ n →
      Owned rs n ⟨bytes, align, reqOf bytes, dataOff ptrBits rs al⟩ := by
    intro n hn
    refine ⟨hoff, ?_, hreq, al, hal, hmod⟩
    dsimp only
    omega
  have hnewle : newSz.toNat ≤ k := by omega
  have htail : (h.mem rs - newSz).toNat = k - newSz.toNat := by
    rw [UInt32.toNat_sub_of_le _ _ (UInt32.le_iff_toNat_le.mpr (by omega)), hsize]
  unfold carve
  dsimp only
  split
  · rename_i h32
    have h32 : 32 ≤ k - newSz.toNat := by
      rw [← htail]
      exact UInt32.le_iff_toNat_le.mp h32
    have hfree := @regionAt_free h (rs + newSz.toNat) _ (h.mem rs - newSz) 0 0 htail h32 (by omega)
    have hwrite := (@setTag_mkFtr_spec h (rs + newSz.toNat) _ (h.mem rs - newSz) 1 0 0 htail h32).1
    generalize (h.setTag (rs + newSz.toNat) (h.mem rs - newSz) 1 0 0).mkFtr (rs + newSz.toNat) =
      h₁ at *
    have hown := @regionAt_owned h₁ rs newSz.toNat newSz _ rfl (by omega) (by omega)
      (howned _ le_rfl)
    have hwrite' := (@setTag_mkFtr_spec h₁ rs newSz.toNat newSz 0 (reqOf bytes)
      (dataOff ptrBits rs al) rfl (by omega)).1
    refine ⟨(hwrite.mono (by omega) (by omega)).trans (hwrite'.mono le_rfl (by omega)), ?_⟩
    refine ⟨newSz.toNat, [⟨k - newSz.toNat, none⟩], .inr ⟨_, rfl⟩, ?_, hown, ?_, trivial⟩
    · simp only [Block.total_cons, Block.total_nil]
      omega
    · exact hfree.frame fun a hlo _ => hwrite'.same a (.inr hlo)
  · refine ⟨(setTag_mkFtr_spec 0 _ _ hsize hr.least).1, k, [], .inl rfl, by simp, ?_, trivial⟩
    exact @regionAt_owned h rs k (h.mem rs) ⟨bytes, align, reqOf bytes, dataOff ptrBits rs al⟩
      hsize hr.least hwhole (howned k hnewle)

/-! ### Release -/

section Release

variable {fin n ptr rs k : ℕ} {h : Heap} {l pre post : List (Block Owner)}

/-- The walk finds the region that holds the data. -/
theorem findLoop_cases (ht : Tiles h.mem rs l) (hfin : rs + Block.total l = fin)
    (hfuel : l.length ≤ n) :
    (findLoop h fin ptr n rs = .ok none ∧ ∀ e ∈ Block.held rs l, e.1 + e.2.off.toNat ≠ ptr) ∨
      ∃ pre k o post, l = pre ++ (⟨k, some o⟩ :: post) ∧
        rs + Block.total pre + o.off.toNat = ptr ∧
        findLoop h fin ptr n rs = .ok (some (rs + Block.total pre)) := by
  induction l generalizing rs n with
  | nil =>
    rw [Block.total_nil] at hfin
    have hnone : findLoop h fin ptr n rs = .ok none := by
      cases n with
      | zero => rw [findLoop, if_neg (by omega)]
      | succ n => rw [findLoop, if_neg (by omega)]
    exact .inl ⟨hnone, by simp⟩
  | cons r l ih =>
    cases n with
    | zero => simp at hfuel
    | succ n =>
      have hleast := ht.1.least
      rw [Block.total_cons] at hfin
      rw [findLoop, if_pos (show rs < fin by omega), ht.1.size]
      by_cases hhere : h.mem (rs + 4) = 0 ∧ rs + (h.mem (rs + 12)).toNat = ptr
      · rw [if_pos hhere]
        obtain ⟨hfree, hptr⟩ := hhere
        rcases r with ⟨k, _ | o⟩
        · have := ht.1.free rfl
          rw [hfree] at this
          cases this
        · rw [(ht.1.owned o rfl).2.2.1] at hptr
          exact .inr ⟨[], k, o, l, rfl, hptr, rfl⟩
      · rw [if_neg hhere]
        rcases ih ht.2 (by omega) (by simpa using hfuel) with
          ⟨hnone, hall⟩ | ⟨pre, k, o, post, hl, hptr, heq⟩
        · refine .inl ⟨hnone, fun e he => ?_⟩
          rcases r with ⟨k, _ | o⟩
          · exact hall e he
          · rcases List.mem_cons.mp he with rfl | he
            · obtain ⟨hfree, -, hoff, -⟩ := ht.1.owned o rfl
              rw [hoff] at hhere
              exact fun hptr => hhere ⟨hfree, hptr⟩
            · exact hall e he
        · have hpos : rs + Block.total (r :: pre) = rs + r.size + Block.total pre := by
            rw [Block.total_cons]
            omega
          refine .inr ⟨r :: pre, k, o, post, by rw [hl, List.cons_append], ?_, ?_⟩
          · rw [hpos]
            exact hptr
          · rw [hpos]
            exact heq

theorem regionAt_mkFtr (hsize : (h.mem rs).toNat = n) (hfree : h.mem (rs + 4) = 1)
    (hleast : 32 ≤ n) (hwhole : n % 16 = 0) :
    Writes rs (rs + n) h (h.mkFtr rs) ∧ RegionAt (h.mkFtr rs).mem rs ⟨n, none⟩ := by
  obtain ⟨hw, hfsize, hffree⟩ := mkFtr_spec hsize hleast
  refine ⟨hw.mono (by omega) le_rfl, ?_⟩
  constructor
  · rw [hw.same rs (by omega), hsize]
  · rw [hfsize, hw.same rs (by omega)]
  · rw [hffree, hw.same (rs + 4) (by omega)]
  · exact hwhole
  · exact hleast
  · intro _
    rw [hw.same (rs + 4) (by omega), hfree]
  · intro o ho
    cases ho

/-- The region takes in a free one behind it. -/
theorem joinNext_spec {o : Owner} (hr : RegionAt h.mem rs ⟨k, some o⟩)
    (hpost : Tiles h.mem (rs + k) post) (hfin : rs + k + Block.total post = fin)
    (hsum : k + Block.total post < 2 ^ 32) :
    Writes rs (rs + 16) h (joinNext h fin rs) ∧
      ((joinNext h fin rs).mem rs).toNat = k + (Block.absorb post).1 ∧
      (joinNext h fin rs).mem (rs + 4) = 1 := by
  have hk : 32 ≤ k := hr.least
  have hsize : (h.mem rs).toNat = k := hr.size
  unfold joinNext
  dsimp only
  have hw : Writes rs (rs + 16) h ((h.store (rs + 4) 1).store (rs + 8) 0) := by
    refine Writes.store (Writes.store (Writes.refl _ _ h) ?_ ?_) ?_ ?_ <;> omega
  have hone : ((h.store (rs + 4) 1).store (rs + 8) 0).mem (rs + 4) = 1 := by
    rw [store_mem_ne _ _ (by omega), store_mem_self]
  have hrs : ((h.store (rs + 4) 1).store (rs + 8) 0).mem rs = h.mem rs := by
    rw [store_mem_ne _ _ (by omega), store_mem_ne _ _ (by omega)]
  generalize (h.store (rs + 4) 1).store (rs + 8) 0 = h₁ at *
  have hnext : ∀ a, rs + k ≤ a → h₁.mem a = h.mem a := fun a ha => hw.same a (.inr (by omega))
  rw [hrs, hsize, hnext _ (by omega), hnext _ le_rfl]
  rcases post with _ | ⟨⟨x, _ | o'⟩, post⟩
  · rw [Block.total_nil] at hfin
    rw [if_neg (by omega), Block.absorb_nil]
    exact ⟨hw, by rw [hrs, hsize, Nat.add_zero], hone⟩
  · -- the next region is free
    have hx : 32 ≤ x := hpost.1.least
    have hxsize : (h.mem (rs + k)).toNat = x := hpost.1.size
    rw [Block.total_cons] at hfin hsum
    dsimp only at hfin hsum
    rw [if_pos ⟨by omega, by rw [hpost.1.free rfl]; decide⟩, Block.absorb_free]
    refine ⟨hw.store (by omega) (by omega), ?_, ?_⟩
    · rw [store_mem_self, UInt32.toNat_add, hsize, hxsize, Nat.mod_eq_of_lt (by omega)]
    · rw [store_mem_ne _ _ (by omega), hone]
  · rw [if_neg (fun hc => hc.2 (hpost.1.owned o' rfl).1), Block.absorb_some]
    exact ⟨hw, by rw [hrs, hsize, Nat.add_zero], hone⟩

/-- A free region in front takes it in. -/
theorem joinPrev_spec {base N : ℕ} (hpre : Tiles h.mem base pre)
    (hrs : rs = base + Block.total pre) (hr : RegionAt h.mem rs ⟨N, none⟩)
    (hsum : Block.total pre + N < 2 ^ 32) :
    Writes (rs - (Block.absorb pre.reverse).1) (rs + N) h (joinPrev h base rs) ∧
      RegionAt (joinPrev h base rs).mem (rs - (Block.absorb pre.reverse).1)
        ⟨(Block.absorb pre.reverse).1 + N, none⟩ := by
  have hN : 32 ≤ N := hr.least
  have hNsize : (h.mem rs).toNat = N := hr.size
  unfold joinPrev
  rcases pre.eq_nil_or_concat' with rfl | ⟨pre', ⟨q, d⟩, rfl⟩
  · rw [Block.total_nil] at hrs
    rw [if_neg (by omega), List.reverse_nil, Block.absorb_nil]
    simpa using ⟨Writes.refl _ _ h, hr⟩
  · rw [tiles_append] at hpre
    obtain ⟨hq, -⟩ := hpre.2
    have hql : 32 ≤ q := hq.least
    have hqsize : (h.mem (base + Block.total pre')).toNat = q := hq.size
    have hftr := hq.ftrSize
    have hflag := hq.ftrFree
    rw [Block.total_append] at hrs hsum
    simp only [Block.total_cons, Block.total_nil, Nat.add_zero] at hrs hsum hftr hflag
    have hend : base + Block.total pre' + q = rs := by omega
    rw [hend] at hftr hflag
    rw [List.reverse_append, List.reverse_singleton, List.singleton_append]
    cases d with
    | some o =>
      rw [if_neg, Block.absorb_some]
      · simpa using ⟨Writes.refl _ _ h, hr⟩
      · rw [hflag, (hq.owned o rfl).1]
        simp
    | none =>
      rw [if_pos ⟨by omega, by rw [hflag, hq.free rfl]; decide⟩, Block.absorb_free]
      dsimp only
      rw [hftr, hqsize]
      have hprev : rs - q = base + Block.total pre' := by omega
      rw [hprev]
      have hsize : ((h.store (base + Block.total pre')
          (h.mem (base + Block.total pre') + h.mem rs)).mem (base + Block.total pre')).toNat =
            q + N := by
        rw [store_mem_self, UInt32.toNat_add, hqsize, hNsize, Nat.mod_eq_of_lt (by omega)]
      have hfree : (h.store (base + Block.total pre')
          (h.mem (base + Block.total pre') + h.mem rs)).mem (base + Block.total pre' + 4) = 1 := by
        rw [store_mem_ne _ _ (by omega)]
        exact hq.free rfl
      have hwhole : q % 16 = 0 := hq.whole
      have hwhole' : N % 16 = 0 := hr.whole
      obtain ⟨hw, hreg⟩ := regionAt_mkFtr hsize hfree (by omega) (by omega)
      have hstore : Writes (base + Block.total pre') (rs + N) h (h.store (base + Block.total pre')
          (h.mem (base + Block.total pre') + h.mem rs)) :=
        (Writes.refl _ _ h).store le_rfl (by omega)
      exact ⟨hstore.trans (hw.mono le_rfl (by omega)), hreg⟩

/-- A release joins the region with its free neighbours. -/
theorem freeRegion_spec {base : ℕ} {o : Owner} (ht : Tiles h.mem base (pre ++ (⟨k, some o⟩ :: post)))
    (hfin : base + Block.total (pre ++ (⟨k, some o⟩ :: post)) = fin)
    (hsum : Block.total (pre ++ (⟨k, some o⟩ :: post)) < 2 ^ 32) :
    Writes base fin h (freeRegion h base fin (base + Block.total pre)) ∧
      Tiles (freeRegion h base fin (base + Block.total pre)).mem base
        (Block.release pre.reverse k post) := by
  obtain ⟨hpre, hr, hpost⟩ := tiles_append.mp ht
  simp only [Block.total_append, Block.total_cons] at hfin hsum
  dsimp only at hpost hfin hsum
  generalize hrs : base + Block.total pre = rs at *
  have hk : 32 ≤ k := hr.least
  have hkwhole : k % 16 = 0 := hr.whole
  have hend : rs + k + Block.total post = fin := by omega
  obtain ⟨hw₁, hsize, hfree⟩ := joinNext_spec hr hpost hend (by omega)
  have hright := Block.total_absorb post
  have hleft := Block.total_absorb pre.reverse
  rw [Block.total_reverse] at hleft
  have hwhole : (Block.absorb post).1 % 16 = 0 := by
    rcases post with _ | ⟨⟨x, _ | o'⟩, post⟩
    · rfl
    · exact hpost.1.whole
    · rfl
  obtain ⟨hw₂, hreg⟩ := regionAt_mkFtr hsize hfree (by omega) (by omega)
  have hw₁₂ := (hw₁.mono le_rfl (show rs + 16 ≤ rs + (k + (Block.absorb post).1) by omega)).trans hw₂
  have hpre₂ : Tiles ((joinNext h fin rs).mkFtr rs).mem base pre :=
    hpre.frame fun a _ ha => hw₁₂.same a (.inl (by omega))
  obtain ⟨hw₃, hreg₃⟩ := joinPrev_spec hpre₂ hrs.symm hreg (by omega)
  have hw := (hw₁₂.mono (show rs - (Block.absorb pre.reverse).1 ≤ rs by omega) le_rfl).trans hw₃
  refine ⟨hw.mono (by omega) (by omega), ?_⟩
  obtain ⟨front, hfront, hfronttotal⟩ := Block.exists_front post
  obtain ⟨back, hback, hbacktotal⟩ := Block.exists_front pre.reverse
  have hback' : pre = (Block.absorb pre.reverse).2.reverse ++ back.reverse := by
    rw [← List.reverse_append, ← hback, List.reverse_reverse]
  have hsplit : pre ++ (⟨k, some o⟩ :: post) = (Block.absorb pre.reverse).2.reverse ++
      ((back.reverse ++ ⟨k, some o⟩ :: front) ++ (Block.absorb post).2) := by
    conv_lhs => rw [hback', hfront]
    simp
  rw [hsplit] at ht
  have hmid : rs - (Block.absorb pre.reverse).1 =
      base + Block.total (Block.absorb pre.reverse).2.reverse := by
    rw [Block.total_reverse]
    omega
  rw [hmid] at hw hreg₃
  unfold Block.release
  rw [← List.singleton_append, Nat.add_assoc]
  have htiles : Tiles (joinPrev ((joinNext h fin rs).mkFtr rs) base rs).mem
      (base + Block.total (Block.absorb pre.reverse).2.reverse)
      [⟨(Block.absorb pre.reverse).1 + (k + (Block.absorb post).1), none⟩] := ⟨hreg₃, trivial⟩
  apply Tiles.splice ht htiles
  · simp only [Block.total_append, Block.total_reverse, Block.total_cons, Block.total_nil]
    omega
  · intro a ha
    apply hw.same
    simp only [Block.total_append, Block.total_reverse, Block.total_cons] at ha ⊢
    omega

end Release

theorem oneRegion_spec {h : Heap} {base : ℕ} {cap : UInt32} (hleast : 32 ≤ cap.toNat)
    (hwhole : cap.toNat % 16 = 0) :
    Writes base (base + cap.toNat) h (oneRegion h base cap) ∧
      Tiles (oneRegion h base cap).mem base [⟨cap.toNat, none⟩] :=
  ⟨(setTag_mkFtr_spec 1 0 0 rfl hleast).1, regionAt_free rfl hleast hwhole, trivial⟩

end Gehtp.Analysis.ArenaTiles
