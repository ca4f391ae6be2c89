import Gehtp.Model.MatMulExtra
import Mathlib.Algebra.Order.BigOperators.Group.List
import Mathlib.Data.List.DropRight
import Mathlib.Data.UInt
import Mathlib.Tactic.Ring

/-!
# When the extracted sizes are those of the product

The operands of a product are a batch of matrices each; the two batches are broadcast against one
another. The extractor first strips the ones at the end of both shapes, as if they were padding,
and then takes the last axes that are left for those of the matrices. An axis of size one of the
product itself is lost so. Where none is, the sizes give the element counts of the operands and of
the result exactly when the batches agree with what the extractor makes of them.
-/

set_option autoImplicit false

namespace Gehtp.Analysis.MatMulSizes

open Model.OpGraph Model.MatMulExtra

/-! ### Products -/

/-- Two batches against one another, the last axis first. -/
def broadcast : List ℕ → List ℕ → Option (List ℕ)
  | [], l => some l
  | l, [] => some l
  | x :: xs, y :: ys =>
    if x = y ∨ y = 1 then (broadcast xs ys).map (x :: ·)
    else if x = 1 then (broadcast xs ys).map (y :: ·)
    else none

/-- A batched product of `m × k` matrices by `k × n` matrices. -/
structure Product where
  batchA : List ℕ
  batchB : List ℕ
  batch : List ℕ
  m : ℕ
  k : ℕ
  n : ℕ
  rankA : batchA.length ≤ 3
  rankB : batchB.length ≤ 3
  agree : broadcast batchA.reverse batchB.reverse = some batch.reverse
  pos : ∀ d ∈ batchA ++ batchB ++ [m, k, n], 0 < d
  word : ∀ d ∈ batchA ++ batchB ++ [m, k, n], d < 2 ^ 32

namespace Product

/-- The shape of the first operand; `t0` tells that its matrices lie transposed. -/
def shapeA (p : Product) (t0 : UInt32) : List ℕ :=
  p.batchA ++ if t0 ≠ 0 then [p.k, p.m] else [p.m, p.k]

def shapeB (p : Product) (t1 : UInt32) : List ℕ :=
  p.batchB ++ if t1 ≠ 0 then [p.n, p.k] else [p.k, p.n]

def shapeOut (p : Product) : List ℕ := p.batch ++ [p.m, p.n]

end Product

/-- The dimensions of an output that count are these. -/
def HasShape (od : OutputDef) (s : List ℕ) : Prop :=
  od.rank = s.length ∧ s.length ≤ 5 ∧ od.dims.toList.take s.length = s

instance (od : OutputDef) (s : List ℕ) : Decidable (HasShape od s) :=
  inferInstanceAs (Decidable (_ ∧ _ ∧ _))

/-- The extraction stays inside of the arrays, and its sizes count the elements of the operands and
of the result; without the flag there is one batch. -/
def CountsElements (p : Product) (t0 t1 : UInt32) (r : Option ExtraMatMul) : Prop :=
  ∃ e, r = some e ∧ ∃ batch : ℕ, (e.batched = 0 → batch = 1) ∧
    batch * e.m.toNat * e.k.toNat = (p.shapeA t0).prod ∧
    batch * e.k.toNat * e.n.toNat = (p.shapeB t1).prod ∧
    batch * e.m.toNat * e.n.toNat = p.shapeOut.prod

/-! ### The axes that are left -/

/-- A shape without the ones at its end. -/
def strip (s : List ℕ) : List ℕ := s.rdropWhile (decide <| · = 1)

/-- The last axis of the first and the last but one of the second are there and differ. -/
def clash (a b : List ℕ) : Bool :=
  decide (2 ≤ a.length ∧ 2 ≤ b.length ∧ a[a.length - 1]? ≠ b[b.length - 2]?)

/-- The axes that the extractor works with: stripped, unless that makes them clash. -/
def kept (sa sb : List ℕ) : List ℕ × List ℕ :=
  if clash (strip sa) (strip sb) then (sa, sb) else (strip sa, strip sb)

/-- Both have a batch, and that of the first is the start of the second. -/
def SharedBatch (a b : List ℕ) : Prop :=
  3 ≤ a.length ∧ 3 ≤ b.length ∧ a.take (a.length - 2) = b.take (a.length - 2)

instance (a b : List ℕ) : Decidable (SharedBatch a b) :=
  inferInstanceAs (Decidable (_ ∧ _ ∧ _))

namespace Product

/-- What makes the sizes right when no axis is stripped: folded into the rows, only the first
operand may have a batch, and with a transposed one neither may; kept apart, the two batches are
the batch of the result, or they differ from it as the transposed axes do. -/
def WholeFits (p : Product) (t0 t1 : UInt32) : Prop :=
  if SharedBatch (p.shapeA t0) (p.shapeB t1) then
    if t0 = 0 then p.batchA.prod = p.batch.prod ∧ p.batchB.prod = p.batch.prod
    else p.batchA.prod * p.m = p.batchB.prod * p.k ∧ p.batchA.prod * p.k = p.batch.prod * p.m
  else if t0 = 0 then p.batchB.prod = 1 ∧ p.batchA.prod * p.m < 2 ^ 32
  else p.batch.prod = 1

/-- No axis of the operands is taken for padding. -/
def KeepsAxes (p : Product) (t0 t1 : UInt32) : Prop :=
  kept (p.shapeA t0) (p.shapeB t1) = (p.shapeA t0, p.shapeB t1)

/-- The condition on the operands: every axis counts, and the batches agree. -/
def Fits (p : Product) (t0 t1 : UInt32) : Prop := p.KeepsAxes t0 t1 ∧ p.WholeFits t0 t1

end Product

/-! ### What the extractor reads -/

variable {od a b : OutputDef} {s sa sb rows lead : List ℕ} {d x y z : ℕ}

theorem dimBack_append {l r : List ℕ} (h : HasShape od s) (hpre : l ++ d :: r <+: s) :
    dimBack od (l ++ d :: r).length (r.length + 1) = some d := by
  have hle : r.length + 1 ≤ (l ++ d :: r).length := by
    rw [List.length_append, List.length_cons]
    omega
  have hidx : (l ++ d :: r).length - (r.length + 1) = l.length := by
    rw [List.length_append, List.length_cons]
    omega
  have hfull : l ++ d :: r <+: od.dims.toList := hpre.trans (h.2.2 ▸ List.take_prefix _ _)
  obtain ⟨rest, hrest⟩ := hfull
  rw [dimBack, if_pos hle, hidx, ← hrest, List.append_assoc, List.cons_append,
    List.getElem?_append_right le_rfl, Nat.sub_self, List.getElem?_cons_zero]

theorem leading_eq {a : List ℕ} {n : ℕ} (h : HasShape od s) (hpre : a <+: s) (hn : n ≤ a.length) :
    leading od n = some (a.take n) := by
  have hlen := hpre.length_le
  have hfive : n ≤ 5 := hn.trans (hlen.trans h.2.1)
  have hfull : a <+: od.dims.toList := hpre.trans (h.2.2 ▸ List.take_prefix _ _)
  obtain ⟨rest, hrest⟩ := hfull
  rw [leading, if_pos hfive, ← hrest, List.take_append_of_le_length hn]

theorem prefix_strip (s : List ℕ) : strip s <+: s := List.rdropWhile_prefix _ s

theorem stripOnes_eq (h : HasShape od s) :
    ∀ l : List ℕ, l <+: s → stripOnes od l.length = some (strip l).length := by
  intro l
  induction l using List.reverseRecOn with
  | nil => exact fun _ => rfl
  | append_singleton l d ih =>
    intro hpre
    have hread := dimBack_append (r := []) h hpre
    rw [List.length_append, List.length_singleton, stripOnes]
    rw [List.length_append, List.length_singleton] at hread
    simp only [List.length_nil, Nat.zero_add] at hread
    rw [hread, Option.bind_eq_bind, Option.bind_some, strip]
    by_cases hd : d = 1
    · rw [if_pos hd, List.rdropWhile_concat_pos _ _ _ (by simpa using hd)]
      exact ih ((List.prefix_append l [d]).trans hpre)
    · rw [if_neg hd, List.rdropWhile_concat_neg _ _ _ (by simpa using hd), List.length_append,
        List.length_singleton]

theorem eq_concat {a : List ℕ} (h : 1 ≤ a.length) : ∃ l x, a = l ++ [x] := by
  obtain rfl | ⟨l, x, hlx⟩ := List.eq_nil_or_concat' a
  · cases h
  · exact ⟨l, x, hlx⟩

theorem eq_concat_two {b : List ℕ} (h : 2 ≤ b.length) : ∃ l y z, b = l ++ [y, z] := by
  obtain ⟨l, z, rfl⟩ := eq_concat (by omega : 1 ≤ b.length)
  rw [List.length_append, List.length_singleton] at h
  obtain ⟨l', y, rfl⟩ := eq_concat (by omega : 1 ≤ l.length)
  exact ⟨l', y, z, by rw [List.append_assoc, List.cons_append, List.nil_append]⟩

theorem getElem?_last (l : List ℕ) (x : ℕ) : (l ++ [x])[(l ++ [x]).length - 1]? = some x := by
  simp

theorem getElem?_lastButOne (l : List ℕ) (y z : ℕ) :
    (l ++ [y, z])[(l ++ [y, z]).length - 2]? = some y := by
  simp

theorem kept_prefix (sa sb : List ℕ) : (kept sa sb).1 <+: sa ∧ (kept sa sb).2 <+: sb := by
  unfold kept
  split
  · exact ⟨List.prefix_refl sa, List.prefix_refl sb⟩
  · exact ⟨prefix_strip sa, prefix_strip sb⟩

theorem effectiveRanks_eq (ha : HasShape a sa) (hb : HasShape b sb) :
    effectiveRanks a b = some ((kept sa sb).1.length, (kept sa sb).2.length) := by
  have hra : stripOnes a a.rank = some (strip sa).length := by
    rw [ha.1]
    exact stripOnes_eq ha sa (List.prefix_refl sa)
  have hrb : stripOnes b b.rank = some (strip sb).length := by
    rw [hb.1]
    exact stripOnes_eq hb sb (List.prefix_refl sb)
  unfold effectiveRanks
  rw [hra, hrb, Option.bind_eq_bind, Option.bind_some, Option.bind_some]
  by_cases htwo : 2 ≤ (strip sa).length ∧ 2 ≤ (strip sb).length
  · obtain ⟨l, x, hx⟩ := eq_concat (by omega : 1 ≤ (strip sa).length)
    obtain ⟨l', y, z, hyz⟩ := eq_concat_two htwo.2
    have hxread : dimBack a (strip sa).length 1 = some x := by
      rw [hx]
      exact dimBack_append ha (hx ▸ prefix_strip sa)
    have hyread : dimBack b (strip sb).length 2 = some y := by
      rw [hyz]
      exact dimBack_append hb (hyz ▸ prefix_strip sb)
    have hclash : clash (strip sa) (strip sb) = decide (x ≠ y) := by
      unfold clash
      rw [hx, hyz] at htwo
      rw [hx, hyz, getElem?_last, getElem?_lastButOne]
      simp only [htwo.1, htwo.2, true_and, ne_eq, Option.some.injEq]
    rw [if_pos htwo, hxread, hyread, Option.bind_some, Option.bind_some, kept, hclash]
    by_cases hne : x ≠ y
    · rw [if_pos hne, if_pos (decide_eq_true hne), ha.1, hb.1]
    · rw [if_neg hne, if_neg (by simpa using hne)]
  · have hclash : ¬ clash (strip sa) (strip sb) = true := fun h =>
      htwo ⟨(of_decide_eq_true h).1, (of_decide_eq_true h).2.1⟩
    rw [if_neg htwo, kept, if_neg hclash]

/-! ### The sizes -/

theorem foldl_mul_mod (l : List ℕ) (c : ℕ) :
    l.foldl (fun x d => x * d % 2 ^ 64) (c % 2 ^ 64) = c * l.prod % 2 ^ 64 := by
  induction l generalizing c with
  | nil => rw [List.foldl_nil, List.prod_nil, Nat.mul_one]
  | cons d l ih =>
    rw [List.foldl_cons, Nat.mod_mul_mod, ih (c * d), List.prod_cons, Nat.mul_assoc]

/-- The sizes taken from the axes `rows ++ [x]` and `lead ++ [y, z]`. -/
def sizesOf (rows : List ℕ) (x : ℕ) (lead : List ℕ) (y z : ℕ) (t0 t1 : UInt32) : ExtraMatMul :=
  let col := UInt32.ofNat (if t1 ≠ 0 then y else z)
  if SharedBatch (rows ++ [x]) (lead ++ [y, z]) then
    ⟨UInt32.ofNat (rows.getLastD 0), UInt32.ofNat x, col, t0, t1, 1⟩
  else if t0 ≠ 0 then ⟨UInt32.ofNat x, UInt32.ofNat rows.prod, col, t0, t1, 0⟩
  else ⟨UInt32.ofNat rows.prod, UInt32.ofNat x, col, t0, t1, 0⟩

theorem sameBatch_eq {ka kb : List ℕ} (ha : HasShape a sa) (hb : HasShape b sb) (hka : ka <+: sa)
    (hkb : kb <+: sb) : sameBatch a b ka.length kb.length = some (decide (SharedBatch ka kb)) := by
  unfold sameBatch
  by_cases hlen : 3 ≤ ka.length ∧ 3 ≤ kb.length
  · have hfive := hka.length_le.trans ha.2.1
    have hla := leading_eq ha hka (by omega : ka.length - 2 ≤ ka.length)
    have hlb := leading_eq hb hkb (by omega : ka.length - 2 ≤ kb.length)
    have hshared : ka.take (ka.length - 2) = kb.take (ka.length - 2) ↔ SharedBatch ka kb :=
      ⟨fun h => ⟨hlen.1, hlen.2, h⟩, fun h => h.2.2⟩
    rw [if_pos hlen, hla, hlb, Option.bind_eq_bind, Option.bind_some, Option.bind_some]
    exact congrArg some (decide_eq_decide.mpr hshared)
  · have hshared : ¬ SharedBatch ka kb := fun h => hlen ⟨h.1, h.2.1⟩
    rw [if_neg hlen, decide_eq_false hshared]

theorem ofNat_mod (v : ℕ) : UInt32.ofNat (v % 2 ^ 64) = UInt32.ofNat v := by
  apply UInt32.toNat_inj.mp
  rw [UInt32.toNat_ofNat', UInt32.toNat_ofNat', Nat.mod_mod_of_dvd _ ⟨2 ^ 32, by norm_num⟩]

theorem pickSizes_eq (ha : HasShape a sa) (hb : HasShape b sb)
    (h : kept sa sb = (rows ++ [x], lead ++ [y, z])) (t0 t1 : UInt32) :
    pickSizes a b t0 t1 = some (sizesOf rows x lead y z t0 t1) := by
  obtain ⟨hka, hkb⟩ := kept_prefix sa sb
  rw [h] at hka hkb
  have hx : dimBack a (rows ++ [x]).length 1 = some x := dimBack_append ha hka
  have hy : dimBack b (lead ++ [y, z]).length 2 = some y := dimBack_append hb hkb
  have hz : dimBack b (lead ++ [y, z]).length 1 = some z := by
    have hsplit : lead ++ [y, z] = (lead ++ [y]) ++ [z] := by
      rw [List.append_assoc, List.cons_append, List.nil_append]
    rw [hsplit]
    exact dimBack_append hb (hsplit ▸ hkb)
  have hrows : leading a ((rows ++ [x]).length - 1) = some rows := by
    rw [leading_eq ha hka (Nat.sub_le _ 1), List.length_append, List.length_singleton,
      Nat.add_sub_cancel, List.take_left]
  have hranks := effectiveRanks_eq ha hb
  rw [h] at hranks
  have hsame := sameBatch_eq ha hb hka hkb
  unfold pickSizes sizesOf
  by_cases hshared : SharedBatch (rows ++ [x]) (lead ++ [y, z])
  · obtain ⟨r, m, rfl⟩ := eq_concat (by
      have := hshared.1
      rw [List.length_append, List.length_singleton] at this
      omega : 1 ≤ rows.length)
    have hm : dimBack a (r ++ [m] ++ [x]).length 2 = some m := by
      have hsplit : r ++ [m] ++ [x] = r ++ [m, x] := by
        rw [List.append_assoc, List.cons_append, List.nil_append]
      rw [hsplit]
      exact dimBack_append ha (hsplit ▸ hka)
    rw [decide_eq_true hshared] at hsame
    simp only [hranks, hx, hy, hz, hsame, hm, Option.bind_eq_bind, Option.bind_some, if_true,
      if_pos hshared, List.getLastD_concat]
  · have hone : rows.foldl (fun x d => x * d % 2 ^ 64) 1 = rows.prod % 2 ^ 64 := by
      have hfold := foldl_mul_mod rows 1
      rwa [Nat.one_mul] at hfold
    rw [decide_eq_false hshared] at hsame
    simp only [hranks, hx, hy, hz, hsame, hrows, hone, ofNat_mod, Option.bind_eq_bind,
      Option.bind_some, Bool.false_eq_true, if_false, if_neg hshared]
    split <;> rfl

/-! ### Counting -/

theorem toNat_word {v : ℕ} (h : v < 2 ^ 32) : (UInt32.ofNat v).toNat = v := by
  rw [UInt32.toNat_ofNat', Nat.mod_eq_of_lt h]

/-! ### Broadcasts -/

theorem broadcast_dvd : ∀ {a b c : List ℕ}, broadcast a b = some c →
    a.prod ∣ c.prod ∧ b.prod ∣ c.prod
  | [], b, c, h => by
    cases h
    exact ⟨one_dvd _, dvd_rfl⟩
  | x :: xs, [], c, h => by
    cases h
    exact ⟨dvd_rfl, one_dvd _⟩
  | x :: xs, y :: ys, c, h => by
    unfold broadcast at h
    split at h
    · rename_i heq
      obtain ⟨c', hc', rfl⟩ := Option.map_eq_some_iff.mp h
      obtain ⟨ha, hb⟩ := broadcast_dvd hc'
      simp only [List.prod_cons]
      refine ⟨Nat.mul_dvd_mul_left x ha, ?_⟩
      obtain rfl | rfl := heq
      · exact Nat.mul_dvd_mul_left x hb
      · rw [Nat.one_mul]
        exact hb.mul_left x
    · split at h
      · rename_i hone
        obtain ⟨c', hc', rfl⟩ := Option.map_eq_some_iff.mp h
        obtain ⟨ha, hb⟩ := broadcast_dvd hc'
        simp only [List.prod_cons]
        refine ⟨?_, Nat.mul_dvd_mul_left y hb⟩
        rw [hone, Nat.one_mul]
        exact ha.mul_left y
      · cases h

theorem broadcast_ones : ∀ {a b c : List ℕ}, broadcast a b = some c → b.prod = 1 →
    c.prod = a.prod
  | [], b, c, h, hb => by
    cases h
    rw [hb, List.prod_nil]
  | x :: xs, [], c, h, hb => by
    cases h
    rfl
  | x :: xs, y :: ys, c, h, hb => by
    rw [List.prod_cons, mul_eq_one] at hb
    unfold broadcast at h
    rw [if_pos (Or.inr hb.1)] at h
    obtain ⟨c', hc', rfl⟩ := Option.map_eq_some_iff.mp h
    rw [List.prod_cons, List.prod_cons, broadcast_ones hc' hb.2]

/-! ### No axis stripped -/

namespace Product

variable (p : Product)

theorem sizes_pos : 0 < p.m ∧ 0 < p.k ∧ 0 < p.n :=
  ⟨p.pos _ (by simp), p.pos _ (by simp), p.pos _ (by simp)⟩

theorem sizes_word : p.m < 2 ^ 32 ∧ p.k < 2 ^ 32 ∧ p.n < 2 ^ 32 :=
  ⟨p.word _ (by simp), p.word _ (by simp), p.word _ (by simp)⟩

theorem two_le_shapeA (t0 : UInt32) : 2 ≤ (p.shapeA t0).length := by
  rw [shapeA, List.length_append]
  split <;> exact Nat.le_add_left 2 _

theorem two_le_shapeB (t1 : UInt32) : 2 ≤ (p.shapeB t1).length := by
  rw [shapeB, List.length_append]
  split <;> exact Nat.le_add_left 2 _

theorem shapeB_prod (t1 : UInt32) : (p.shapeB t1).prod = p.batchB.prod * (p.k * p.n) := by
  unfold shapeB
  split
  · rw [List.prod_append, List.prod_cons, List.prod_singleton, Nat.mul_comm p.n]
  · rw [List.prod_append, List.prod_cons, List.prod_singleton]

theorem shapeA_prod (t0 : UInt32) : (p.shapeA t0).prod = p.batchA.prod * (p.m * p.k) := by
  unfold shapeA
  split
  · rw [List.prod_append, List.prod_cons, List.prod_singleton, Nat.mul_comm p.k]
  · rw [List.prod_append, List.prod_cons, List.prod_singleton]

theorem shapeOut_prod : p.shapeOut.prod = p.batch.prod * (p.m * p.n) := by
  rw [shapeOut, List.prod_append, List.prod_cons, List.prod_singleton]

theorem batch_dvd : p.batchA.prod ∣ p.batch.prod ∧ p.batchB.prod ∣ p.batch.prod := by
  have h := broadcast_dvd p.agree
  rwa [List.prod_reverse, List.prod_reverse, List.prod_reverse] at h

theorem batch_of_ones (h : p.batchB.prod = 1) : p.batch.prod = p.batchA.prod := by
  have heq := broadcast_ones p.agree (by rwa [List.prod_reverse])
  rwa [List.prod_reverse, List.prod_reverse] at heq

variable {p}

theorem col_whole {t1 : UInt32} (h : p.shapeB t1 = lead ++ [y, z]) :
    (if t1 ≠ 0 then y else z) = p.n := by
  unfold shapeB at h
  obtain ⟨-, hlast⟩ := List.append_inj' h (by split <;> rfl)
  split at hlast
  · cases hlast
    rw [if_pos ‹_›]
  · cases hlast
    rw [if_neg ‹_›]

theorem rows_whole {t0 : UInt32} (h : p.shapeA t0 = rows ++ [x]) :
    rows = p.batchA ++ [if t0 ≠ 0 then p.k else p.m] ∧ x = if t0 ≠ 0 then p.m else p.k := by
  unfold shapeA at h
  by_cases ht : t0 ≠ 0
  · rw [if_pos ht] at h ⊢
    rw [if_pos ht]
    have hsplit : p.batchA ++ [p.k, p.m] = (p.batchA ++ [p.k]) ++ [p.m] := by
      rw [List.append_assoc, List.cons_append, List.nil_append]
    rw [hsplit] at h
    obtain ⟨hrows, hx⟩ := List.append_inj' h rfl
    exact ⟨hrows.symm, (List.singleton_inj.mp hx).symm⟩
  · rw [if_neg ht] at h ⊢
    rw [if_neg ht]
    have hsplit : p.batchA ++ [p.m, p.k] = (p.batchA ++ [p.m]) ++ [p.k] := by
      rw [List.append_assoc, List.cons_append, List.nil_append]
    rw [hsplit] at h
    obtain ⟨hrows, hx⟩ := List.append_inj' h rfl
    exact ⟨hrows.symm, (List.singleton_inj.mp hx).symm⟩

end Product

/-- With a batch kept apart, it is the one that tiles the first operand. -/
theorem counts_batched_iff {p : Product} {t0 t1 : UInt32} {e : ExtraMatMul} {q : ℕ}
    (hflag : e.batched ≠ 0) (hA : q * e.m.toNat * e.k.toNat = (p.shapeA t0).prod)
    (hpos : 0 < e.m.toNat * e.k.toNat) :
    CountsElements p t0 t1 (some e) ↔ q * e.k.toNat * e.n.toNat = (p.shapeB t1).prod ∧
      q * e.m.toNat * e.n.toNat = p.shapeOut.prod := by
  constructor
  · rintro ⟨e', he, batch, -, hA', hB, hO⟩
    cases he
    have hbatch : batch = q := by
      rw [← hA, Nat.mul_assoc, Nat.mul_assoc] at hA'
      exact Nat.eq_of_mul_eq_mul_right hpos hA'
    rw [hbatch] at hB hO
    exact ⟨hB, hO⟩
  · rintro ⟨hB, hO⟩
    exact ⟨e, rfl, q, fun hzero => absurd hzero hflag, hA, hB, hO⟩

/-- Without the flag there is one batch. -/
theorem counts_folded_iff {p : Product} {t0 t1 : UInt32} {e : ExtraMatMul} (hflag : e.batched = 0) :
    CountsElements p t0 t1 (some e) ↔ e.m.toNat * e.k.toNat = (p.shapeA t0).prod ∧
      e.k.toNat * e.n.toNat = (p.shapeB t1).prod ∧ e.m.toNat * e.n.toNat = p.shapeOut.prod := by
  constructor
  · rintro ⟨e', he, batch, hone, hA, hB, hO⟩
    cases he
    rw [hone hflag, Nat.one_mul] at hA hB hO
    exact ⟨hA, hB, hO⟩
  · rintro ⟨hA, hB, hO⟩
    exact ⟨e, rfl, 1, fun _ => rfl, by rw [Nat.one_mul, hA], by rw [Nat.one_mul, hB],
      by rw [Nat.one_mul, hO]⟩

/-- The batch folded into the `r` rows of the first operand still fits the word. -/
theorem folded_eq_iff {v x q : ℕ} (hx : 0 < x) (hq : q = v * x) :
    (UInt32.ofNat v).toNat * x = q ↔ v < 2 ^ 32 := by
  rw [hq, Nat.mul_left_inj hx.ne', UInt32.toNat_ofNat']
  exact ⟨fun heq => heq ▸ Nat.mod_lt _ (by decide), Nat.mod_eq_of_lt⟩

/-- The sizes taken from the whole shapes are right exactly when the batches agree. -/
theorem sizesOf_counts_iff {p : Product} {t0 t1 : UInt32} (ha : p.shapeA t0 = rows ++ [x])
    (hb : p.shapeB t1 = lead ++ [y, z]) :
    CountsElements p t0 t1 (some (sizesOf rows x lead y z t0 t1)) ↔ p.WholeFits t0 t1 := by
  obtain ⟨hm, hk, hn⟩ := p.sizes_pos
  obtain ⟨hmw, hkw, hnw⟩ := p.sizes_word
  obtain ⟨hrows, hx⟩ := Product.rows_whole ha
  unfold sizesOf Product.WholeFits
  rw [Product.col_whole hb, ← ha, ← hb]
  have hflag : (1 : UInt32) ≠ 0 := by decide
  by_cases ht : t0 = 0
  · rw [if_neg (not_not.mpr ht)] at hrows hx
    by_cases hshared : SharedBatch (p.shapeA t0) (p.shapeB t1)
    · rw [if_pos hshared, if_pos hshared, if_pos ht, hrows, hx, List.getLastD_concat,
        counts_batched_iff (q := p.batchA.prod) hflag]
      all_goals simp only [toNat_word hmw, toNat_word hkw, toNat_word hnw]
      · rw [p.shapeB_prod, p.shapeOut_prod, Nat.mul_assoc, Nat.mul_assoc,
          Nat.mul_left_inj (Nat.mul_pos hk hn).ne', Nat.mul_left_inj (Nat.mul_pos hm hn).ne']
        exact ⟨fun h => ⟨h.2, h.1.symm.trans h.2⟩, fun h => ⟨h.1.trans h.2.symm, h.1⟩⟩
      · rw [p.shapeA_prod, Nat.mul_assoc]
      · exact Nat.mul_pos hm hk
    · rw [if_neg hshared, if_neg hshared, if_neg (not_not.mpr ht), if_pos ht, hrows, hx,
        List.prod_append, List.prod_singleton, counts_folded_iff rfl]
      simp only [toNat_word hkw, toNat_word hnw]
      rw [folded_eq_iff hk (by rw [p.shapeA_prod, Nat.mul_assoc]), p.shapeB_prod, p.shapeOut_prod]
      constructor
      · rintro ⟨hfit, hB, -⟩
        exact ⟨Nat.eq_of_mul_eq_mul_right (Nat.mul_pos hk hn) (by rw [Nat.one_mul, ← hB]), hfit⟩
      · rintro ⟨hB, hfit⟩
        rw [toNat_word hfit, hB, p.batch_of_ones hB, Nat.one_mul, Nat.mul_assoc]
        exact ⟨hfit, rfl, rfl⟩
  · rw [if_pos ht] at hrows hx
    by_cases hshared : SharedBatch (p.shapeA t0) (p.shapeB t1)
    · rw [if_pos hshared, if_pos hshared, if_neg ht, hrows, hx, List.getLastD_concat,
        counts_batched_iff (q := p.batchA.prod) hflag]
      all_goals simp only [toNat_word hmw, toNat_word hkw, toNat_word hnw]
      · rw [p.shapeB_prod, p.shapeOut_prod, ← Nat.mul_assoc p.batchB.prod,
          ← Nat.mul_assoc p.batch.prod, Nat.mul_left_inj hn.ne', Nat.mul_left_inj hn.ne']
      · rw [p.shapeA_prod, Nat.mul_comm p.m, Nat.mul_assoc]
      · exact Nat.mul_pos hk hm
    · rw [if_neg hshared, if_neg hshared, if_pos ht, if_neg ht, hrows, hx, List.prod_append,
        List.prod_singleton, counts_folded_iff rfl]
      simp only [toNat_word hmw, toNat_word hnw]
      rw [p.shapeA_prod, p.shapeB_prod, p.shapeOut_prod]
      constructor
      · rintro ⟨-, -, hO⟩
        exact Nat.eq_of_mul_eq_mul_right (Nat.mul_pos hm hn) (by rw [Nat.one_mul, ← hO])
      · intro hone
        obtain ⟨hA, hB⟩ := p.batch_dvd
        rw [hone, Nat.dvd_one] at hA hB
        rw [hA, hB, hone, Nat.one_mul, Nat.one_mul, Nat.one_mul, Nat.one_mul, toNat_word hkw]
        exact ⟨rfl, rfl, rfl⟩

/-! ### The extractor -/

theorem pickSizes_counts_iff {p : Product} {t0 t1 : UInt32} (ha : HasShape a (p.shapeA t0))
    (hb : HasShape b (p.shapeB t1)) (hkept : p.KeepsAxes t0 t1) :
    CountsElements p t0 t1 (pickSizes a b t0 t1) ↔ p.WholeFits t0 t1 := by
  obtain ⟨rows, x, hax⟩ := eq_concat (Nat.le_of_succ_le (p.two_le_shapeA t0))
  obtain ⟨lead, y, z, hbyz⟩ := eq_concat_two (p.two_le_shapeB t1)
  rw [pickSizes_eq ha hb (hkept.trans (Prod.ext hax hbyz))]
  exact sizesOf_counts_iff hax hbyz

theorem keepsAxes_iff {p : Product} {t0 t1 : UInt32} (ha : HasShape a (p.shapeA t0))
    (hb : HasShape b (p.shapeB t1)) :
    effectiveRanks a b = some (a.rank, b.rank) ↔ p.KeepsAxes t0 t1 := by
  obtain ⟨hka, hkb⟩ := kept_prefix (p.shapeA t0) (p.shapeB t1)
  rw [effectiveRanks_eq ha hb, ha.1, hb.1, Option.some.injEq, Prod.mk.injEq]
  constructor
  · rintro ⟨hlenA, hlenB⟩
    exact Prod.ext (hka.eq_of_length hlenA) (hkb.eq_of_length hlenB)
  · intro h
    rw [Product.KeepsAxes] at h
    rw [h]
    exact ⟨rfl, rfl⟩

def flag0 (opdef : OpDef) : UInt32 := u32OfF64 (scalarNum opdef "transpose_in0" 0)

def flag1 (opdef : OpDef) : UInt32 := u32OfF64 (scalarNum opdef "transpose_in1" 0)

theorem extractMatmulExtra_eq {gp : OpMap} {opdef a b : OpDef} (ha : operand gp opdef 0 = some a)
    (hb : operand gp opdef 1 = some b) (hra : 2 ≤ a.outputDef.rank) (hrb : 2 ≤ b.outputDef.rank) :
    extractMatmulExtra gp opdef =
      pickSizes a.outputDef b.outputDef (flag0 opdef) (flag1 opdef) := by
  unfold extractMatmulExtra
  rw [ha, hb]
  exact if_pos ⟨hra, hrb⟩

def matrix (id rows cols : ℕ) : OpDef :=
  ⟨id, 1, none, .matrix rows cols, [], [3], [], []⟩

/-- A product of the operands 1 and 2, without flags. -/
def matmulOp : OpDef :=
  ⟨3, 1, some "MatMul", .matrix 1 1, [⟨1, 0⟩, ⟨2, 0⟩], [], [], []⟩

/-- A `2 × 3` matrix by a `3 × n` matrix. -/
def smallGraph (n : ℕ) : OpMap := OpMap.ofList [matrix 1 2 3, matrix 2 3 n, matmulOp]

theorem small_pos : ∀ d ∈ ([] : List ℕ) ++ [] ++ [2, 3, 4], 0 < d := by decide

theorem small_word : ∀ d ∈ ([] : List ℕ) ++ [] ++ [2, 3, 4], d < 2 ^ 32 := by decide

theorem column_pos : ∀ d ∈ ([] : List ℕ) ++ [] ++ [2, 3, 1], 0 < d := by decide

theorem column_word : ∀ d ∈ ([] : List ℕ) ++ [] ++ [2, 3, 1], d < 2 ^ 32 := by decide

def smallProduct : Product :=
  ⟨[], [], [], 2, 3, 4, Nat.zero_le 3, Nat.zero_le 3, rfl, small_pos, small_word⟩

def columnProduct : Product :=
  ⟨[], [], [], 2, 3, 1, Nat.zero_le 3, Nat.zero_le 3, rfl, column_pos, column_word⟩

theorem matmulOp_flags : flag0 matmulOp = 0 ∧ flag1 matmulOp = 0 := by
  decide

theorem smallProduct_fits : smallProduct.Fits 0 0 := by
  refine ⟨by unfold Product.KeepsAxes; decide, ?_⟩
  rw [Product.WholeFits, if_neg (by decide), if_pos rfl]
  decide

end Gehtp.Analysis.MatMulSizes
