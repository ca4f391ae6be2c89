import Gehtp.Analysis.SfcdWords

/-!
# Merged copies

The writer merges copies that are next to each other in the fast memory, and the walk moves its
cursor by the length of a merged copy, rounded up once. The bytes of the merged copies are those of
the single ones exactly when each part before a byte fills whole lines of 64 bytes and no length
wraps.
-/

set_option autoImplicit false

namespace Gehtp.Analysis.SfcdMerge

open Lib Model.SpillFillG4 Analysis.SfcdWords

/-! ### The merge by recursion -/

/-- The merge of a copy with those after it. -/
def mergeInto : G4SlcCopy → List G4SlcCopy → List G4SlcCopy
  | cur, [] => [cur]
  | cur, c :: cs =>
    if joins cur c then mergeInto (cur.extend c.copyLen) cs else cur :: mergeInto c cs

theorem foldl_finalizeStep (cur : G4SlcCopy) (out cs : List G4SlcCopy) :
    (cs.foldl finalizeStep (cur :: out)).reverse = out.reverse ++ mergeInto cur cs := by
  induction cs generalizing cur out with
  | nil => exact List.reverse_cons
  | cons c cs ih =>
    cases hjoin : joins cur c with
    | true =>
      have hstep : finalizeStep (cur :: out) c = cur.extend c.copyLen :: out := if_pos hjoin
      have hmerge : mergeInto cur (c :: cs) = mergeInto (cur.extend c.copyLen) cs := if_pos hjoin
      rw [List.foldl_cons, hstep, hmerge]
      exact ih _ _
    | false =>
      have hjoin' : ¬ joins cur c = true := by
        rw [hjoin]
        exact Bool.false_ne_true
      have hstep : finalizeStep (cur :: out) c = c :: cur :: out := if_neg hjoin'
      have hmerge : mergeInto cur (c :: cs) = cur :: mergeInto c cs := if_neg hjoin'
      rw [List.foldl_cons, hstep, hmerge, ih, List.reverse_cons, List.append_assoc]
      rfl

theorem finalize_cons (c : G4SlcCopy) (cs : List G4SlcCopy) :
    g4SfcdFinalizeCopies (c :: cs) = mergeInto c cs :=
  foldl_finalizeStep c [] cs

section Branches

variable {cur c : G4SlcCopy} {cs : List G4SlcCopy}

theorem mergeInto_join (h : joins cur c) :
    mergeInto cur (c :: cs) = mergeInto (cur.extend c.copyLen) cs :=
  if_pos h

theorem mergeInto_skip (h : ¬ joins cur c) : mergeInto cur (c :: cs) = cur :: mergeInto c cs :=
  if_neg h

theorem joins_end (h : joins cur c) :
    cur.tcmOffset.toNat + cur.copyLen.toNat = c.tcmOffset.toNat := by
  unfold joins at h
  rw [Bool.and_eq_true] at h
  exact of_decide_eq_true h.2

theorem joins_hints (h : joins cur c) : cur.cacheHints = c.cacheHints := by
  unfold joins at h
  rw [Bool.and_eq_true] at h
  exact of_decide_eq_true h.1

end Branches

theorem mergeInto_mem {cur x : G4SlcCopy} {cs : List G4SlcCopy} (h : x ∈ mergeInto cur cs) :
    ∃ c ∈ cur :: cs, c.tcmOffset = x.tcmOffset := by
  induction cs generalizing cur with
  | nil => exact ⟨x, h, rfl⟩
  | cons c cs ih =>
    by_cases hjoin : joins cur c
    · rw [mergeInto_join hjoin] at h
      obtain ⟨c', hmem, heq⟩ := ih h
      cases hmem with
      | head => exact ⟨cur, List.mem_cons_self, heq⟩
      | tail _ hmem => exact ⟨c', List.mem_cons_of_mem _ (List.mem_cons_of_mem _ hmem), heq⟩
    · rw [mergeInto_skip hjoin] at h
      cases h with
      | head => exact ⟨x, List.mem_cons_self, rfl⟩
      | tail _ h =>
        obtain ⟨c', hmem, heq⟩ := ih h
        exact ⟨c', List.mem_cons_of_mem _ hmem, heq⟩

theorem mergeInto_length_le (cur : G4SlcCopy) (cs : List G4SlcCopy) :
    (mergeInto cur cs).length ≤ cs.length + 1 := by
  induction cs generalizing cur with
  | nil => exact Nat.le_refl _
  | cons c cs ih =>
    by_cases hjoin : joins cur c
    · rw [mergeInto_join hjoin]
      exact Nat.le_succ_of_le (ih _)
    · rw [mergeInto_skip hjoin]
      exact Nat.succ_le_succ (ih c)

theorem finalize_aligned {cs : List G4SlcCopy} (h : ∀ c ∈ cs, c.tcmOffset &&& 0xf = 0) :
    ∀ x ∈ g4SfcdFinalizeCopies cs, x.tcmOffset &&& 0xf = 0 := by
  cases cs with
  | nil => exact fun x hx => absurd hx List.not_mem_nil
  | cons c cs =>
    intro x hx
    rw [finalize_cons] at hx
    obtain ⟨c', hmem, heq⟩ := mergeInto_mem hx
    rw [← heq]
    exact h c' hmem

theorem finalize_length_le (cs : List G4SlcCopy) :
    (g4SfcdFinalizeCopies cs).length ≤ cs.length := by
  cases cs with
  | nil => exact Nat.le_refl _
  | cons c cs =>
    rw [finalize_cons]
    exact mergeInto_length_le c cs

/-! ### Rounding -/

theorem toNat_roundUp (n : UInt32) :
    (g4RoundUp64 n).toNat = (n.toNat + 63) % 2 ^ 32 / 64 * 64 := by
  have hmask : (0x3f : UInt32).toNat = 2 ^ 6 - 1 := rfl
  unfold g4RoundUp64
  rw [WordFields.toNat_clear (by decide) hmask, UInt32.toNat_add]
  rfl

theorem roundUp_eq_self {n : UInt32} : g4RoundUp64 n = n ↔ n.toNat % 64 = 0 := by
  have hlt := n.toNat_lt
  rw [← UInt32.toNat_inj, toNat_roundUp]
  omega

theorem roundUp_add {n : UInt32} (h : n.toNat % 64 = 0) (m : UInt32) :
    g4RoundUp64 (n + m) = n + g4RoundUp64 m := by
  have hn := n.toNat_lt
  have hm := m.toNat_lt
  apply UInt32.toNat_inj.mp
  rw [UInt32.toNat_add, toNat_roundUp, toNat_roundUp, UInt32.toNat_add]
  omega

/-! ### One merge -/

section OneMerge

variable {isFill : Bool} {blob tcm m n : UInt32}

theorem moves_length : (moves isFill blob tcm n).length = n.toNat := by
  rw [moves, List.length_map, List.length_range]

theorem copyMoves_cons (c : G4SlcCopy) (cs : List G4SlcCopy) :
    copyMoves isFill blob (c :: cs) = moves isFill blob c.tcmOffset c.copyLen ++
      copyMoves isFill (blob + g4RoundUp64 c.copyLen) cs :=
  rfl

theorem moves_add (h : m.toNat + n.toNat < 2 ^ 32) :
    moves isFill blob tcm (m + n) =
      moves isFill blob tcm m ++ moves isFill (blob + m) (tcm + m) n := by
  have hsum : (m + n).toNat = m.toNat + n.toNat := by
    rw [UInt32.toNat_add, Nat.mod_eq_of_lt h]
  rw [moves, hsum, List.range_add, List.map_append, List.map_map]
  congr 1
  apply List.map_congr_left
  intro t _
  have hof : UInt32.ofNat (m.toNat + t) = m + .ofNat t := by
    rw [UInt32.ofNat_add, UInt32.ofNat_toNat]
  simp only [Function.comp_apply, hof, UInt32.add_assoc]

theorem moves_inj {blob' : UInt32}
    (h : moves isFill blob tcm n = moves isFill blob' tcm n) : n = 0 ∨ blob = blob' := by
  by_cases hn : n.toNat = 0
  · exact Or.inl (UInt32.toNat_inj.mp hn)
  · right
    have hmem : 0 ∈ List.range n.toNat := List.mem_range.mpr (Nat.pos_of_ne_zero hn)
    have hzero := List.map_inj_left.mp h 0 hmem
    injection hzero with _ hblob
    exact (UInt32.add_left_inj _).mp hblob

variable {cur c : G4SlcCopy} {cs : List G4SlcCopy}

theorem extend_tcmOffset (len : UInt32) : (cur.extend len).tcmOffset = cur.tcmOffset := rfl

theorem extend_copyLen (len : UInt32) : (cur.extend len).copyLen = cur.copyLen + len := rfl

theorem moves_extend (hjoin : joins cur c)
    (hlen : cur.copyLen.toNat + c.copyLen.toNat < 2 ^ 32) :
    moves isFill blob (cur.extend c.copyLen).tcmOffset (cur.extend c.copyLen).copyLen =
      moves isFill blob cur.tcmOffset cur.copyLen ++
        moves isFill (blob + cur.copyLen) c.tcmOffset c.copyLen := by
  have htcm : cur.tcmOffset + cur.copyLen = c.tcmOffset := by
    apply UInt32.toNat_inj.mp
    have hend := joins_end hjoin
    have hlt := c.tcmOffset.toNat_lt
    rw [UInt32.toNat_add, hend, Nat.mod_eq_of_lt hlt]
  rw [extend_tcmOffset, extend_copyLen, moves_add hlen, htcm]

/-- The copy before fills whole lines, or nothing follows it. -/
def LineEnd (len next : ℕ) : Prop := len % 64 = 0 ∨ next = 0

/-- The copies can be merged into one. -/
def MergeOk (len next : ℕ) : Prop := len + next < 2 ^ 32 ∧ LineEnd len next

theorem copyMoves_extend (hjoin : joins cur c)
    (h : MergeOk cur.copyLen.toNat c.copyLen.toNat) :
    copyMoves isFill blob (cur.extend c.copyLen :: cs) =
      copyMoves isFill blob (cur :: c :: cs) := by
  rw [copyMoves_cons, moves_extend hjoin h.1, copyMoves_cons, copyMoves_cons, List.append_assoc,
    extend_copyLen]
  cases h.2 with
  | inl hline => rw [roundUp_add hline, roundUp_eq_self.mpr hline, UInt32.add_assoc]
  | inr hzero =>
    have hz : c.copyLen = 0 := UInt32.toNat_inj.mp hzero
    have hround : g4RoundUp64 0 = 0 := by decide
    rw [hz, UInt32.add_zero, hround, UInt32.add_zero]
    rfl

end OneMerge

/-! ### All merges -/

section AllMerges

variable {isFill : Bool}

/-- Each merge from here on joins copies that can be merged. -/
def MergesOk : G4SlcCopy → List G4SlcCopy → Prop
  | _, [] => True
  | cur, c :: cs =>
    if joins cur c then
      MergeOk cur.copyLen.toNat c.copyLen.toNat ∧ MergesOk (cur.extend c.copyLen) cs
    else MergesOk c cs

theorem mergesOk_join {cur c : G4SlcCopy} (h : joins cur c) (cs : List G4SlcCopy) :
    MergesOk cur (c :: cs) ↔
      MergeOk cur.copyLen.toNat c.copyLen.toNat ∧ MergesOk (cur.extend c.copyLen) cs :=
  iff_of_eq (if_pos h)

theorem mergesOk_skip {cur c : G4SlcCopy} (h : ¬ joins cur c) (cs : List G4SlcCopy) :
    MergesOk cur (c :: cs) ↔ MergesOk c cs :=
  iff_of_eq (if_neg h)

theorem copyMoves_length_eq (blob : UInt32) (cs : List G4SlcCopy) :
    (copyMoves isFill blob cs).length = (copyMoves isFill 0 cs).length := by
  induction cs generalizing blob with
  | nil => rfl
  | cons c cs ih =>
    rw [copyMoves_cons, copyMoves_cons, List.length_append, List.length_append, moves_length,
      moves_length, ih, ih (0 + _)]

theorem copyMoves_length (blob : UInt32) (c : G4SlcCopy) (cs : List G4SlcCopy) :
    (copyMoves isFill blob (c :: cs)).length =
      c.copyLen.toNat + (copyMoves isFill 0 cs).length := by
  rw [copyMoves_cons, List.length_append, moves_length, copyMoves_length_eq]

variable (isFill) in
theorem copyMoves_extend_length (blob : UInt32) (cur c : G4SlcCopy) (cs : List G4SlcCopy) :
    (copyMoves isFill blob (cur.extend c.copyLen :: cs)).length =
      (cur.copyLen.toNat + c.copyLen.toNat) % 2 ^ 32 + (copyMoves isFill 0 cs).length ∧
    (copyMoves isFill blob (cur :: c :: cs)).length =
      cur.copyLen.toNat + c.copyLen.toNat + (copyMoves isFill 0 cs).length := by
  constructor
  · rw [copyMoves_length, extend_copyLen, UInt32.toNat_add]
  · rw [copyMoves_length, copyMoves_length, Nat.add_assoc]

variable (isFill) in
theorem copyMoves_mergeInto_length (blob : UInt32) (cur : G4SlcCopy) (cs : List G4SlcCopy) :
    (copyMoves isFill blob (mergeInto cur cs)).length ≤
      (copyMoves isFill blob (cur :: cs)).length := by
  induction cs generalizing blob cur with
  | nil => exact Nat.le_refl _
  | cons c cs ih =>
    by_cases hjoin : joins cur c
    · obtain ⟨hext, hsep⟩ := copyMoves_extend_length isFill blob cur c cs
      have hrest := ih blob (cur.extend c.copyLen)
      rw [mergeInto_join hjoin]
      omega
    · rw [mergeInto_skip hjoin, copyMoves_cons, copyMoves_cons cur, List.length_append,
        List.length_append]
      exact Nat.add_le_add_left (ih _ c) _

theorem moves_isPrefix {blob : UInt32} {cur : G4SlcCopy} {cs : List G4SlcCopy}
    (h : (copyMoves isFill blob (mergeInto cur cs)).length =
      (copyMoves isFill blob (cur :: cs)).length) :
    moves isFill blob cur.tcmOffset cur.copyLen <+:
      copyMoves isFill blob (mergeInto cur cs) := by
  induction cs generalizing cur with
  | nil => exact List.prefix_append _ _
  | cons c cs ih =>
    by_cases hjoin : joins cur c
    · obtain ⟨hext, hsep⟩ := copyMoves_extend_length isFill blob cur c cs
      have hrest := copyMoves_mergeInto_length isFill blob (cur.extend c.copyLen) cs
      rw [mergeInto_join hjoin] at h ⊢
      have hlen : cur.copyLen.toNat + c.copyLen.toNat < 2 ^ 32 := by omega
      have hstart : moves isFill blob (cur.extend c.copyLen).tcmOffset
          (cur.extend c.copyLen).copyLen <+:
            copyMoves isFill blob (mergeInto (cur.extend c.copyLen) cs) := ih (by omega)
      rw [moves_extend hjoin hlen] at hstart
      exact (List.prefix_append _ _).trans hstart
    · rw [mergeInto_skip hjoin]
      exact List.prefix_append _ _

theorem mergeOk_of_eq {blob : UInt32} {cur c : G4SlcCopy} {cs : List G4SlcCopy}
    (hjoin : joins cur c)
    (h : copyMoves isFill blob (mergeInto (cur.extend c.copyLen) cs) =
      copyMoves isFill blob (cur :: c :: cs)) :
    MergeOk cur.copyLen.toNat c.copyLen.toNat := by
  obtain ⟨hext, hsep⟩ := copyMoves_extend_length isFill blob cur c cs
  have hrest := copyMoves_mergeInto_length isFill blob (cur.extend c.copyLen) cs
  have hsame := congrArg List.length h
  have hlen : cur.copyLen.toNat + c.copyLen.toNat < 2 ^ 32 := by omega
  refine ⟨hlen, ?_⟩
  have hstart : moves isFill blob (cur.extend c.copyLen).tcmOffset (cur.extend c.copyLen).copyLen <+:
      copyMoves isFill blob (mergeInto (cur.extend c.copyLen) cs) := moves_isPrefix (by omega)
  -- Both sides start with the bytes of `cur`; then come those of `c`, as the walk and as the
  -- area place them.
  rw [h, moves_extend hjoin hlen, copyMoves_cons, copyMoves_cons,
    List.prefix_append_right_inj] at hstart
  have hplace : moves isFill (blob + cur.copyLen) c.tcmOffset c.copyLen =
      moves isFill (blob + g4RoundUp64 cur.copyLen) c.tcmOffset c.copyLen := by
    refine (List.prefix_of_prefix_length_le hstart (List.prefix_append _ _) ?_).eq_of_length ?_
    · rw [moves_length, moves_length]
    · rw [moves_length, moves_length]
  cases moves_inj hplace with
  | inl hzero => exact Or.inr (congrArg UInt32.toNat hzero)
  | inr heq => exact Or.inl (roundUp_eq_self.mp ((UInt32.add_right_inj _).mp heq).symm)

theorem copyMoves_mergeInto_iff (blob : UInt32) (cur : G4SlcCopy) (cs : List G4SlcCopy) :
    copyMoves isFill blob (mergeInto cur cs) = copyMoves isFill blob (cur :: cs) ↔
      MergesOk cur cs := by
  induction cs generalizing blob cur with
  | nil => exact iff_of_true rfl trivial
  | cons c cs ih =>
    by_cases hjoin : joins cur c
    · rw [mergeInto_join hjoin, mergesOk_join hjoin]
      constructor
      · intro h
        have hok := mergeOk_of_eq hjoin h
        rw [← copyMoves_extend hjoin hok] at h
        exact ⟨hok, (ih blob _).mp h⟩
      · intro h
        rw [← copyMoves_extend hjoin h.1]
        exact (ih blob _).mpr h.2
    · rw [mergeInto_skip hjoin, mergesOk_skip hjoin, copyMoves_cons, copyMoves_cons cur,
        List.append_cancel_left_eq]
      exact ih _ c

end AllMerges

/-! ### The condition on the copies -/

/-- The copies from `a` on, when those joined up to `a` have the length `sum`. -/
def RunsOk : ℕ → G4SlcCopy → List G4SlcCopy → Prop
  | _, _, [] => True
  | sum, a, b :: cs =>
    if joins a b then
      MergeOk sum b.copyLen.toNat ∧ RunsOk (sum + b.copyLen.toNat) b cs
    else RunsOk b.copyLen.toNat b cs

/-- In each run of copies that join one another, the length stays below `2 ^ 32`, and what is before
a copy that is not empty fills whole lines. -/
def Mergeable : List G4SlcCopy → Prop
  | [] => True
  | c :: cs => RunsOk c.copyLen.toNat c cs

/-- A merged copy and the last one in it: the same hints, and the same end. -/
structure SameEnd (cur a : G4SlcCopy) : Prop where
  hints : cur.cacheHints = a.cacheHints
  place : cur.tcmOffset.toNat + cur.copyLen.toNat = a.tcmOffset.toNat + a.copyLen.toNat

theorem SameEnd.joins_eq {cur a : G4SlcCopy} (h : SameEnd cur a) (b : G4SlcCopy) :
    joins cur b = joins a b := by
  unfold joins
  rw [h.hints, h.place]

theorem SameEnd.extend {cur b : G4SlcCopy} (hjoin : joins cur b)
    (hlen : cur.copyLen.toNat + b.copyLen.toNat < 2 ^ 32) :
    SameEnd (cur.extend b.copyLen) b := by
  have hhints : cur.cacheHints = b.cacheHints := joins_hints hjoin
  refine ⟨hhints, ?_⟩
  rw [extend_tcmOffset, extend_copyLen, UInt32.toNat_add, Nat.mod_eq_of_lt hlen, ← Nat.add_assoc,
    joins_end hjoin]

section Runs

variable {sum : ℕ} {a b : G4SlcCopy} {cs : List G4SlcCopy}

theorem runsOk_join (h : joins a b) :
    RunsOk sum a (b :: cs) ↔
      MergeOk sum b.copyLen.toNat ∧ RunsOk (sum + b.copyLen.toNat) b cs :=
  iff_of_eq (if_pos h)

theorem runsOk_skip (h : ¬ joins a b) : RunsOk sum a (b :: cs) ↔ RunsOk b.copyLen.toNat b cs :=
  iff_of_eq (if_neg h)

theorem runsOk_iff {cur : G4SlcCopy} (hsum : cur.copyLen.toNat = sum) (h : SameEnd cur a) :
    MergesOk cur cs ↔ RunsOk sum a cs := by
  induction cs generalizing sum cur a with
  | nil => exact Iff.rfl
  | cons b cs ih =>
    by_cases hjoin : joins a b
    · have hcur : joins cur b = true := (h.joins_eq b).trans hjoin
      rw [mergesOk_join hcur, runsOk_join hjoin, hsum]
      refine and_congr_right fun hok => ?_
      have hlen : cur.copyLen.toNat + b.copyLen.toNat < 2 ^ 32 := by
        rw [hsum]
        exact hok.1
      apply ih _ (SameEnd.extend hcur hlen)
      rw [extend_copyLen, UInt32.toNat_add, Nat.mod_eq_of_lt hlen, hsum]
    · have hcur : ¬ joins cur b = true := fun hj => hjoin ((h.joins_eq b).symm.trans hj)
      rw [mergesOk_skip hcur, runsOk_skip hjoin]
      exact ih rfl ⟨rfl, rfl⟩

/-- The number of copies that do not join the one before. -/
def runsAfter : G4SlcCopy → List G4SlcCopy → ℕ
  | _, [] => 0
  | a, b :: cs => (if joins a b then 0 else 1) + runsAfter b cs

/-- The number of runs of copies that join one another. -/
def runCount : List G4SlcCopy → ℕ
  | [] => 0
  | c :: cs => 1 + runsAfter c cs

theorem mergeInto_length {cur : G4SlcCopy} (h : SameEnd cur a) (hok : MergesOk cur cs) :
    (mergeInto cur cs).length = 1 + runsAfter a cs := by
  induction cs generalizing cur a with
  | nil => rfl
  | cons b cs ih =>
    by_cases hjoin : joins a b
    · have hcur : joins cur b = true := (h.joins_eq b).trans hjoin
      rw [mergesOk_join hcur] at hok
      rw [mergeInto_join hcur, ih (SameEnd.extend hcur hok.1.1) hok.2, runsAfter, if_pos hjoin,
        Nat.zero_add]
    · have hcur : ¬ joins cur b = true := fun hj => hjoin ((h.joins_eq b).symm.trans hj)
      rw [mergesOk_skip hcur] at hok
      rw [mergeInto_skip hcur, List.length_cons, ih ⟨rfl, rfl⟩ hok, runsAfter, if_neg hjoin]
      omega

end Runs

variable {isFill : Bool}

theorem copyMoves_finalize_length (blob : UInt32) (cs : List G4SlcCopy) :
    (copyMoves isFill blob (g4SfcdFinalizeCopies cs)).length ≤
      (copyMoves isFill blob cs).length := by
  cases cs with
  | nil => exact Nat.le_refl _
  | cons c cs =>
    rw [finalize_cons]
    exact copyMoves_mergeInto_length isFill blob c cs

theorem copyMoves_finalize_iff (blob : UInt32) (cs : List G4SlcCopy) :
    copyMoves isFill blob (g4SfcdFinalizeCopies cs) = copyMoves isFill blob cs ↔ Mergeable cs := by
  cases cs with
  | nil => exact iff_of_true rfl trivial
  | cons c cs =>
    rw [finalize_cons, copyMoves_mergeInto_iff]
    exact runsOk_iff rfl ⟨rfl, rfl⟩

theorem finalize_length {cs : List G4SlcCopy} (h : Mergeable cs) :
    (g4SfcdFinalizeCopies cs).length = runCount cs := by
  cases cs with
  | nil => rfl
  | cons c cs =>
    rw [finalize_cons]
    exact mergeInto_length ⟨rfl, rfl⟩ ((runsOk_iff rfl ⟨rfl, rfl⟩).mpr h)

end Gehtp.Analysis.SfcdMerge
