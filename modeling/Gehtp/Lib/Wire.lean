import Gehtp.Lib.Bytes

/-!
# Readers of a byte buffer

A reader that takes the bytes of a buffer one after the other either has all of them or
faults. `Reads` says this of a reader together with the value it returns, and the rules
below compose it: a reader of `n` bytes followed by a reader of `m` bytes reads `n + m`
bytes. What the value is when the bytes are there is given by total functions of the
buffer (`u32At` and the like), so that a statement can speak of the bytes of a buffer
without running the reader.
-/

set_option autoImplicit false

namespace Gehtp.Lib

variable {ε α β : Type}

/-- The byte at `p` of a list, 0 after its end. -/
def le8 (l : List UInt8) (p : ℕ) : UInt8 := l.getD p 0

/-- The 16-bit word at `p` of a list. -/
def le16 (l : List UInt8) (p : ℕ) : UInt16 := u16OfBytes (le8 l p) (le8 l (p + 1))

/-- The 32-bit word at `p` of a list. -/
def le32 (l : List UInt8) (p : ℕ) : UInt32 :=
  u32OfBytes (le8 l p) (le8 l (p + 1)) (le8 l (p + 2)) (le8 l (p + 3))

/-- The 64-bit word at `p` of a list. -/
def le64 (l : List UInt8) (p : ℕ) : UInt64 := u64OfHalves (le32 l p) (le32 l (p + 4))

/-- The 32-bit word at `p` of a buffer. -/
def u32At (b : Buf) (p : ℕ) : UInt32 := le32 b.bytes p

/-- The 64-bit word at `p` of a buffer. -/
def u64At (b : Buf) (p : ℕ) : UInt64 := le64 b.bytes p

/-- The bytes of the buffer from `p` on, at most `n`. -/
def bytesAt (b : Buf) (p n : ℕ) : List UInt8 := (b.bytes.drop p).take n

/-- The eight bytes of a 64-bit word. -/
def u64le (x : UInt64) : List UInt8 := u32le (u64lo x) ++ u32le (u64hi x)

/-- Read a 64-bit word at byte position `p`. -/
def rdU64 (b : Buf) (p : ℕ) : Checked ε UInt64 := do
  let lo ← rdU32 b p
  let hi ← rdU32 b (p + 4)
  pure (u64OfHalves lo hi)

/-- Copy `n` bytes from position `p` on; a copy of no bytes reads nothing. -/
def rdBytes (b : Buf) (p n : ℕ) : Checked ε (List UInt8) :=
  if n = 0 ∨ p + n ≤ b.size then .ok (bytesAt b p n) else .error .fault

/-- Read `n` entries of `stride` bytes, one after the other. -/
def rdTable (f : ℕ → Checked ε α) (stride : ℕ) : (n p : ℕ) → Checked ε (List α)
  | 0, _ => pure []
  | n + 1, p => do
    let a ← f p
    let rest ← rdTable f stride n (p + stride)
    pure (a :: rest)

variable {b : Buf} {p n : ℕ} {c d : Prop}

theorem bytesAt_length (h : p + n ≤ b.size) : (bytesAt b p n).length = n := by
  unfold Buf.size at h
  simp only [bytesAt, List.length_take, List.length_drop]
  omega

/-! ### Readers -/

/-- The computation `x` returns `v` if `c` holds, and faults otherwise. -/
structure Gets (c : Prop) (x : Checked ε α) (v : α) : Prop where
  ok : c → x = .ok v
  fault : ¬ c → x = .error .fault

theorem Gets.safe_iff {x : Checked ε α} {v : α} (h : Gets c x v) : Safe x ↔ c := by
  constructor
  · intro hs
    by_contra hc
    exact hs (h.fault hc)
  · intro hc
    rw [h.ok hc]
    exact safe_ok v

theorem Gets.onlyFaults {x : Checked ε α} {v : α} (h : Gets c x v) : OnlyFaults x := by
  by_cases hc : c
  · rw [h.ok hc]
    exact onlyFaults_pure v
  · rw [h.fault hc]
    intro s hs
    cases hs
    rfl

theorem Gets.safe_bind_iff {x : Checked ε α} {f : α → Checked ε β} {v : α} (hx : Gets c x v) :
    Safe (x >>= f) ↔ c ∧ Safe (f v) := by
  by_cases hc : c
  · rw [hx.ok hc]
    exact (and_iff_right hc).symm
  · rw [hx.fault hc]
    exact iff_of_false (fun hs => hs rfl) fun hs => hc hs.1

theorem Gets.bind {x : Checked ε α} {f : α → Checked ε β} {v : α} {w : β} (hx : Gets c x v)
    (hf : c → Gets d (f v) w) : Gets (c ∧ d) (x >>= f) w where
  ok := by
    rintro ⟨hc, hd⟩
    rw [hx.ok hc]
    exact (hf hc).ok hd
  fault := by
    intro h
    by_cases hc : c
    · rw [hx.ok hc]
      exact (hf hc).fault fun hd => h ⟨hc, hd⟩
    · rw [hx.fault hc]
      rfl

theorem Gets.map {x : Checked ε α} {v : α} (hx : Gets c x v) (g : α → β) :
    Gets c (x >>= fun a => Pure.pure (g a)) (g v) where
  ok := by
    intro h
    rw [hx.ok h]
    rfl
  fault := by
    intro h
    rw [hx.fault h]
    rfl

theorem Gets.pure (v : α) : Gets True (Pure.pure v : Checked ε α) v where
  ok := fun _ => rfl
  fault := fun h => absurd trivial h

theorem Gets.congr {x : Checked ε α} {v : α} (h : Gets c x v) (hcd : c ↔ d) :
    Gets d x v where
  ok := fun hd => h.ok (hcd.mpr hd)
  fault := fun hd => h.fault fun hc => hd (hcd.mp hc)

theorem Gets.ite {q : Prop} [Decidable q] {x y : Checked ε α} {v w : α} (hx : Gets c x v)
    (hy : Gets d y w) : Gets ((q → c) ∧ (¬ q → d)) (if q then x else y) (if q then v else w) := by
  by_cases hq : q
  · rw [if_pos hq, if_pos hq]
    exact hx.congr (by simp [hq])
  · rw [if_neg hq, if_neg hq]
    exact hy.congr (by simp [hq])

/-- The reader `x` takes the `n` bytes from `p` on and returns `v`; without them it faults. -/
def Reads (b : Buf) (p n : ℕ) (x : Checked ε α) (v : α) : Prop := Gets (p + n ≤ b.size) x v

theorem Reads.bind {k : ℕ} {x : Checked ε α} {f : α → Checked ε β} {v : α} {w : β}
    (hx : Reads b p n x v) (hn : n ≤ k) (hf : p + n ≤ b.size → Reads b (p + n) (k - n) (f v) w) :
    Reads b p k (x >>= f) w :=
  (Gets.bind hx hf).congr (by omega)

theorem Reads.map {x : Checked ε α} {v : α} (hx : Reads b p n x v) (g : α → β) :
    Reads b p n (x >>= fun a => Pure.pure (g a)) (g v) :=
  Gets.map hx g

theorem Reads.pure (h : p ≤ b.size) (v : α) : Reads b p 0 (Pure.pure v : Checked ε α) v :=
  (Gets.pure v).congr (by simp [h])

theorem reads_byteAt (b : Buf) (p : ℕ) : Reads b p 1 (byteAt b p : Checked ε UInt8) (le8 b.bytes p) where
  ok := by
    intro h
    unfold Buf.size at h
    rw [byteAt, entryAt_eq_ok, le8, List.getElem?_eq_getElem (by omega),
      List.getD_eq_getElem _ _ (by omega)]
  fault := by
    intro h
    unfold Buf.size at h
    unfold byteAt entryAt
    rw [List.getElem?_eq_none (by omega)]

theorem reads_rdU16 (b : Buf) (p : ℕ) :
    Reads b p 2 (rdU16 b p : Checked ε UInt16) (le16 b.bytes p) := by
  apply (reads_byteAt b p).bind (by decide)
  exact fun _ => (reads_byteAt b (p + 1)).map _

theorem reads_rdU32 (b : Buf) (p : ℕ) :
    Reads b p 4 (rdU32 b p : Checked ε UInt32) (u32At b p) := by
  apply (reads_byteAt b p).bind (by decide)
  intro _
  apply (reads_byteAt b (p + 1)).bind (by decide)
  intro _
  apply (reads_byteAt b (p + 2)).bind (by decide)
  exact fun _ => (reads_byteAt b (p + 3)).map _

theorem reads_rdU64 (b : Buf) (p : ℕ) :
    Reads b p 8 (rdU64 b p : Checked ε UInt64) (u64At b p) := by
  apply (reads_rdU32 b p).bind (by decide)
  exact fun _ => (reads_rdU32 b (p + 4)).map _

theorem reads_rdBytes (n : ℕ) (h : p ≤ b.size) :
    Reads b p n (rdBytes b p n : Checked ε (List UInt8)) (bytesAt b p n) where
  ok := fun hn => if_pos (.inr hn)
  fault := fun hn => if_neg (by omega)

theorem reads_rdTable {f : ℕ → Checked ε α} {g : ℕ → α} {stride : ℕ}
    (hf : ∀ p, Reads b p stride (f p) (g p)) (n : ℕ) (h : p ≤ b.size) :
    Reads b p (n * stride) (rdTable f stride n p)
      ((List.range n).map fun i => g (p + i * stride)) := by
  induction n generalizing p with
  | zero =>
    rw [Nat.zero_mul]
    exact Reads.pure h []
  | succ n ih =>
    apply (hf p).bind (by rw [Nat.succ_mul]; omega)
    intro hle
    have hrest := (ih hle).map fun rest => g p :: rest
    have hlen : (n + 1) * stride - stride = n * stride := by rw [Nat.succ_mul]; omega
    have hmap : (List.range (n + 1)).map (fun i => g (p + i * stride)) =
        g p :: (List.range n).map fun i => g (p + stride + i * stride) := by
      rw [List.range_succ_eq_map, List.map_cons, List.map_map, Nat.zero_mul]
      congr 1
      apply List.map_congr_left
      intro i _
      simp only [Function.comp_apply, Nat.succ_mul]
      congr 1
      omega
    rw [hlen, hmap]
    exact hrest

/-! ### Pieces of a buffer -/

theorem bytesAt_standsAt {l : List UInt8} (h : StandsAt b p l) : bytesAt b p l.length = l := by
  obtain ⟨t, ht⟩ := h
  unfold bytesAt
  rw [← ht, List.take_left]

theorem le32_drop {l t : List UInt8} {x : UInt32} (h : l.drop p = u32le x ++ t) : le32 l p = x := by
  have hbyte : ∀ i b, (u32le x ++ t)[i]? = some b → le8 l (p + i) = b := by
    intro i b hb
    rw [le8, List.getD_eq_getElem?_getD, ← List.getElem?_drop, h, hb]
    rfl
  unfold le32
  rw [hbyte 1 _ rfl, hbyte 2 _ rfl, hbyte 3 _ rfl, ← Nat.add_zero p, hbyte 0 _ rfl]
  exact u32OfBytes_u32le x

end Gehtp.Lib
