import Gehtp.Model.OpExtra

/-!
# Scalar parameters of any lengths

The writer stores the number of parameters and the lengths of names and strings in 32 bits, and of
the two values of a parameter only the one that its kind selects. What the reader returns is always
of this form, whatever the blob; so the parameters that come back from their own image are exactly
the ones of this form. The reader looks at nothing outside of the blob.
-/

set_option autoImplicit false

namespace Gehtp.Analysis.ScalarRoundTrip

open Lib Model.OpExtra

/-! ### What the format can say -/

/-- The lengths of a parameter fit their words, and the value that its kind does not select is at
its default. -/
structure Framed (p : ScalarParam) : Prop where
  name : p.name.length < 2 ^ 32
  num : p.isNumeric = true → p.valueStr = []
  str : p.isNumeric = false → p.valueNum = 0 ∧ p.valueStr.length < 2 ^ 32

/-- Every parameter is such, and their number fits its word. -/
def Framable (l : List ScalarParam) : Prop := l.length < 2 ^ 32 ∧ ∀ p ∈ l, Framed p

/-! ### The form of what is read -/

theorem length_le32 (blob : List UInt8) (off p : ℕ) :
    ((blob.drop p).take (le32 blob off).toNat).length < 2 ^ 32 :=
  (List.length_take_le _ _).trans_lt (le32 blob off).toNat_lt

variable {blob t : List UInt8} {off : ℕ}

theorem framed_unpackValue {name : List UInt8} {off' : ℕ} {p : ScalarParam}
    (hname : name.length < 2 ^ 32) (h : unpackValue blob name off = some (p, off')) : Framed p := by
  unfold unpackValue at h
  split at h
  · split at h
    · cases h
    · cases h
      exact ⟨hname, fun _ => rfl, fun hk => by cases hk⟩
  · split at h
    · cases h
    · simp only at h
      split at h
      · cases h
      · cases h
        exact ⟨hname, (fun hk => by cases hk), fun _ => ⟨rfl, length_le32 _ _ _⟩⟩

theorem framed_unpackFrom (blob : List UInt8) (n off : ℕ) :
    (unpackFrom blob n off).length ≤ n ∧ ∀ p ∈ unpackFrom blob n off, Framed p := by
  induction n generalizing off with
  | zero => exact ⟨le_rfl, by simp [unpackFrom]⟩
  | succ n ih =>
    unfold unpackFrom
    split
    · exact ⟨Nat.zero_le _, by simp⟩
    simp only
    split
    · exact ⟨Nat.zero_le _, by simp⟩
    split
    · exact ⟨Nat.zero_le _, by simp⟩
    · rename_i p off' hvalue
      obtain ⟨hlen, hall⟩ := ih off'
      refine ⟨Nat.succ_le_succ hlen, List.forall_mem_cons.mpr ⟨?_, hall⟩⟩
      exact framed_unpackValue (length_le32 _ _ _) hvalue

theorem framable_unpackScalarParams (blob : List UInt8) : Framable (unpackScalarParams blob) := by
  unfold unpackScalarParams
  split
  · exact ⟨by decide, by simp⟩
  · obtain ⟨hlen, hall⟩ := framed_unpackFrom blob (le32 blob 0).toNat 4
    exact ⟨hlen.trans_lt (le32 blob 0).toNat_lt, hall⟩

/-! ### The image of the writer -/

theorem drop_behind {a : List UInt8} (h : blob.drop off = a ++ t) :
    blob.drop (off + a.length) = t := by
  rw [← List.drop_drop, h, List.drop_left]

theorem end_le {a : List UInt8} (h : blob.drop off = a ++ t) (ha : a ≠ []) :
    off + a.length ≤ blob.length := by
  have hlen := congrArg List.length h
  have hpos := List.length_pos_iff.mpr ha
  rw [List.length_drop, List.length_append] at hlen
  omega

theorem le8_drop {x : UInt8} (h : blob.drop off = x :: t) : le8 blob off = x := by
  have hget : blob[off]? = some x := by
    rw [← Nat.add_zero off, ← List.getElem?_drop, h]
    rfl
  rw [le8, List.getD_eq_getElem?_getD, hget]
  rfl

theorem le64_drop {x : UInt64} (h : blob.drop off = u64le x ++ t) : le64 blob off = x := by
  rw [u64le, List.append_assoc] at h
  have hhigh : blob.drop (off + 4) = u32le (u64hi x) ++ t := drop_behind h
  rw [le64, le32_drop h, le32_drop hhigh, u64OfHalves_lo_hi]

theorem word_length {l : List UInt8} (h : l.length < 2 ^ 32) :
    (UInt32.ofNat l.length).toNat = l.length := by
  rw [UInt32.toNat_ofNat']
  exact Nat.mod_eq_of_lt h

/-- The kind and the value of a parameter. SOURCE: scalar_params.hpp:52-60 -/
def valueBytes (p : ScalarParam) : List UInt8 :=
  if p.isNumeric then 0 :: u64le p.valueNum
  else 1 :: u32le (UInt32.ofNat p.valueStr.length) ++ p.valueStr

theorem unpackValue_image {p : ScalarParam} (hp : Framed p)
    (h : blob.drop off = valueBytes p ++ t) :
    unpackValue blob p.name off = some (p, off + (valueBytes p).length) := by
  obtain ⟨name, isNumeric, valueNum, valueStr⟩ := p
  cases isNumeric with
  | true =>
    obtain rfl : valueStr = [] := hp.num rfl
    have hbytes : valueBytes ⟨name, true, valueNum, []⟩ = 0 :: u64le valueNum := rfl
    rw [hbytes] at h ⊢
    have hend : off + 9 ≤ blob.length := end_le h (List.cons_ne_nil _ _)
    have hvalue : blob.drop (off + 1) = u64le valueNum ++ t :=
      drop_behind (a := [0]) (t := u64le valueNum ++ t) h
    unfold unpackValue
    rw [if_pos (le8_drop h), if_neg (by omega), le64_drop hvalue]
    rfl
  | false =>
    obtain ⟨rfl, hstr⟩ := hp.str rfl
    have hbytes : valueBytes ⟨name, false, 0, valueStr⟩ =
        1 :: u32le (UInt32.ofNat valueStr.length) ++ valueStr := rfl
    rw [hbytes] at h ⊢
    have hend : off + (5 + valueStr.length) ≤ blob.length := by
      have := end_le h (List.cons_ne_nil _ _)
      simp only [List.cons_append, List.length_cons, List.length_append, u32le_length] at this
      omega
    have hlen : blob.drop (off + 1) = u32le (UInt32.ofNat valueStr.length) ++ (valueStr ++ t) := by
      rw [← List.append_assoc]
      exact drop_behind (a := [1]) h
    have hdata : blob.drop (off + 1 + 4) = valueStr ++ t := drop_behind hlen
    have hkind : le8 blob off ≠ 0 := by
      rw [le8_drop (t := u32le (UInt32.ofNat valueStr.length) ++ valueStr ++ t) h]
      decide
    unfold unpackValue
    rw [if_neg hkind, if_neg (by omega)]
    simp only [le32_drop hlen, word_length hstr, hdata, List.take_left]
    rw [if_neg (by omega)]
    simp only [List.cons_append, List.length_cons, List.length_append, u32le_length]
    congr 2
    omega

theorem packScalarParam_eq (p : ScalarParam) :
    packScalarParam p = u32le (UInt32.ofNat p.name.length) ++ (p.name ++ valueBytes p) := by
  rw [packScalarParam, valueBytes, List.append_assoc]

theorem unpackFrom_image {l : List ScalarParam} (hl : ∀ p ∈ l, Framed p)
    (h : blob.drop off = l.flatMap packScalarParam ++ t) : unpackFrom blob l.length off = l := by
  induction l generalizing off with
  | nil => rfl
  | cons p l ih =>
    obtain ⟨hp, hl⟩ := List.forall_mem_cons.mp hl
    rw [List.flatMap_cons, packScalarParam_eq] at h
    simp only [List.append_assoc] at h
    have hname : blob.drop (off + 4) = p.name ++ (valueBytes p ++ (l.flatMap packScalarParam ++ t)) :=
      drop_behind h
    have hvalue : blob.drop (off + 4 + p.name.length) =
        valueBytes p ++ (l.flatMap packScalarParam ++ t) := drop_behind hname
    have hne : valueBytes p ≠ [] := by
      unfold valueBytes
      split <;> simp
    have hend : off + 4 + p.name.length + 1 ≤ blob.length := by
      have := end_le hvalue hne
      have := List.length_pos_iff.mpr hne
      omega
    rw [List.length_cons, unpackFrom, if_neg (by omega)]
    simp only [le32_drop h, word_length hp.name, hname, List.take_left]
    rw [if_neg (by omega), unpackValue_image hp hvalue]
    simp only [List.cons.injEq, true_and]
    exact ih hl (drop_behind hvalue)

theorem unpack_pack {l : List ScalarParam} (h : Framable l) :
    unpackScalarParams (packScalarParams l) = l := by
  have hcount : (packScalarParams l).drop 0 =
      u32le (UInt32.ofNat l.length) ++ l.flatMap packScalarParam := rfl
  have hbody : (packScalarParams l).drop 4 = l.flatMap packScalarParam ++ [] := by
    rw [List.append_nil, ← drop_behind hcount]
    rfl
  have hlen : ¬ (packScalarParams l).length < 4 := by
    rw [packScalarParams, List.length_append, u32le_length]
    omega
  unfold unpackScalarParams
  rw [if_neg hlen, le32_drop hcount, UInt32.toNat_ofNat', Nat.mod_eq_of_lt h.1]
  exact unpackFrom_image h.2 hbody

/-! ### The reads -/

theorem readValue_eq {b : Buf} {name : List UInt8} (h : off + 1 ≤ b.size) :
    readValue b name off = .ok (unpackValue b.bytes name off) := by
  unfold readValue unpackValue
  rw [(reads_byteAt b off).ok h]
  show (if le8 b.bytes off = 0 then _ else _) = _
  by_cases hkind : le8 b.bytes off = 0
  · rw [if_pos hkind, if_pos hkind]
    by_cases hroom : b.size < off + 1 + 8
    · rw [if_pos hroom]
      exact congrArg Except.ok (if_pos hroom).symm
    · rw [if_neg hroom, (reads_rdU64 b (off + 1)).ok (by omega)]
      exact congrArg Except.ok (if_neg hroom).symm
  · rw [if_neg hkind, if_neg hkind]
    by_cases hroom : b.size < off + 1 + 4
    · rw [if_pos hroom]
      exact congrArg Except.ok (if_pos hroom).symm
    · rw [if_neg hroom, (reads_rdU32 b (off + 1)).ok (by omega)]
      refine Eq.trans ?_ (congrArg Except.ok (if_neg hroom).symm)
      show (if b.size < off + 1 + 4 + (u32At b (off + 1)).toNat then _ else _) = _
      by_cases hstr : b.size < off + 1 + 4 + (u32At b (off + 1)).toNat
      · rw [if_pos hstr]
        exact congrArg Except.ok (if_pos hstr).symm
      · rw [if_neg hstr, (reads_rdBytes _ (by omega)).ok (by omega)]
        exact congrArg Except.ok (if_neg hstr).symm

theorem readFrom_eq (b : Buf) (n off : ℕ) : readFrom b n off = .ok (unpackFrom b.bytes n off) := by
  induction n generalizing off with
  | zero => rfl
  | succ n ih =>
    unfold readFrom unpackFrom
    by_cases hroom : b.size < off + 4
    · rw [if_pos hroom]
      exact congrArg Except.ok (if_pos hroom).symm
    rw [if_neg hroom, (reads_rdU32 b off).ok (by omega)]
    refine Eq.trans ?_ (congrArg Except.ok (if_neg hroom).symm)
    show (if b.size < off + 4 + (u32At b off).toNat + 1 then _ else _) = _
    by_cases hname : b.size < off + 4 + (u32At b off).toNat + 1
    · rw [if_pos hname]
      exact congrArg Except.ok (if_pos hname).symm
    rw [if_neg hname, (reads_rdBytes _ (by omega)).ok (by omega)]
    refine Eq.trans ?_ (congrArg Except.ok (if_neg hname).symm)
    show (readValue b (bytesAt b (off + 4) (u32At b off).toNat) _ >>= _) = _
    rw [readValue_eq (by omega)]
    generalize hval : unpackValue b.bytes (bytesAt b (off + 4) (u32At b off).toNat)
      (off + 4 + (u32At b off).toNat) = value
    have hpure : unpackValue b.bytes ((b.bytes.drop (off + 4)).take (le32 b.bytes off).toNat)
        (off + 4 + (le32 b.bytes off).toNat) = value := hval
    rw [hpure]
    cases value with
    | none => rfl
    | some r =>
      show (readFrom b n r.2 >>= _) = _
      rw [ih]
      rfl

theorem readScalarParams_eq (b : Buf) : readScalarParams b = .ok (unpackScalarParams b.bytes) := by
  unfold readScalarParams unpackScalarParams
  by_cases hroom : b.size < 4
  · rw [if_pos hroom]
    exact congrArg Except.ok (if_pos hroom).symm
  · rw [if_neg hroom, (reads_rdU32 b 0).ok (by omega)]
    refine Eq.trans ?_ (congrArg Except.ok (if_neg hroom).symm)
    exact readFrom_eq b _ 4

/-! ### Round trips -/

/-- The reader ends on the blob without a read outside of it. -/
def ReadsInside (b : Buf) : Prop := ∃ l, readScalarParams b = .ok l

/-- Packing the parameters and unpacking the bytes gives them back. -/
def RoundTrips (l : List ScalarParam) : Prop := unpackScalarParams (packScalarParams l) = l

/-- Parameters come back exactly if they can be framed, and every blob is read inside its ends. -/
theorem scalar_params_iff (l : List ScalarParam) (b : Buf) :
    RoundTrips l ∧ ReadsInside b ↔ Framable l := by
  constructor
  · rintro ⟨hl, -⟩
    rw [← hl]
    exact framable_unpackScalarParams _
  · intro h
    exact ⟨unpack_pack h, _, readScalarParams_eq b⟩

/-- A name of 4 GiB is cut off: its length is stored as 0. -/
theorem longName_not_roundTrips :
    ¬ ∀ (l : List ScalarParam) (b : Buf), RoundTrips l ∧ ReadsInside b := by
  intro hall
  obtain ⟨hl, -⟩ := hall [⟨List.replicate (2 ^ 32) 97, true, 0, []⟩] ⟨[], by decide⟩
  have hframed := (framable_unpackScalarParams (packScalarParams
    [⟨List.replicate (2 ^ 32) 97, true, 0, []⟩])).2
  rw [hl, List.forall_mem_singleton] at hframed
  have hlen := hframed.name
  rw [List.length_replicate] at hlen
  exact absurd hlen (lt_irrefl _)

end Gehtp.Analysis.ScalarRoundTrip
