import Gehtp.Lib.WordFields
import Gehtp.Model.SpillFillG4

/-!
# What the walk reads of a written record

The words of each record that the writer makes are read back as that record, whatever follows them.
What a dump says is taken as events: the start of a transfer, the move of a byte, a wait and a mark.
A copy is the moves of its bytes, so copies that are merged can be compared with those they are
merged from.
-/

set_option autoImplicit false

namespace Gehtp.Analysis.SfcdWords

open Lib Model.SpillFillG4

/-! ### Events -/

inductive Event where
  | transfer (isFill : Bool) (pool off : UInt32)
  | move (isFill : Bool) (blob tcm : UInt32)
  | wait (mb val : UInt32)
  | mark (mb val : UInt32)
  deriving DecidableEq

def moves (isFill : Bool) (blob tcm len : UInt32) : List Event :=
  (List.range len.toNat).map fun t => .move isFill (blob + .ofNat t) (tcm + .ofNat t)

/-- The bytes of copies one after the other; each one starts at a multiple of 64 bytes. -/
def copyMoves (isFill : Bool) : UInt32 → List G4SlcCopy → List Event
  | _, [] => []
  | blob, c :: cs =>
    moves isFill blob c.tcmOffset c.copyLen ++ copyMoves isFill (blob + g4RoundUp64 c.copyLen) cs

def lineEvents : Line → List Event
  | .record _ isFill pool off => [.transfer isFill pool off]
  | .entry mpCur isFill tcm len => moves isFill mpCur tcm len
  | .wait mb val => [.wait mb val]
  | .setProgress mb val => [.mark mb val]
  | _ => []

/-- These words are read as one record that tells these events. -/
def Reads (isFill verbose : Bool) (ws : List UInt32) (evs : List Event) : Prop :=
  ∀ total rest, ∃ lines total',
    readRecord isFill verbose total (ws ++ rest) = some (.inr (lines, total', rest)) ∧
      lines.flatMap lineEvents = evs

variable {isFill verbose : Bool}

section ReadRecord

variable {total w0 : UInt32} {cur : List UInt32}

theorem readRecord_block (h : w0 < 0x80000000) (blobOff : UInt32) :
    readRecord isFill verbose total (w0 :: blobOff :: cur) =
      (readEntries isFill verbose (w0 >>> 16) (w0 &&& 0xffff).toNat blobOff total cur).map fun r =>
        .inr (.record (w0 &&& 0xffff) isFill (w0 >>> 16) blobOff :: r.1, r.2) :=
  if_pos h

theorem readRecord_mark (h : ¬ w0 < 0x80000000) (htop : w0 >>> 24 = 0x81) (val : UInt32) :
    readRecord isFill verbose total (w0 :: val :: cur) =
      some (.inr ((if verbose then [Line.setTuple (w0 &&& 0xffffff) val] else []) ++
        [.setProgress (w0 &&& 0xffffff) val], total, cur)) :=
  (if_neg h).trans (if_pos htop)

theorem readRecord_waits (h : ¬ w0 < 0x80000000) (htop : w0 >>> 24 = 0x80) :
    readRecord isFill verbose total (w0 :: cur) =
      (if w0 &&& 0x10000 ≠ 0 then readPairs verbose ((w0 &&& 0xffff) >>> 1).toNat cur
        else readWords verbose (w0 &&& 0xffff).toNat cur).map fun r =>
          .inr (r.1, total, r.2) := by
  have h81 : ¬ w0 >>> 24 = 0x81 := by
    rw [htop]
    decide
  exact (if_neg h).trans ((if_neg h81).trans (if_pos htop))

end ReadRecord

/-! ### Copies -/

def entryWords (cs : List G4SlcCopy) : List UInt32 := cs.flatMap fun c => [c.tcmOffset, c.copyLen]

def blockWords (pool off : UInt32) (cs : List G4SlcCopy) : List UInt32 :=
  WordFields.pack 16 pool (.ofNat cs.length) :: off :: entryWords cs

theorem eq_of_aligned {tcm : UInt32} (h : tcm &&& 0xf = 0) : tcm &&& ~~~0xf = tcm := by
  apply UInt32.toNat_inj.mp
  have hmask : (0xf : UInt32).toNat = 2 ^ 4 - 1 := rfl
  have hzero := congrArg UInt32.toNat h
  rw [WordFields.toNat_mask hmask] at hzero
  change tcm.toNat % 2 ^ 4 = 0 at hzero
  rw [WordFields.toNat_clear (by decide) hmask]
  omega

theorem entryLines_events {pool mpCur tcm len : UInt32} (h : tcm &&& 0xf = 0) :
    (entryLines isFill verbose pool mpCur tcm len).flatMap lineEvents =
      moves isFill mpCur tcm len := by
  unfold entryLines
  rw [eq_of_aligned h]
  cases verbose with
  | false => exact List.append_nil _
  | true => exact List.append_nil _

variable (isFill verbose) in
theorem readEntries_entryWords (pool : UInt32) {cs : List G4SlcCopy}
    (h : ∀ c ∈ cs, c.tcmOffset &&& 0xf = 0) (mpCur total : UInt32) (rest : List UInt32) :
    ∃ lines total', readEntries isFill verbose pool cs.length mpCur total (entryWords cs ++ rest) =
        some (lines, total', rest) ∧ lines.flatMap lineEvents = copyMoves isFill mpCur cs := by
  induction cs generalizing mpCur total with
  | nil => exact ⟨[], total, rfl, rfl⟩
  | cons c cs ih =>
    obtain ⟨lines, total', hread, hevents⟩ := ih (fun c' hc' => h c' (List.mem_cons_of_mem c hc'))
      (mpCur + g4RoundUp64 c.copyLen) (total + c.copyLen)
    refine ⟨entryLines isFill verbose pool mpCur c.tcmOffset c.copyLen ++ lines, total', ?_, ?_⟩
    · show (readEntries isFill verbose pool cs.length (mpCur + g4RoundUp64 c.copyLen)
        (total + c.copyLen) (entryWords cs ++ rest)).map _ = _
      rw [hread]
      rfl
    · rw [List.flatMap_append, entryLines_events (h c List.mem_cons_self), hevents]
      rfl

theorem reads_block {pool off : UInt32} {cs : List G4SlcCopy} (hpool : pool ≤ 0x7fff)
    (hlen : cs.length ≤ 0xffff) (h : ∀ c ∈ cs, c.tcmOffset &&& 0xf = 0) :
    Reads isFill verbose (blockWords pool off cs)
      (.transfer isFill pool off :: copyMoves isFill off cs) := by
  intro total rest
  have hpool' : pool.toNat ≤ 0x7fff := UInt32.le_iff_toNat_le.mp hpool
  have hcount : (UInt32.ofNat cs.length).toNat = cs.length :=
    UInt32.toNat_ofNat_of_lt' (Nat.lt_of_le_of_lt hlen (by decide))
  have hs : (16 : UInt32).toNat = 16 := rfl
  have hfits : WordFields.Fits 16 pool (.ofNat cs.length) := by
    refine ⟨by decide, ?_, ?_⟩ <;> rw [hs]
    · rw [hcount]
      omega
    · omega
  have hhead := WordFields.toNat_pack hfits
  rw [hs, hcount] at hhead
  have hlt : WordFields.pack 16 pool (.ofNat cs.length) < 0x80000000 := by
    rw [UInt32.lt_iff_toNat_lt, hhead]
    show _ < 2147483648
    omega
  have hlow : WordFields.pack 16 pool (.ofNat cs.length) &&& 0xffff = .ofNat cs.length :=
    WordFields.pack_low hfits rfl
  have hhigh := WordFields.pack_high hfits
  obtain ⟨lines, total', hread, hevents⟩ :=
    readEntries_entryWords isFill verbose pool h off total rest
  refine ⟨.record (.ofNat cs.length) isFill pool off :: lines, total', ?_, ?_⟩
  · show readRecord isFill verbose total
      (WordFields.pack 16 pool (.ofNat cs.length) :: off :: (entryWords cs ++ rest)) = _
    rw [readRecord_block hlt, hlow, hhigh, hcount, hread]
    rfl
  · rw [List.flatMap_cons, hevents]
    rfl

/-! ### Waits and marks -/

def waitEvents (pairs : List G4SfcdWaitEntry) : List Event := pairs.map fun p => .wait p.mbIdx p.val

theorem waitLines_events (mb val : UInt32) :
    (waitLines verbose mb val).flatMap lineEvents = [.wait mb val] := by
  cases verbose <;> rfl

variable (verbose) in
theorem readPairs_words (pairs : List G4SfcdWaitEntry) (rest : List UInt32) :
    ∃ lines, readPairs verbose pairs.length ((pairs.flatMap fun p => [p.mbIdx, p.val]) ++ rest) =
        some (lines, rest) ∧ lines.flatMap lineEvents = waitEvents pairs := by
  induction pairs with
  | nil => exact ⟨[], rfl, rfl⟩
  | cons p pairs ih =>
    obtain ⟨lines, hread, hevents⟩ := ih
    refine ⟨waitLines verbose p.mbIdx p.val ++ lines, ?_, ?_⟩
    · show (readPairs verbose pairs.length
        ((pairs.flatMap fun p => [p.mbIdx, p.val]) ++ rest)).map _ = _
      rw [hread]
      rfl
    · rw [List.flatMap_append, waitLines_events, hevents]
      rfl

/-- Both parts of a wait fit into one word. -/
def Narrow (p : G4SfcdWaitEntry) : Prop := p.val ≤ 0xff ∧ p.mbIdx ≤ 0xffffff

theorem Narrow.fits {p : G4SfcdWaitEntry} (h : Narrow p) : WordFields.Fits 24 p.val p.mbIdx := by
  have hval : p.val.toNat ≤ 0xff := UInt32.le_iff_toNat_le.mp h.1
  have hmb : p.mbIdx.toNat ≤ 0xffffff := UInt32.le_iff_toNat_le.mp h.2
  have hs : (24 : UInt32).toNat = 24 := rfl
  refine ⟨by decide, ?_, ?_⟩ <;> rw [hs] <;> omega

variable (verbose) in
theorem readWords_words {pairs : List G4SfcdWaitEntry} (h : ∀ p ∈ pairs, Narrow p)
    (rest : List UInt32) :
    ∃ lines, readWords verbose pairs.length
        ((pairs.map fun p => (p.val <<< (24 : UInt32)) ||| p.mbIdx) ++ rest) =
        some (lines, rest) ∧ lines.flatMap lineEvents = waitEvents pairs := by
  induction pairs with
  | nil => exact ⟨[], rfl, rfl⟩
  | cons p pairs ih =>
    obtain ⟨lines, hread, hevents⟩ := ih fun p' hp' => h p' (List.mem_cons_of_mem p hp')
    have hfits := (h p List.mem_cons_self).fits
    have hlow : ((p.val <<< (24 : UInt32)) ||| p.mbIdx) &&& 0xffffff = p.mbIdx :=
      WordFields.pack_low hfits rfl
    have hhigh : ((p.val <<< (24 : UInt32)) ||| p.mbIdx) >>> 24 = p.val :=
      WordFields.pack_high hfits
    refine ⟨waitLines verbose p.mbIdx p.val ++ lines, ?_, ?_⟩
    · show (readWords verbose pairs.length
        ((pairs.map fun p => (p.val <<< (24 : UInt32)) ||| p.mbIdx) ++ rest)).map
        (fun r => (waitLines verbose
        (((p.val <<< (24 : UInt32)) ||| p.mbIdx) &&& 0xffffff)
        (((p.val <<< (24 : UInt32)) ||| p.mbIdx) >>> 24) ++ r.1, r.2)) = _
      rw [hread, hlow, hhigh]
      rfl
    · rw [List.flatMap_append, waitLines_events, hevents]
      rfl

theorem waitHead (top low : UInt32) (hlow : low.toNat < 2 ^ 16) (htop : top.toNat / 2 ^ 8 = 0x80) :
    ¬ WordFields.pack 16 top low < 0x80000000 ∧ WordFields.pack 16 top low >>> 24 = 0x80 ∧
      (WordFields.pack 16 top low &&& 0x10000).toNat = top.toNat % 2 * 2 ^ 16 ∧
      WordFields.pack 16 top low &&& 0xffff = low := by
  have hs : (16 : UInt32).toNat = 16 := rfl
  have hfits : WordFields.Fits 16 top low := by
    refine ⟨by decide, ?_, ?_⟩ <;> rw [hs]
    · exact hlow
    · omega
  have hnat := WordFields.toNat_pack hfits
  rw [hs] at hnat
  refine ⟨?_, ?_, ?_, WordFields.pack_low hfits rfl⟩
  · rw [UInt32.lt_iff_toNat_lt, hnat]
    show ¬ _ < 2147483648
    omega
  · apply UInt32.toNat_inj.mp
    rw [WordFields.toNat_shiftRight (by decide), hnat]
    show _ / 2 ^ 24 = 128
    omega
  · have hmask : (0x10000 : UInt32).toNat = 2 ^ 16 := rfl
    rw [WordFields.toNat_bit hmask, hnat]
    omega

theorem reads_waits {narrow : Bool} {pairs : List G4SfcdWaitEntry}
    (hlen : pairs.length ≤ G4SfcdWriter.waitChunk narrow)
    (h : narrow = true → ∀ p ∈ pairs, Narrow p) :
    Reads isFill verbose (G4SfcdWriter.waitWords narrow pairs) (waitEvents pairs) := by
  intro total rest
  cases narrow with
  | true =>
    have hlen' : pairs.length ≤ 0xffff := hlen
    have hcount : (UInt32.ofNat pairs.length).toNat = pairs.length :=
      UInt32.toNat_ofNat_of_lt' (Nat.lt_of_le_of_lt hlen' (by decide))
    obtain ⟨hge, htop, hbit, hlow⟩ := waitHead 0x8000 (.ofNat pairs.length)
      (by omega) rfl
    have hzero : WordFields.pack 16 0x8000 (.ofNat pairs.length) &&& 0x10000 = 0 :=
      UInt32.toNat_inj.mp hbit
    obtain ⟨lines, hread, hevents⟩ := readWords_words verbose (h rfl) rest
    refine ⟨lines, total, ?_, hevents⟩
    show readRecord isFill verbose total (WordFields.pack 16 0x8000 (.ofNat pairs.length) ::
      ((pairs.map fun p => (p.val <<< (24 : UInt32)) ||| p.mbIdx) ++ rest)) = _
    rw [readRecord_waits hge htop, if_neg (not_not.mpr hzero), hlow, hcount, hread]
    rfl
  | false =>
    have hlen' : pairs.length ≤ 0x7fff := hlen
    have hcount : (UInt32.ofNat pairs.length).toNat = pairs.length :=
      UInt32.toNat_ofNat_of_lt' (Nat.lt_of_le_of_lt hlen' (by decide))
    have hdouble : (UInt32.ofNat pairs.length <<< (1 : UInt32)).toNat = pairs.length * 2 := by
      rw [UInt32.toNat_shiftLeft, hcount, Nat.shiftLeft_eq]
      show pairs.length * 2 ^ 1 % 2 ^ 32 = _
      omega
    obtain ⟨hge, htop, hbit, hlow⟩ := waitHead 0x8001
      (UInt32.ofNat pairs.length <<< (1 : UInt32)) (by omega) rfl
    have hone : WordFields.pack 16 0x8001 (UInt32.ofNat pairs.length <<< (1 : UInt32)) &&& 0x10000
        ≠ 0 := by
      intro hzero
      rw [hzero] at hbit
      exact absurd hbit (by decide)
    have hhalf : ((UInt32.ofNat pairs.length <<< (1 : UInt32)) >>> 1).toNat = pairs.length := by
      rw [WordFields.toNat_shiftRight (by decide), hdouble]
      show pairs.length * 2 / 2 ^ 1 = _
      omega
    obtain ⟨lines, hread, hevents⟩ := readPairs_words verbose pairs rest
    refine ⟨lines, total, ?_, hevents⟩
    show readRecord isFill verbose total
      (WordFields.pack 16 0x8001 (UInt32.ofNat pairs.length <<< (1 : UInt32)) ::
        ((pairs.flatMap fun p => [p.mbIdx, p.val]) ++ rest)) = _
    rw [readRecord_waits hge htop, if_pos hone, hlow, hhalf, hread]
    rfl

theorem reads_mark {mb val : UInt32} (h : mb ≤ 0xffffff) :
    Reads isFill verbose [0x81000000 ||| mb, val] [.mark mb val] := by
  intro total rest
  have hmb : mb.toNat ≤ 0xffffff := UInt32.le_iff_toNat_le.mp h
  have hs : (24 : UInt32).toNat = 24 := rfl
  have hfits : WordFields.Fits 24 0x81 mb := by
    refine ⟨by decide, ?_, by decide⟩
    rw [hs]
    omega
  have hnat := WordFields.toNat_pack hfits
  rw [hs] at hnat
  have hge : ¬ WordFields.pack 24 0x81 mb < 0x80000000 := by
    rw [UInt32.lt_iff_toNat_lt, hnat]
    show ¬ 129 * 2 ^ 24 + _ < 2147483648
    omega
  have hlow : WordFields.pack 24 0x81 mb &&& 0xffffff = mb := WordFields.pack_low hfits rfl
  refine ⟨(if verbose then [Line.setTuple mb val] else []) ++ [.setProgress mb val], total, ?_, ?_⟩
  · show readRecord isFill verbose total (WordFields.pack 24 0x81 mb :: val :: rest) = _
    rw [readRecord_mark hge (WordFields.pack_high hfits), hlow]
  · cases verbose <;> rfl

end Gehtp.Analysis.SfcdWords
