import Mathlib.Data.List.Basic

/-!
# Spill and fill command data

`compiler/src/vtcm/spillfill_g4.cpp`: the areas of the spill and fill allocator are written as words
of 32 bits. A header of three words is followed by records: blocks of copies, waits and progress
marks. `g4_dump_sfcd` walks such words and prints what they say.

What is printed is kept line by line, not as text. A walk that leaves the words has no result.
-/

set_option autoImplicit false

namespace Gehtp.Model.SpillFillG4

/-- SOURCE: spillfill_g4.hpp:26-28 -/
def g4RoundUp64 (n : UInt32) : UInt32 := (n + 0x3f) &&& ~~~0x3f

/-- SOURCE: spillfill_g4.hpp:64 -/
structure G4SfcdWaitEntry where
  mbIdx : UInt32
  val : UInt32
  deriving DecidableEq

/-- SOURCE: spillfill_g4.hpp:113 -/
structure G4SlcCopy where
  tcmOffset : UInt32
  copyLen : UInt32
  cacheHints : UInt32
  deriving DecidableEq

/-- The record types. SOURCE: spillfill_g4.hpp:96-100 -/
def recSpillfill : UInt32 := 0
def recWaitfor : UInt32 := 1
def recSetprogress : UInt32 := 2

/-- SOURCE: spillfill_g4.hpp:120-129 -/
structure G4SlcRecord where
  recType : UInt32
  ddrPool : UInt32 := 0
  sfOffset : UInt32 := 0
  copies : List G4SlcCopy := []
  pairs : List G4SfcdWaitEntry := []
  mbIdx : UInt32 := 0
  valueToSet : UInt32 := 0
  deriving DecidableEq

/-- SOURCE: spillfill_g4.hpp:133-141 -/
structure G4SlcArea where
  isFill : Bool
  dmaCheckpoint : UInt32
  records : List G4SlcRecord
  deriving DecidableEq

/-! ### The check -/

def hex (w : UInt32) : String := String.ofList (Nat.toDigits 16 w.toNat)

/-- SOURCE: spillfill_g4.cpp:524-563 -/
def checkRecord (i : ℕ) (r : G4SlcRecord) : Except String Unit :=
  if r.recType = recSpillfill then
    if r.ddrPool > 0x7fff then .error s!"rec {i}: ddr_pool > 0x7FFF"
    else if r.copies.length > 0xffff then .error s!"rec {i}: too many copies"
    else
      match r.copies.find? fun c => c.tcmOffset &&& 0xf ≠ 0 with
      | some c =>
        let off := hex c.tcmOffset
        .error s!"rec {i}: tcm_offset 0x{off} not 16B aligned"
      | none => .ok ()
  else if r.recType = recWaitfor then
    if r.pairs.any fun p => p.mbIdx > 0xffffff then .error s!"rec {i}: wait mb > 0xFFFFFF"
    else .ok ()
  else if r.recType = recSetprogress then
    if r.mbIdx > 0xffffff then .error s!"rec {i}: set mb > 0xFFFFFF" else .ok ()
  else
    let type := r.recType.toNat
    .error s!"rec {i}: bad rec_type {type}"

def checkFrom : ℕ → List G4SlcRecord → Except String Unit
  | _, [] => .ok ()
  | i, r :: rs => (checkRecord i r).bind fun _ => checkFrom (i + 1) rs

/-- SOURCE: spillfill_g4.cpp:522-566 -/
def g4FillMgroupCheck (area : G4SlcArea) : Except String Unit := checkFrom 0 area.records

/-! ### The writer -/

/-- SOURCE: spillfill_g4.hpp:253-286 -/
structure G4SfcdWriter where
  words : List UInt32
  records : UInt32
  openRec : Option ℕ
  openBlocks : UInt32

namespace G4SfcdWriter

/-- SOURCE: spillfill_g4.cpp:392-394 -/
def init : G4SfcdWriter := ⟨[0, 0, 0], 0, none, 0⟩

/-- SOURCE: spillfill_g4.cpp:397-405 -/
def beginBlockRecord (w : G4SfcdWriter) (blobOff : UInt32) : Except String (G4SfcdWriter × ℕ) :=
  if w.openRec.isSome then .error "g4 sfcd: block record already open"
  else
    .ok ({ w with
        words := w.words ++ [0, blobOff]
        openRec := some w.words.length
        openBlocks := 0 },
      w.words.length)

/-- SOURCE: spillfill_g4.cpp:407-420 -/
def pushBlockEntry (w : G4SfcdWriter) (tcmOffset typeNibble len : UInt32) :
    Except String G4SfcdWriter :=
  if w.openRec.isNone then .error "g4 sfcd: no open block record"
  else if tcmOffset &&& 0xf ≠ 0 then .error "g4 sfcd: tcm_offset not 16B aligned"
  else if typeNibble > 0xf then .error "g4 sfcd: type nibble > 0xF"
  else if w.openBlocks = 0xffff then .error "g4 sfcd: too many block entries"
  else
    .ok { w with
      words := w.words ++ [tcmOffset ||| typeNibble, len]
      openBlocks := w.openBlocks + 1 }

/-- SOURCE: spillfill_g4.cpp:422-431 -/
def endBlockRecord (w : G4SfcdWriter) (rec : ℕ) (pool : UInt32) : Except String G4SfcdWriter :=
  if w.openRec ≠ some rec then .error "g4 sfcd: end_block_record mismatch"
  else if pool > 0x7fff then .error "g4 sfcd: pool id > 0x7FFF"
  else
    .ok { w with
      words := w.words.set rec ((pool <<< 16) ||| w.openBlocks)
      openRec := none
      openBlocks := 0
      records := w.records + 1 }

/-- The words of one record of waits. SOURCE: spillfill_g4.cpp:455-467 -/
def waitWords (narrow : Bool) (pairs : List G4SfcdWaitEntry) : List UInt32 :=
  let cnt := UInt32.ofNat pairs.length
  if narrow then
    let head : UInt32 := 0x80000000 ||| cnt
    head :: pairs.map fun p => (p.val <<< (24 : UInt32)) ||| p.mbIdx
  else
    let head : UInt32 := 0x80010000 ||| (cnt <<< (1 : UInt32))
    head :: pairs.flatMap fun p => [p.mbIdx, p.val]

/-- The most waits in one record. SOURCE: spillfill_g4.cpp:452 -/
def waitChunk (narrow : Bool) : ℕ := if narrow then 0xffff else 0x7fff

theorem waitChunk_pos (narrow : Bool) : 0 < waitChunk narrow := by
  cases narrow <;> decide

/-- The loop over the chunks. SOURCE: spillfill_g4.cpp:453-469 -/
def writeChunks (narrow : Bool) (w : G4SfcdWriter) (pairs : List G4SfcdWaitEntry) : G4SfcdWriter :=
  if _h : pairs = [] then w
  else
    writeChunks narrow
      { w with
        words := w.words ++ waitWords narrow (pairs.take (waitChunk narrow))
        records := w.records + 1 }
      (pairs.drop (waitChunk narrow))
  termination_by pairs.length
  decreasing_by
    have hpos := List.length_pos_of_ne_nil _h
    have hchunk := waitChunk_pos narrow
    rw [List.length_drop]
    omega

/-- One word is enough for each wait. SOURCE: spillfill_g4.cpp:445-451 -/
def narrowWaits (pairs : List G4SfcdWaitEntry) : Bool :=
  pairs.all fun p => !(p.val > 0xff || p.mbIdx > 0xffffff)

/-- SOURCE: spillfill_g4.cpp:443-470 -/
def writeWaits (w : G4SfcdWriter) (pairs : List G4SfcdWaitEntry) : G4SfcdWriter :=
  writeChunks (narrowWaits pairs) w pairs

/-- SOURCE: spillfill_g4.cpp:472-478 -/
def writeSetProgress (w : G4SfcdWriter) (mbIdx val : UInt32) : Except String G4SfcdWriter :=
  if mbIdx > 0xffffff then .error "g4 sfcd: set_progress mb_idx > 0xFFFFFF"
  else
    .ok { w with
      words := w.words ++ [0x81000000 ||| mbIdx, val]
      records := w.records + 1 }

/-- SOURCE: spillfill_g4.cpp:480-487 -/
def finishHeader (w : G4SfcdWriter) (checkpointIndex : UInt32) : Except String G4SfcdWriter :=
  if w.openRec.isSome then .error "g4 sfcd: finish with open block record"
  else
    let total := UInt32.ofNat (4 * w.words.length - 4)
    .ok { w with
      words := ((w.words.set 0 total).set 1 checkpointIndex).set 2 (w.records &&& 0xffffff) }

end G4SfcdWriter

/-- Copies that are next to each other in the fast memory. SOURCE: spillfill_g4.cpp:494-496 -/
def joins (a b : G4SlcCopy) : Bool :=
  a.cacheHints = b.cacheHints && a.tcmOffset.toNat + a.copyLen.toNat = b.tcmOffset.toNat

def G4SlcCopy.extend (a : G4SlcCopy) (len : UInt32) : G4SlcCopy :=
  { a with copyLen := a.copyLen + len }

/-- One more copy; the last one comes first. SOURCE: spillfill_g4.cpp:493-501 -/
def finalizeStep (out : List G4SlcCopy) (c : G4SlcCopy) : List G4SlcCopy :=
  match out with
  | [] => [c]
  | back :: out' => if joins back c then back.extend c.copyLen :: out' else c :: back :: out'

/-- SOURCE: spillfill_g4.cpp:490-503 -/
def g4SfcdFinalizeCopies (copies : List G4SlcCopy) : List G4SlcCopy :=
  (copies.foldl finalizeStep []).reverse

/-- SOURCE: spillfill_g4.cpp:579-580 -/
def pushEntries (w : G4SfcdWriter) : List G4SlcCopy → Except String G4SfcdWriter
  | [] => .ok w
  | c :: cs => (w.pushBlockEntry c.tcmOffset 0 c.copyLen).bind fun w => pushEntries w cs

/-- SOURCE: spillfill_g4.cpp:575-591 -/
def writeRecord (w : G4SfcdWriter) (r : G4SlcRecord) : Except String G4SfcdWriter :=
  if r.recType = recSpillfill then
    (w.beginBlockRecord r.sfOffset).bind fun begun =>
      (pushEntries begun.1 (g4SfcdFinalizeCopies r.copies)).bind fun w =>
        w.endBlockRecord begun.2 r.ddrPool
  else if r.recType = recWaitfor then .ok (w.writeWaits r.pairs)
  else if r.recType = recSetprogress then w.writeSetProgress r.mbIdx r.valueToSet
  else .ok w

def writeRecords (w : G4SfcdWriter) : List G4SlcRecord → Except String G4SfcdWriter
  | [] => .ok w
  | r :: rs => (writeRecord w r).bind fun w => writeRecords w rs

/-- SOURCE: spillfill_g4.cpp:569-594 -/
def g4ConstructSfcd (area : G4SlcArea) : Except String (List UInt32) :=
  match g4FillMgroupCheck area with
  | .error err => .error ("g4_construct_sfcd: " ++ err)
  | .ok _ =>
    (writeRecords .init area.records).bind fun w =>
      (w.finishHeader area.dmaCheckpoint).map G4SfcdWriter.words

/-! ### The walk -/

/-- A line of the dump. -/
inductive Line where
  | head (isFill : Bool) (bytes : UInt32)
  | checkpoint (index : UInt32)
  | zeroRecords
  | record (nblocks : UInt32) (isFill : Bool) (pool off : UInt32)
  | entryTuple (pool mpCur tcm len type : UInt32)
  | entry (mpCur : UInt32) (isFill : Bool) (tcm len : UInt32)
  | setTuple (mb val : UInt32)
  | setProgress (mb val : UInt32)
  | waitTuple (mb val : UInt32)
  | wait (mb val : UInt32)
  | badHeader (text : String)
  | total (bytes : UInt32)
  | badLength (words : UInt64)
  deriving DecidableEq

/-- SOURCE: spillfill_g4.hpp:67-76 -/
structure G4SfcdWalk where
  totalBytes : UInt32
  checkpointIndex : UInt32
  recordCount : UInt32
  zeroRecords : Bool := false
  cursorBytes : ℕ := 0
  badLength : Bool := false
  badLengthWords : UInt64 := 0
  blocksTotal : UInt32 := 0
  errors : List String := []
  deriving DecidableEq

def hex08 (w : UInt32) : String :=
  let digits := Nat.toDigits 16 w.toNat
  String.ofList (List.replicate (8 - digits.length) '0' ++ digits)

/-- SOURCE: spillfill_g4.cpp:33-40 -/
def g4Err2095 (badHdr : UInt32) : String :=
  "grdep_spillfill.cc:2095::ERROR:Bad SFCD record header " ++ hex08 badHdr

/-- SOURCE: spillfill_g4.cpp:42-47 -/
def g4Err2095File (badHdr : UInt32) : String :=
  "   !!!!  Bad SFCD record header " ++ hex08 badHdr

section Dump

variable (isFill verbose : Bool)

/-- SOURCE: spillfill_g4.cpp:107-124 -/
def entryLines (pool mpCur w len : UInt32) : List Line :=
  let tcmOff := w &&& ~~~0xf
  let type := w &&& 0xf
  (if verbose then [.entryTuple pool mpCur tcmOff len type] else []) ++
    [.entry mpCur isFill tcmOff len]

/-- The copies of a block record. SOURCE: spillfill_g4.cpp:105-128 -/
def readEntries (pool : UInt32) : ℕ → UInt32 → UInt32 → List UInt32 →
    Option (List Line × UInt32 × List UInt32)
  | 0, _, blocksTotal, cur => some ([], blocksTotal, cur)
  | n + 1, mpCur, blocksTotal, w :: len :: cur =>
    (readEntries pool n (mpCur + g4RoundUp64 len) (blocksTotal + len) cur).map fun r =>
      (entryLines isFill verbose pool mpCur w len ++ r.1, r.2)
  | _, _, _, _ => none

def waitLines (mb val : UInt32) : List Line :=
  (if verbose then [.waitTuple mb val] else []) ++ [.wait mb val]

/-- Waits of two words. SOURCE: spillfill_g4.cpp:149-163 -/
def readPairs : ℕ → List UInt32 → Option (List Line × List UInt32)
  | 0, cur => some ([], cur)
  | n + 1, mb :: val :: cur =>
    (readPairs n cur).map fun r => (waitLines verbose mb val ++ r.1, r.2)
  | _, _ => none

/-- Waits of one word. SOURCE: spillfill_g4.cpp:166-180 -/
def readWords : ℕ → List UInt32 → Option (List Line × List UInt32)
  | 0, cur => some ([], cur)
  | n + 1, w :: cur =>
    (readWords n cur).map fun r => (waitLines verbose (w &&& 0xffffff) (w >>> 24) ++ r.1, r.2)
  | _, _ => none

/-- What is left after a record: its lines, the bytes of the blocks and the words; or its header, if
that is bad. -/
abbrev Read := UInt32 ⊕ (List Line × UInt32 × List UInt32)

/-- One record. SOURCE: spillfill_g4.cpp:92-190 -/
def readRecord (blocksTotal : UInt32) : List UInt32 → Option Read
  | [] => none
  | w0 :: cur =>
    if w0 < 0x80000000 then
      match cur with
      | [] => none
      | blobOff :: cur =>
        let pool := w0 >>> 16
        let nblocks := w0 &&& 0xffff
        (readEntries isFill verbose pool nblocks.toNat blobOff blocksTotal cur).map fun r =>
          .inr (.record nblocks isFill pool blobOff :: r.1, r.2)
    else if w0 >>> 24 = 0x81 then
      match cur with
      | [] => none
      | val :: cur =>
        let mb := w0 &&& 0xffffff
        let tuple := if verbose then [Line.setTuple mb val] else []
        some (.inr (tuple ++ [.setProgress mb val], blocksTotal, cur))
    else if w0 >>> 24 = 0x80 then
      let waits :=
        if w0 &&& 0x10000 ≠ 0 then readPairs verbose ((w0 &&& 0xffff) >>> 1).toNat cur
        else readWords verbose (w0 &&& 0xffff).toNat cur
      waits.map fun r => .inr (r.1, blocksTotal, r.2)
    else some (.inl w0)

/-- The loop over the records. SOURCE: spillfill_g4.cpp:91-191 -/
def readRecords : ℕ → UInt32 → List UInt32 →
    Option (List Line × Option UInt32 × UInt32 × List UInt32)
  | 0, blocksTotal, cur => some ([], none, blocksTotal, cur)
  | k + 1, blocksTotal, cur =>
    match readRecord isFill verbose blocksTotal cur with
    | none => none
    | some (.inl w0) => some ([], some w0, blocksTotal, cur)
    | some (.inr r) =>
      (readRecords k r.2.1 r.2.2).map fun r' => (r.1 ++ r'.1, r'.2)

/-- SOURCE: spillfill_g4.cpp:49-214 -/
def g4DumpSfcd (sfcd : List UInt32) : Option (List Line × G4SfcdWalk) :=
  match sfcd with
  | totalBytes :: ckptIdx :: count :: cur =>
    let recCount := count &&& 0xffffff
    let walk : G4SfcdWalk := ⟨totalBytes, ckptIdx, recCount, false, 0, false, 0, 0, []⟩
    let out := Line.head isFill totalBytes ::
      (if ckptIdx ≠ 0 then [Line.checkpoint ckptIdx] else [])
    if recCount = 0 then some (out ++ [.zeroRecords], { walk with zeroRecords := true })
    else
      (readRecords isFill verbose recCount.toNat 0 cur).map fun r =>
        let cursorBytes := 4 * (sfcd.length - r.2.2.2.length)
        match r.2.1 with
        | some w0 =>
          (out ++ r.1 ++ [.badHeader (g4Err2095 w0), .badHeader (g4Err2095File w0)],
            { walk with errors := [g4Err2095 w0], cursorBytes := cursorBytes })
        | none =>
          let blocksTotal := r.2.2.1
          let walk := { walk with cursorBytes := cursorBytes, blocksTotal := blocksTotal }
          if cursorBytes ≠ totalBytes.toNat + 4 then
            let words := (UInt64.ofNat cursorBytes - UInt64.ofNat (totalBytes.toNat + 4)) >>> 2
            (out ++ r.1 ++ [.total blocksTotal, .badLength words],
              { walk with badLength := true, badLengthWords := words })
          else (out ++ r.1 ++ [.total blocksTotal], walk)
  | _ => none

end Dump

end Gehtp.Model.SpillFillG4
