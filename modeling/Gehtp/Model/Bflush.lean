import Gehtp.Model.Btrack

/-!
# The directed flush

At a boundary, `kernels/src/runtime/bflush.c` takes a snapshot of the write-tracking
bitmap, turns its dirty blocks into byte ranges, and either flushes these ranges or,
when that is estimated to cost more, the whole cache. It then clears the bits of the
snapshot.
-/

set_option autoImplicit false

namespace Gehtp.Model.Bflush

open Model.Btrack

/-- SOURCE: bflush.c:13 -/
def bfMaxRanges : ℕ := 8192

/-- The settings of a flusher. A granule size of 0 is not accepted.
SOURCE: bflush.c:15-24, 26-62 -/
structure Config where
  fAll : ℕ
  tStart : ℕ
  decideGran : ℕ
  costPerBlk : ℕ
  marginPct : ℕ
  gran_pos : 0 < decideGran
  gran_lt : decideGran < 2 ^ 32

/-- The settings after creation. SOURCE: bflush.c:26-43 -/
def bfCreate (fAll tStart : ℕ) : Config := ⟨fAll, tStart, 4096, 20, 10, by decide, by decide⟩

/-- The blocks whose bits a snapshot has, in the order of the scan.
SOURCE: bflush.c:73-77 -/
def setBlocks (snap : Snapshot) : List ℕ :=
  (List.range snap.nWords).flatMap fun w =>
    ((List.range 64).filter fun bi => (snap.words w).getLsbD bi).map fun bi => w * 64 + bi

/-- The state of the scan: the ranges so far as (address, length), the newest one
first, and the granule last added. SOURCE: bflush.c:70-72 -/
structure Scan where
  ranges : List (ℕ × ℕ)
  runStart : ℕ
  inRun : Bool
  deriving DecidableEq, Repr

/-- What the scan does with the granule at `g`; `none` when there is no room for
another range. SOURCE: bflush.c:79-91 -/
def scanStep (gran cap : ℕ) (st : Scan) (g : ℕ) : Option Scan :=
  if st.inRun = true ∧ g = st.runStart then some st
  else
    match st.ranges with
    | (a, l) :: rest =>
      if st.inRun = true ∧ g = (st.runStart + l) % 2 ^ 64 then
        some ⟨(a, (l + gran) % 2 ^ 64) :: rest, g, st.inRun⟩
      else if cap ≤ st.ranges.length then none
      else some ⟨(g, gran) :: st.ranges, g, true⟩
    | [] => if cap ≤ st.ranges.length then none else some ⟨[(g, gran)], g, true⟩

/-- The scan over the blocks, up to the first one that is not a block of the memory.
SOURCE: bflush.c:73-95 -/
def scanBlocks (geo : Geometry) (gran blkBytes cap : ℕ) : Scan → List ℕ → Option Scan
  | st, [] => some st
  | st, blk :: rest =>
    if geo.nBlocks ≤ blk then some st
    else
      match scanStep gran cap st ((blk * blkBytes % 2 ^ 64) / gran * gran) with
      | none => none
      | some st => scanBlocks geo gran blkBytes cap st rest

/-- The byte ranges of a snapshot; `none` is the over-capacity report.
SOURCE: bflush.c:66-95 -/
def buildRanges (geo : Geometry) (snap : Snapshot) (gran blkBytes cap : ℕ) :
    Option (List (ℕ × ℕ)) :=
  (scanBlocks geo gran blkBytes cap ⟨[], 0, false⟩ (setBlocks snap)).map fun st =>
    st.ranges.reverse

/-- A call of one of the two flush callbacks. -/
inductive FlushCall where
  | full
  | range (addr len : ℕ)
  deriving DecidableEq, Repr

/-- The bytes that a flush call reaches. -/
def reaches : FlushCall → ℕ → Prop
  | .full, _ => True
  | .range addr len, x => addr ≤ x ∧ x < addr + len

instance (c : FlushCall) (x : ℕ) : Decidable (reaches c x) :=
  match c with
  | .full => inferInstanceAs (Decidable True)
  | .range addr len => inferInstanceAs (Decidable (addr ≤ x ∧ x < addr + len))

/-- Why the whole cache was flushed. SOURCE: bflush.h, BF_REASON_* -/
inductive Reason where
  | ok
  | suspect
  | snapFail
  | dirtyLarge
  deriving DecidableEq, Repr

/-- SOURCE: bflush.h, bflush_report -/
structure Report where
  nRanges : ℕ
  usedFull : Bool
  estCost : ℕ
  actCost : ℕ
  dirtyBytes : ℕ
  reason : Reason
  deriving DecidableEq, Repr

/-- What a boundary did: the flush calls, the report, and the bitmap it leaves. -/
structure Boundary where
  calls : List FlushCall
  report : Report
  bits : Words

/-- What the boundary finds: the suspect flag, and whether its allocations succeed. -/
structure Found where
  suspect : Bool
  snapOk : Bool
  arraysOk : Bool

/-- The estimated cost of flushing the ranges. SOURCE: bflush.c:137-141 -/
def estimate (cfg : Config) (blkBytes : ℕ) (ranges : List (ℕ × ℕ)) : ℕ :=
  ranges.foldl (fun est r => (est + cfg.tStart + r.2 / blkBytes * cfg.costPerBlk) % 2 ^ 64) 0

/-- The ranges are worth flushing one by one. SOURCE: bflush.c:145 -/
def directed (cfg : Config) (est : ℕ) : Bool :=
  est = 0 || decide (est * (100 + cfg.marginPct) % 2 ^ 64 / 100 < cfg.fAll)

/-- A flush of the whole cache. SOURCE: bflush.c:103-109, 116-123, 130-135, 152-157 -/
def flushFull (cfg : Config) (reason : Reason) (report : Report) : List FlushCall × Report :=
  ([.full], { report with usedFull := true, reason := reason, actCost := cfg.fAll })

/-- What is flushed for a snapshot, and the report of it. SOURCE: bflush.c:124-158 -/
def flushFor (geo : Geometry) (cfg : Config) (arraysOk : Bool) (snap : Snapshot) :
    List FlushCall × Report :=
  let blkBytes := if geo.blkBytes = 0 then 64 else geo.blkBytes
  let ranges := if arraysOk then buildRanges geo snap cfg.decideGran blkBytes bfMaxRanges else none
  match ranges with
  | none => flushFull cfg .dirtyLarge ⟨0, false, 0, 0, 0, .ok⟩
  | some ranges =>
    let est := estimate cfg blkBytes ranges
    let dirty := ranges.foldl (fun d r => (d + r.2) % 2 ^ 64) 0
    let report : Report := ⟨ranges.length, false, est, est, dirty, .ok⟩
    if directed cfg est then (ranges.map fun r => .range r.1 r.2, report)
    else flushFull cfg .dirtyLarge report

/-- A boundary with nobody else running. SOURCE: bflush.c:97-167 -/
def bfBoundary (geo : Geometry) (cfg : Config) (found : Found) (bits : Words) : Boundary :=
  let start : Report := ⟨0, false, 0, 0, 0, .ok⟩
  if found.suspect then
    let p := flushFull cfg .suspect start
    ⟨p.1, p.2, bits⟩
  else if found.snapOk = false then
    let p := flushFull cfg .snapFail start
    ⟨p.1, p.2, bits⟩
  else
    let snap := snapshotOf geo bits
    let p := flushFor geo cfg found.arraysOk snap
    ⟨p.1, p.2, btClearAllFlushed geo bits snap⟩

end Gehtp.Model.Bflush
