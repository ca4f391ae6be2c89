import Mathlib.Data.List.Sort
import Mathlib.Data.List.Destutter
import Gehtp.Lib.Spans

/-!
# Addresses for a schedule

`place_offsets` (`compiler/src/vtcm/cp_solver.cpp:756-840`) gives the segments of a schedule their
addresses. A tensor has at most two segments, each a closed range of slots; the segments are placed
one after the other at the first of some candidate offsets where they fit, and the tensors that
are spilled get addresses in the DDR one behind the other. The sums are of 64 bits.
-/

set_option autoImplicit false

namespace Gehtp.Model.CpPlace

/-- SOURCE: cp_solver.hpp:113-120, CPSegment -/
structure CPSegment where
  s : ℕ
  e : ℕ
  active : Bool
  fillStart : Bool
  spillEnd : Bool
  vtcmOffset : ℕ
  ddrOffset : ℕ
  deriving DecidableEq

/-- SOURCE: cp_solver.cpp:103, LK -/
inductive LK
  | compute
  | remat
  | fill
  | spill
  | close
  deriving DecidableEq

/-- An entry of the event log. SOURCE: cp_solver.cpp:104-109, Ent -/
structure Ent where
  slot : ℕ
  k : LK
  v : ℕ
  e : ℕ
  deriving DecidableEq

/-- The segments of a solution: the second one of a tensor is under `true`. -/
abbrev Segments := ℕ → Bool → CPSegment

/-- `uint64_t` of a sum. -/
def u64 (x : ℕ) : ℕ := x % 2 ^ 64

/-- SOURCE: cp_solver.cpp:44, kUnplaced -/
def kUnplaced : ℕ := 2 ^ 64 - 1

/-- SOURCE: cp_solver.cpp:48-50, align_up -/
def alignUp (x a : ℕ) : ℕ := u64 (x + a - 1) / a * a

/-- Some tensor is not a multiple. SOURCE: cp_solver.cpp:766-770 -/
def inflates (n : ℕ) (m : ℕ → ℕ) (al : ℕ) : Bool :=
  (List.range n).any fun v => decide (m v % al ≠ 0)

/-- The alignment, halved from 128 while it exceeds `M` or inflates a tensor.
SOURCE: cp_solver.cpp:762-771 -/
def alignment (n : ℕ) (m : ℕ → ℕ) (M : ℕ) : ℕ :=
  ([128, 64, 32, 16, 8, 4, 2].find? fun a => decide (a ≤ M) && !inflates n m a).getD 1

/-- A placed segment. SOURCE: cp_solver.cpp:787-790, Placed -/
structure Placed where
  s : ℕ
  e : ℕ
  off : ℕ
  sz : ℕ
  deriving DecidableEq

/-- What the loop over the segments changes. -/
structure Placing where
  segments : Segments
  done : List Placed
  vtcmArenaUsed : ℕ
  placementDegraded : ℕ

def setSegment (segs : Segments) (v : ℕ) (idx : Bool) (f : CPSegment → CPSegment) : Segments :=
  fun w i => if w = v ∧ i = idx then f (segs w i) else segs w i

/-- The order of the segments: by start, the larger ones first, then by tensor.
SOURCE: cp_solver.cpp:779-785 -/
def before (m : ℕ → ℕ) (segs : Segments) (a b : ℕ × Bool) : Bool :=
  let A := segs a.1 a.2
  let B := segs b.1 b.2
  if A.s ≠ B.s then decide (A.s < B.s)
  else if m a.1 ≠ m b.1 then decide (m b.1 < m a.1)
  else decide (a.1 ≤ b.1)

/-- The active segments in the order of their placement. SOURCE: cp_solver.cpp:772-785 -/
def placeOrder (n : ℕ) (m : ℕ → ℕ) (segs : Segments) : List (ℕ × Bool) :=
  (((List.range n).flatMap fun v => [(v, false), (v, true)]).filter fun a =>
    (segs a.1 a.2).active).insertionSort fun a b => before m segs a b = true

/-- The offsets that are tried: the start of the arena, the first segment's place for a second one,
and both ends of every placed segment. SOURCE: cp_solver.cpp:794-802 -/
def candidates (a : ℕ) (st : Placing) (v : ℕ) (idx : Bool) : List ℕ :=
  let first := (st.segments v false).vtcmOffset
  let cands := 0 :: ((if idx ∧ first ≠ kUnplaced then [first] else []) ++
    st.done.flatMap fun q => [q.off, alignUp (u64 (q.off + q.sz)) a])
  (cands.insertionSort (· ≤ ·)).destutter (· ≠ ·)

/-- The offset fits into the arena and beside the segments placed. SOURCE: cp_solver.cpp:805-817 -/
def fits (M : ℕ) (done : List Placed) (S : CPSegment) (sz off : ℕ) : Bool :=
  decide (u64 (off + sz) ≤ M) && done.all fun q =>
    let timeOv := !(decide (S.e < q.s) || decide (q.e < S.s))
    let spaceOv := !(decide (u64 (off + sz) ≤ q.off) || decide (u64 (q.off + q.sz) ≤ off))
    !(timeOv && spaceOv)

/-- Place one segment at the first candidate that passes the test.
SOURCE: cp_solver.cpp:791-830 -/
def placeSegment (test : List Placed → CPSegment → ℕ → ℕ → Bool) (m : ℕ → ℕ) (a : ℕ)
    (st : Placing) (seg : ℕ × Bool) : Placing :=
  let S := st.segments seg.1 seg.2
  let sz := alignUp (m seg.1) a
  let off := ((candidates a st seg.1 seg.2).find? (test st.done S sz)).getD kUnplaced
  let segments := setSegment st.segments seg.1 seg.2 fun S => { S with vtcmOffset := off }
  if off = kUnplaced then ⟨segments, st.done, st.vtcmArenaUsed, st.placementDegraded + 1⟩
  else ⟨segments, st.done ++ [⟨S.s, S.e, off, sz⟩], max st.vtcmArenaUsed (u64 (off + sz)),
    st.placementDegraded⟩

/-- What the loop over the log changes. -/
structure Arena where
  segments : Segments
  cur : ℕ

/-- A spill takes the next bytes; a fill of the same tensor reads them.
SOURCE: cp_solver.cpp:831-838 -/
def spillTo (m : ℕ → ℕ) (st : Arena) (e : Ent) : Arena :=
  if e.k ≠ LK.spill then st
  else
    let segs := setSegment st.segments e.v false fun S => { S with ddrOffset := st.cur }
    let segs' := if (segs e.v true).active && (segs e.v true).fillStart then
      setSegment segs e.v true fun S => { S with ddrOffset := st.cur } else segs
    ⟨segs', u64 (st.cur + m e.v)⟩

/-- What `place_offsets` leaves. -/
structure Placement where
  segments : Segments
  vtcmArenaUsed : ℕ
  placementDegraded : ℕ
  ddrArenaUsed : ℕ

/-- SOURCE: cp_solver.cpp:761-840, place_offsets -/
def placeOffsets (n : ℕ) (m : ℕ → ℕ) (M : ℕ) (segs : Segments) (lg : List Ent) : Placement :=
  let a := alignment n m M
  let placed := (placeOrder n m segs).foldl (placeSegment (fits M) m a) ⟨segs, [], 0, 0⟩
  let ddr := lg.foldl (spillTo m) ⟨placed.segments, 0⟩
  ⟨ddr.segments, placed.vtcmArenaUsed, placed.placementDegraded, ddr.cur⟩

end Gehtp.Model.CpPlace
