import Mathlib.Data.List.Sort
import Gehtp.Lib.Spans
import Gehtp.Lib.Store

/-!
# The lifetime allocator

`FancyAllocator::allocate_with_lifetime` (`compiler/src/vtcm/fancy_allocator.cpp`)
places tensors with known lifetimes in one pool. Requests are sorted by the start
of their lifetime, requests with equal lifetimes form a group, and each group
takes one block: the front of the first free range that is long enough, or the
next bytes above the high-water mark, or nothing at all (the group is spilled)
when that would pass the budget. Blocks whose lifetime ended before the group's
begins go back to the free list first.

Sizes and offsets are 64-bit numbers in the source; the sums that can wrap are
taken modulo `2 ^ 64` here, and the signed copy of an offset that the source
compares with 0 is kept as the test `off < 2 ^ 63`.
-/

set_option autoImplicit false

namespace Gehtp.Model.FancyAllocator

open Lib

/-- A tensor to place. SOURCE: fancy_allocator.hpp, AllocRequest -/
structure AllocRequest where
  opId : ℕ
  size : ℕ
  lifeBegin : ℕ
  lifeEnd : ℕ
  size_lt : size < 2 ^ 64
  deriving DecidableEq

/-- Where a tensor went. SOURCE: fancy_allocator.hpp, AllocResult -/
structure AllocResult where
  offset : ℕ
  spilled : Bool
  deriving DecidableEq, Repr

/-- Requests with one lifetime. SOURCE: fancy_allocator.cpp:117-122 -/
structure Group where
  lifeBegin : ℕ
  lifeEnd : ℕ
  members : List AllocRequest
  totalSize : ℕ

/-- A block in use. SOURCE: fancy_allocator.cpp:145 -/
structure Live where
  off : ℕ
  size : ℕ
  lifeEnd : ℕ
  deriving DecidableEq, Repr

def Live.span (a : Live) : Span := ⟨a.off, (a.off + a.size) % 2 ^ 64⟩

/-- The order of the requests: by start, longest first, then by id.
SOURCE: fancy_allocator.cpp:97-105 -/
def before (a b : AllocRequest) : Bool :=
  if a.lifeBegin ≠ b.lifeBegin then decide (a.lifeBegin < b.lifeBegin)
  else if a.lifeEnd ≠ b.lifeEnd then decide (b.lifeEnd < a.lifeEnd)
  else decide (a.opId ≤ b.opId)

def sortRequests (reqs : List AllocRequest) : List AllocRequest :=
  reqs.insertionSort fun a b => before a b = true

/-- Round up to the alignment, in 64-bit arithmetic.
SOURCE: fancy_allocator.cpp:110-113 -/
def alignUp (alignment v : ℕ) : ℕ :=
  let m := v % alignment
  if m = 0 then v else (v + (alignment - m)) % 2 ^ 64

/-- Add a request to the groups, the newest group first: to the newest one if it
has the same lifetime, to a new one otherwise. SOURCE: fancy_allocator.cpp:124-140 -/
def groupStep (groups : List Group) (req : AllocRequest) : List Group :=
  if req.size = 0 then groups
  else
    match groups with
    | g :: gs =>
      if g.lifeBegin = req.lifeBegin ∧ g.lifeEnd = req.lifeEnd then
        ⟨g.lifeBegin, g.lifeEnd, g.members ++ [req], (g.totalSize + req.size) % 2 ^ 64⟩ :: gs
      else ⟨req.lifeBegin, req.lifeEnd, [req], req.size⟩ :: g :: gs
    | [] => [⟨req.lifeBegin, req.lifeEnd, [req], req.size⟩]

/-- The groups in the order of their requests. SOURCE: fancy_allocator.cpp:115-140 -/
def groupsOf (sorted : List AllocRequest) : List Group := (sorted.foldl groupStep []).reverse

/-- The memory of the pool: free ranges, blocks in use, high-water mark.
SOURCE: fancy_allocator.cpp:142-148 -/
structure Arena where
  freeList : List Span
  active : List Live
  highWater : ℕ

/-- Give back the blocks that are dead when a group starts.
SOURCE: fancy_allocator.cpp:154-162 -/
def recycle (ar : Arena) (lifeBegin : ℕ) : Arena where
  freeList := ar.freeList ++
    (ar.active.filter fun a => decide (a.lifeEnd < lifeBegin)).map Live.span
  active := ar.active.filter fun a => !decide (a.lifeEnd < lifeBegin)
  highWater := ar.highWater

/-- Take `need` bytes from the first free range that is long enough, in 64-bit
arithmetic. SOURCE: fancy_allocator.cpp:164-174 -/
def takeFit (need : ℕ) : List Span → Option (ℕ × List Span)
  | [] => none
  | s :: l =>
    if need ≤ (s.hi + 2 ^ 64 - s.lo) % 2 ^ 64 then
      some (s.lo, if s.hi ≤ (s.lo + need) % 2 ^ 64 then l
        else ⟨(s.lo + need) % 2 ^ 64, s.hi⟩ :: l)
    else (takeFit need l).map fun p => (p.1, s :: p.2)

/-- Record a block of `need` bytes at `off`. -/
def Arena.take (ar : Arena) (off need lifeEnd : ℕ) : Arena :=
  { ar with active := ar.active ++ [⟨off, need, lifeEnd⟩] }

/-- Place a block above the high-water mark unless it passes the budget.
SOURCE: fancy_allocator.cpp:176-190 -/
def bump (budget need lifeEnd : ℕ) (ar : Arena) : Option ℕ × Arena :=
  if budget < (ar.highWater + need) % 2 ^ 64 then (none, ar)
  else (some ar.highWater,
    { ar with highWater := (ar.highWater + need) % 2 ^ 64 }.take ar.highWater need lifeEnd)

/-- Place the block of a group: first fit, else bump. A fitting range whose start
is negative as a signed number is used up but not used.
SOURCE: fancy_allocator.cpp:151-205 -/
def placeGroup (budget alignment : ℕ) (ar : Arena) (g : Group) : Option ℕ × Arena :=
  let need := alignUp alignment g.totalSize
  let ar := recycle ar g.lifeBegin
  match takeFit need ar.freeList with
  | some (off, fl) =>
    if off < 2 ^ 63 then (some off, { ar with freeList := fl }.take off need g.lifeEnd)
    else bump budget need g.lifeEnd { ar with freeList := fl }
  | none => bump budget need g.lifeEnd ar

/-- The members of a group one after the other from `cur` on, each rounded up.
SOURCE: fancy_allocator.cpp:192-201 -/
def memberResults (alignment : ℕ) : ℕ → List AllocRequest → List (ℕ × AllocResult)
  | _, [] => []
  | cur, req :: rest =>
    (req.opId, ⟨cur, false⟩) ::
      memberResults alignment ((cur + alignUp alignment req.size) % 2 ^ 64) rest

/-- What a group writes into the result map. -/
def groupResults (alignment : ℕ) (g : Group) : Option ℕ → List (ℕ × AllocResult)
  | none => g.members.map fun req => (req.opId, ⟨0, true⟩)
  | some off => memberResults alignment off g.members

/-- The state of the placement loop. -/
structure AllocState where
  arena : Arena
  allocs : ℕ → Option AllocResult

/-- One round of the placement loop. SOURCE: fancy_allocator.cpp:151-205 -/
def allocStep (budget alignment : ℕ) (st : AllocState) (g : Group) : AllocState :=
  let p := placeGroup budget alignment st.arena g
  ⟨p.2, store st.allocs (groupResults alignment g p.1)⟩

/-- The results of the requests of size 0. SOURCE: fancy_allocator.cpp:207-216 -/
def zeroResults (sorted : List AllocRequest) : List (ℕ × AllocResult) :=
  (sorted.filter fun req => decide (req.size = 0)).map fun req => (req.opId, ⟨0, false⟩)

/-- The result map before validation. -/
def allocMap (reqs : List AllocRequest) (budget alignment : ℕ) : ℕ → Option AllocResult :=
  let sorted := sortRequests reqs
  let st := (groupsOf sorted).foldl (allocStep budget alignment) ⟨⟨[], [], 0⟩, fun _ => none⟩
  store st.allocs (zeroResults sorted)

/-- A placed tensor as the validation sees it. SOURCE: fancy_allocator.cpp:231-243 -/
structure Placed where
  off : ℕ
  size : ℕ
  lb : ℕ
  le : ℕ
  deriving DecidableEq, Repr

/-- The tensors that were placed and are not empty. -/
def placedOf (allocs : ℕ → Option AllocResult) (reqs : List AllocRequest) : List Placed :=
  reqs.filterMap fun req =>
    match allocs req.opId with
    | some res =>
      if res.spilled = true ∨ req.size = 0 then none
      else some ⟨res.offset, req.size, req.lifeBegin, req.lifeEnd⟩
    | none => none

/-- The overlap test of two placed tensors. SOURCE: fancy_allocator.cpp:246-250 -/
def conflict (a b : Placed) : Bool :=
  decide (a.lb < b.le ∧ b.lb < a.le) &&
    decide (a.off < (b.off + b.size) % 2 ^ 64 ∧ b.off < (a.off + a.size) % 2 ^ 64)

/-- No two placed tensors conflict. SOURCE: fancy_allocator.cpp:229-264 -/
def validateNoOverlap : List Placed → Bool
  | [] => true
  | a :: rest => rest.all (fun b => !conflict a b) && validateNoOverlap rest

/-- The allocator; `none` is the abort of a failed validation.
SOURCE: fancy_allocator.cpp:87-225 -/
def allocateWithLifetime (reqs : List AllocRequest) (budget alignment : ℕ) :
    Option (ℕ → Option AllocResult) :=
  let allocs := allocMap reqs budget alignment
  if validateNoOverlap (placedOf allocs (sortRequests reqs)) then some allocs else none

end Gehtp.Model.FancyAllocator
