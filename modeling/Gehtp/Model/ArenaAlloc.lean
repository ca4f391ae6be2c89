import Mathlib.Data.UInt
import Gehtp.Lib.Checked

/-!
# The arena

`kernels/src/runtime/arena.c` is an allocator with boundary tags over one or two buffers of
the caller. A region starts with a tag of four 32-bit words (size, free flag, request, offset
of the data) and ends with a footer of two (size, free flag). All of this stands in the memory
of the caller, next to the data; the model keeps the memory as words by address and the list of
the addresses that the arena stored to, each with the pool that it was working on.

The base of a buffer is a multiple of 16 (`arena.h`), and so are all sizes, so no two words
overlap in part.
-/

set_option autoImplicit false

namespace Gehtp.Model.ArenaAlloc

open Lib

/-- SOURCE: arena.h, arena_loc -/
inductive Loc where
  | ddr
  | vtcm
  deriving DecidableEq, Repr

/-- The memory in 32-bit words, the pool that is worked on, and the stores, latest first. -/
structure Heap where
  mem : ℕ → UInt32
  cur : Loc
  stores : List (Loc × ℕ)

namespace Heap

def on (h : Heap) (loc : Loc) : Heap := { h with cur := loc }

def store (h : Heap) (a : ℕ) (v : UInt32) : Heap :=
  { h with mem := Function.update h.mem a v, stores := (h.cur, a) :: h.stores }

/-- Fill the tag of the region at `rs`. -/
def setTag (h : Heap) (rs : ℕ) (size free req dataOff : UInt32) : Heap :=
  (((h.store rs size).store (rs + 4) free).store (rs + 8) req).store (rs + 12) dataOff

/-- The address of the footer of the region at `rs`. SOURCE: arena.c:12, FTR -/
def ftr (h : Heap) (rs : ℕ) : ℕ := rs + (h.mem rs).toNat - 8

/-- Copy the size and the flag of a tag to the footer. SOURCE: arena.c:13-16 -/
def mkFtr (h : Heap) (rs : ℕ) : Heap :=
  (h.store (h.ftr rs) (h.mem rs)).store (h.ftr rs + 4) (h.mem (rs + 4))

end Heap

/-- A buffer that the arena manages, with the bytes that are given out. -/
structure Pool where
  base : ℕ
  cap : UInt32
  used : UInt32

/-- The arena with its memory; a buffer that is NULL is `none`. A pointer has `ptrBits` bits.
SOURCE: arena.h, struct arena -/
structure Arena where
  ptrBits : ℕ
  pool : Loc → Option Pool
  heap : Heap

/-- SOURCE: arena.c:9 -/
def r16 (x : UInt32) : UInt32 := (x + 15) &&& ~~~15

/-- SOURCE: arena.h, ARENA_ALIGN_HVX -/
def arenaAlignHvx : UInt32 := 128

namespace Pool

def fin (p : Pool) : ℕ := p.base + p.cap.toNat

end Pool

/-- One region over the whole buffer. SOURCE: arena.c:26-28, 100-102 -/
def oneRegion (h : Heap) (base : ℕ) (cap : UInt32) : Heap :=
  (h.setTag base cap 1 0 0).mkFtr base

/-- The pool of a buffer of at least 64 bytes. SOURCE: arena.c:22-23 -/
def poolOf : Option (ℕ × UInt32) → Option Pool
  | some (base, bytes) => if 64 ≤ bytes then some ⟨base, r16 bytes, 0⟩ else none
  | none => none

/-- SOURCE: arena.c:24-29 -/
def initPool (h : Heap) : Option Pool → Heap
  | some p => oneRegion h p.base p.cap
  | none => h

/-- SOURCE: arena.c:18-31 -/
def arenaInit (ptrBits : ℕ) (mem : ℕ → UInt32) (bufs : Loc → Option (ℕ × UInt32)) : Arena where
  ptrBits := ptrBits
  pool := fun loc => poolOf (bufs loc)
  heap := initPool ((initPool ⟨mem, .ddr, []⟩ (poolOf (bufs .ddr))).on .vtcm) (poolOf (bufs .vtcm))

/-! ### Allocation -/

/-- The alignment that a request means, if it is one. The test of the source is that of a power
of two. SOURCE: arena.c:35-36 -/
def effectiveAlign (align : UInt32) : Option UInt32 :=
  let align := if align = 0 then arenaAlignHvx else align
  if align < 16 ∨ 4096 < align ∨ align &&& (align - 1) ≠ 0 then none else some align

/-- The request in whole units. SOURCE: arena.c:37 -/
def reqOf (bytes : UInt32) : UInt32 := r16 (if bytes ≠ 0 then bytes else 1)

/-- Where the data of a region at `rs` starts, relative to it: behind the tag, at an address
that is aligned. The alignment is a power of two, so the mask of the source is this product; the
addresses wrap at the width of a pointer. SOURCE: arena.c:43 -/
def dataOff (ptrBits rs : ℕ) (align : UInt32) : UInt32 :=
  UInt32.ofNat (((rs + 16 + align.toNat - 1) % 2 ^ ptrBits / align.toNat * align.toNat +
    (2 ^ ptrBits - rs)) % 2 ^ ptrBits)

/-- The bytes that the data needs in a region. SOURCE: arena.c:44 -/
def needOf (ptrBits rs : ℕ) (req align : UInt32) : UInt32 := dataOff ptrBits rs align + req + 8

/-- Give the region at `rs` to a request. A tail of 32 bytes or more becomes a free region.
SOURCE: arena.c:48-58 -/
def carve (h : Heap) (rs : ℕ) (req off newSz : UInt32) : Heap :=
  let tail := h.mem rs - newSz
  if 32 ≤ tail then
    let trs := rs + newSz.toNat
    (((h.setTag trs tail 1 0 0).mkFtr trs).setTag rs newSz 0 req off).mkFtr rs
  else (h.setTag rs (h.mem rs) 0 req off).mkFtr rs

/-- The walk over the regions from `rs` on; the first free one that is large enough is taken. A
round goes on by at least one byte or stays where it is for ever, so that the rounds that are
counted are enough for a walk that ends. SOURCE: arena.c:40-62 -/
def allocLoop (ptrBits : ℕ) (req align : UInt32) (fin : ℕ) :
    ℕ → ℕ → Heap → Checked Unit (Option ℕ × Heap)
  | 0, rs, h => if rs < fin then .error .hang else .ok (none, h)
  | n + 1, rs, h =>
    if rs < fin then
      let next := rs + (h.mem rs).toNat
      if h.mem (rs + 4) = 0 then allocLoop ptrBits req align fin n next h
      else
        let need := needOf ptrBits rs req align
        if h.mem rs < need then allocLoop ptrBits req align fin n next h
        else if h.mem rs < r16 need then allocLoop ptrBits req align fin n next h
        else
          let off := dataOff ptrBits rs align
          .ok (some (rs + off.toNat), carve h rs req off (r16 need))
    else .ok (none, h)

/-- SOURCE: arena.c:33-63; the answer is a pointer, or `none` for NULL. -/
def arenaAlloc (a : Arena) (bytes align : UInt32) (loc : Loc) :
    Checked Unit (Option ℕ × Arena) :=
  match a.pool loc, effectiveAlign align with
  | some p, some align => do
    let req := reqOf bytes
    let (ptr, heap) ← allocLoop a.ptrBits req align p.fin (p.cap.toNat + 1) p.base (a.heap.on loc)
    match ptr with
    | none => pure (none, a)
    | some q =>
      pure (some q, { a with
        pool := Function.update a.pool loc (some { p with used := p.used + req })
        heap := heap })
  | _, _ => pure (none, a)

/-! ### Release -/

/-- Mark a region as free and join it with the next one. SOURCE: arena.c:76-81 -/
def joinNext (h : Heap) (fin rs : ℕ) : Heap :=
  let h := (h.store (rs + 4) 1).store (rs + 8) 0
  let next := rs + (h.mem rs).toNat
  if next < fin ∧ h.mem (next + 4) ≠ 0 then h.store rs (h.mem rs + h.mem next) else h

/-- Join a free region with the one before it, which is found by its footer.
SOURCE: arena.c:84-91 -/
def joinPrev (h : Heap) (base rs : ℕ) : Heap :=
  if base < rs ∧ h.mem (rs - 8 + 4) ≠ 0 then
    let prev := rs - (h.mem (rs - 8)).toNat
    (h.store prev (h.mem prev + h.mem rs)).mkFtr prev
  else h

/-- SOURCE: arena.c:76-91 -/
def freeRegion (h : Heap) (base fin rs : ℕ) : Heap :=
  joinPrev ((joinNext h fin rs).mkFtr rs) base rs

/-- The walk to the region whose data is at `ptr`. SOURCE: arena.c:72-74 -/
def findLoop (h : Heap) (fin ptr : ℕ) : ℕ → ℕ → Checked Unit (Option ℕ)
  | 0, rs => if rs < fin then .error .hang else .ok none
  | n + 1, rs =>
    if rs < fin then
      if h.mem (rs + 4) = 0 ∧ rs + (h.mem (rs + 12)).toNat = ptr then .ok (some rs)
      else findLoop h fin ptr n (rs + (h.mem rs).toNat)
    else .ok none

/-- Release in one pool; `none` if the pointer is not one of the pool.
SOURCE: arena.c:67-95 -/
def freeIn (a : Arena) (ptr : ℕ) (loc : Loc) : Checked Unit (Option Arena) :=
  match a.pool loc with
  | none => pure none
  | some p =>
    if ptr < p.base + 16 ∨ p.fin ≤ ptr then pure none
    else do
      let found ← findLoop a.heap p.fin ptr (p.cap.toNat + 1) p.base
      match found with
      | none => pure none
      | some rs =>
        let req := a.heap.mem (rs + 8)
        pure (some { a with
          pool := Function.update a.pool loc (some { p with
            used := p.used - if req ≤ p.used then req else p.used })
          heap := freeRegion (a.heap.on loc) p.base p.fin rs })

/-- SOURCE: arena.c:65-96 -/
def arenaFree (a : Arena) (ptr : ℕ) : Checked Unit Arena := do
  let first ← freeIn a ptr .ddr
  match first with
  | some a => pure a
  | none => do
    let second ← freeIn a ptr .vtcm
    pure (second.getD a)

/-- SOURCE: arena.c:98-104 -/
def arenaReset (a : Arena) (loc : Loc) : Arena :=
  match a.pool loc with
  | none => a
  | some p =>
    { a with
      pool := Function.update a.pool loc (some { p with used := 0 })
      heap := oneRegion (a.heap.on loc) p.base p.cap }

/-- SOURCE: arena.c:106-108 -/
def arenaUsed (a : Arena) (loc : Loc) : UInt32 := ((a.pool loc).map (·.used)).getD 0

/-- The walk over the regions for the largest free one. SOURCE: arena.c:115-116 -/
def largestLoop (m : ℕ → UInt32) (fin : ℕ) : ℕ → ℕ → UInt32 → Checked Unit UInt32
  | 0, rs, best => if rs < fin then .error .hang else .ok best
  | n + 1, rs, best =>
    if rs < fin then
      largestLoop m fin n (rs + (m rs).toNat)
        (if m (rs + 4) ≠ 0 ∧ best < m rs then m rs else best)
    else .ok best

/-- SOURCE: arena.c:110-118 -/
def arenaLargestFree (a : Arena) (loc : Loc) : Checked Unit UInt32 :=
  match a.pool loc with
  | none => pure 0
  | some p => largestLoop a.heap.mem p.fin (p.cap.toNat + 1) p.base 0

/-! ### Runs -/

/-- A block that was given to the caller, and what the caller asked for. -/
structure Grant where
  loc : Loc
  ptr : ℕ
  bytes : UInt32
  align : UInt32
  deriving DecidableEq

/-- What the caller does. -/
inductive Op where
  | alloc (bytes align : UInt32) (loc : Loc)
  | free (ptr : ℕ)
  | reset (loc : Loc)

/-- The arena, and the blocks that the caller has. -/
structure State where
  arena : Arena
  live : List Grant

/-- The block that an answer gives. -/
def grantOf (bytes align : UInt32) (loc : Loc) (ptr : Option ℕ) : List Grant :=
  (ptr.map fun p => ⟨loc, p, bytes, align⟩).toList

def step (s : State) : Op → Checked Unit State
  | .alloc bytes align loc => do
    let (ptr, a) ← arenaAlloc s.arena bytes align loc
    pure ⟨a, grantOf bytes align loc ptr ++ s.live⟩
  | .free ptr => do
    let a ← arenaFree s.arena ptr
    pure ⟨a, s.live.filter fun g => decide (g.ptr ≠ ptr)⟩
  | .reset loc => pure ⟨arenaReset s.arena loc, s.live.filter fun g => decide (g.loc ≠ loc)⟩

def run (s : State) (ops : List Op) : Checked Unit State := ops.foldlM step s

def start (ptrBits : ℕ) (mem : ℕ → UInt32) (bufs : Loc → Option (ℕ × UInt32)) : State :=
  ⟨arenaInit ptrBits mem bufs, []⟩

end Gehtp.Model.ArenaAlloc
