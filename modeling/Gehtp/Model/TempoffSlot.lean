import Gehtp.Lib.Wire
import Gehtp.Model.TempRun

/-!
# The slot with the temp offsets

The emitter ends with a slot of bytes: the size of the static area, a word with two reserves in
KiB, the number of temps, and three words for each temp (`compiler/tools/wtop_emit.cpp`).
`wt_exec_load_tempoff` (`kernels/src/runtime/oplist_exec.c`) looks for the slot in the blob and
reads the words from the weight area, each with the check that stands next to it.
-/

set_option autoImplicit false

namespace Gehtp.Model.TempoffSlot

open Lib Lib.Machine Model.OplistParse Model.OplistExec Model.TempRun

/-! ### The emitter -/

/-- What the emitter knows of the memory: three sizes in bytes, the offset and the size of the
temps in the order of their ids, and the temps in VTCM. SOURCE: wtop_ops.hpp:107-113 -/
structure MemPlan where
  ddrStaticCap : UInt64
  ddrVtcmCap : UInt64
  bumpReserve : UInt64
  ddrTempTab : List (UInt32 × UInt32 × UInt32)
  ddrTempVtcm : UInt32 → Bool
  sorted : ddrTempTab.Pairwise fun e e' => e.1 < e'.1

/-- The bytes that are kept for temps without an offset. SOURCE: wtop_emit.cpp:576-577 -/
def bumpRes (plan : MemPlan) : UInt64 :=
  if plan.bumpReserve ≠ 0 then plan.bumpReserve else max 0x400000 (plan.ddrStaticCap / 4)

/-- Two sizes in KiB in one word. SOURCE: wtop_emit.cpp:578-579 -/
def reserveField (plan : MemPlan) : UInt32 :=
  (((plan.ddrVtcmCap + 1023) / 1024).toUInt32 <<< 16) |||
    (((bumpRes plan + 1023) / 1024).toUInt32 &&& 0xFFFF)

/-- The id of a temp with the flag of VTCM. SOURCE: wtop_emit.cpp:588-590 -/
def taggedTid (plan : MemPlan) (tid : UInt32) : UInt32 :=
  if plan.ddrTempVtcm tid then tid ||| 0x4000 else tid

/-- The three words of a temp. SOURCE: wtop_emit.cpp:587-594 -/
def entryBytes (plan : MemPlan) (e : UInt32 × UInt32 × UInt32) : List UInt8 :=
  u32le (taggedTid plan e.1) ++ (u32le e.2.1 ++ u32le e.2.2)

/-- The bytes of the table. SOURCE: wtop_emit.cpp:580-594 -/
def tempoffTab (plan : MemPlan) : List UInt8 :=
  u32le plan.ddrStaticCap.toUInt32 ++ (u32le (reserveField plan) ++
    (u32le (UInt32.ofNat plan.ddrTempTab.length) ++ plan.ddrTempTab.flatMap (entryBytes plan)))

/-- The length of the slot. SOURCE: wtop_emit.cpp:595 -/
def tempoffLen (plan : MemPlan) : UInt32 := UInt32.ofNat (tempoffTab plan).length

/-- The bytes that go into the slot: `add_slot` takes as many as its length argument says.
SOURCE: wtop_emit.cpp:595-597 -/
def tempoffData (plan : MemPlan) : List UInt8 := (tempoffTab plan).take (tempoffLen plan).toNat

/-! ### The device -/

/-- The word at `p` of the weight area; a read behind its end faults. -/
def word (mem : List UInt8) (p : ℕ) : Exec UInt32 := do
  inTable mem.length (p + 3)
  pure (le32 mem p)

/-- The three words at `p`. SOURCE: oplist_exec.c:2032-2034 -/
def readEntry (mem : List UInt8) (p : ℕ) : Exec (UInt32 × UInt32 × UInt32) := do
  let tid ← word mem p
  let off ← word mem (p + 4)
  let sz ← word mem (p + 8)
  pure (tid, off, sz)

/-- The loop over the entries from number `i` on. SOURCE: oplist_exec.c:2031-2058 -/
def loadTable (cap vtcmCap : UInt32) (mem : List UInt8) (p : ℕ) : ℕ → UInt32 → Exec Unit
  | 0, _ => pure ()
  | k + 1, i => do
    let e ← readEntry mem (p + 12 + (i * 12).toNat)
    loadEntry cap vtcmCap e
    loadTable cap vtcmCap mem p k (i + 1)

/-- Lay out the pool for a table whose header is read. SOURCE: oplist_exec.c:2026-2062 -/
def loadPool (env : Env) (mem : List UInt8) (p : ℕ) (cap reserve n : UInt32) : Exec Unit := do
  let vtcmCap := (reserve >>> 16) * 1024
  let rest := (reserve &&& 0xFFFF) * 1024
  let pool ← ask (env.memalign · (cap + rest))
  match pool with
  | none => reject "tempoff pool alloc"
  | some base => do
    loadTable cap vtcmCap mem p n.toNat 0
    update (poolInit base (cap + rest) cap vtcmCap)

/-- The slot at `p`. SOURCE: oplist_exec.c:2020-2063 -/
def loadSlot (env : Env) (mem : List UInt8) (p : ℕ) (len : UInt32) : Exec Unit := do
  if len < 12 then reject "tempoff slot short"
  else do
    let cap ← word mem p
    let reserve ← word mem (p + 4)
    let n ← word mem (p + 8)
    if len < 12 + n * 12 then reject "tempoff table short"
    else if cap = 0 ∨ 0x80000000 < cap then reject "tempoff cap bad"
    else loadPool env mem p cap reserve n

/-- The first slot with a table is read. SOURCE: oplist_exec.c:2018-2064 -/
def loadFirst (env : Env) (mem : List UInt8) : List WtSlot → Exec Unit
  | [] => pure ()
  | slot :: slots =>
    if slot.addr ≠ wtSlotTempoff then loadFirst env mem slots
    else loadSlot env mem slot.offset.toNat slot.len

/-- Read the table of a blob, unless there is one. SOURCE: oplist_exec.c:2012-2066 -/
def wtExecLoadTempoff (env : Env) (b : WtBlob) : Exec Unit := do
  let loaded ← read (·.staticOffsets)
  if loaded then pure ()
  else do
    update clearOffsets
    loadFirst env b.weight b.slots

end Gehtp.Model.TempoffSlot
