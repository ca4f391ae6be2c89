import Gehtp.Model.OplistExec
import Gehtp.Model.TempEmit

/-!
# Temps on the device

The emitter writes its table of temp places to the blob; `wt_exec_load_tempoff`
(`kernels/src/runtime/oplist_exec.c`) reads it back before the first op, lays out the pool
and fills the two arrays of offsets that `temp_get` looks into. A device op then gets the
address of its destination from `temp_get`.
-/

set_option autoImplicit false

namespace Gehtp.Model.TempRun

open Lib.Machine Model.DdrOffsets Model.OplistExec Model.TempEmit

/-- The table in 32-bit words: the size of the static area, the two reserves in units of
1024 bytes, and an id, an offset and a size for each temp.
SOURCE: wtop_emit.cpp:570-574 -/
structure Tempoff where
  cap : UInt32
  reserve : UInt32
  entries : List (UInt32 × UInt32 × UInt32)

/-- The bytes kept for temps without a place. SOURCE: graph_prepare.cpp:660 -/
def bumpReserve (plan : DdrPlan) : ℕ := max (4 * 2 ^ 20) (plan.cap / 4)

/-- The two reserves in one word. SOURCE: wtop_emit.cpp:576-579 -/
def reserveWord (plan : DdrPlan) : UInt32 :=
  (UInt32.ofNat ((plan.vtcmCap + 1023) / 1024) <<< 16) |||
    (UInt32.ofNat ((bumpReserve plan + 1023) / 1024) &&& 0xFFFF)

/-- The words of one temp. A temp in VTCM has a flag on its id.
SOURCE: wtop_emit.cpp:587-594 -/
def tempoffEntry (t : ℕ) (p : TempPlace) : UInt32 × UInt32 × UInt32 :=
  (if p.inVtcm then UInt32.ofNat t ||| 0x4000 else UInt32.ofNat t,
    UInt32.ofNat p.offset, UInt32.ofNat p.size)

/-- The table of the emitter, in the order of the ids. SOURCE: wtop_emit.cpp:575-597 -/
def tempoffTable (cfg : EmitConfig) (em : Emitter) : Tempoff where
  cap := UInt32.ofNat cfg.plan.cap
  reserve := reserveWord cfg.plan
  entries := (List.range em.desk.next).filterMap fun t => (em.tempTab t).map (tempoffEntry t)

/-- One entry of the table. SOURCE: oplist_exec.c:2031-2057 -/
def loadEntry (cap vtcmCap : UInt32) (e : UInt32 × UInt32 × UInt32) : Exec Unit :=
  let tid := (e.1 &&& 0x3FFF).toNat
  if maxTemps ≤ tid then reject "tempoff tid bad"
  else if e.1 &&& 0x4000 ≠ 0 then
    if vtcmCap = 0 ∨ vtcmCap < e.2.1 + e.2.2 then reject "tempoff vtcm entry bad"
    else update fun s => { s with vtcmOffArr := Function.update s.vtcmOffArr tid e.2.1 }
  else if cap < e.2.1 + e.2.2 then reject "tempoff entry bad"
  else update fun s => { s with staticOffArr := Function.update s.staticOffArr tid e.2.1 }

def loadEntries (cap vtcmCap : UInt32) : List (UInt32 × UInt32 × UInt32) → Exec Unit
  | [] => pure ()
  | e :: es => do
    loadEntry cap vtcmCap e
    loadEntries cap vtcmCap es

/-- All temps are without an offset. SOURCE: oplist_exec.c:2014-2017 -/
def clearOffsets (s : ExecState) : ExecState :=
  { s with staticOffArr := fun _ => noOffset, vtcmOffArr := fun _ => noOffset }

/-- The pool with its static area. SOURCE: oplist_exec.c:360-368, 2059-2062 -/
def poolInit (base : ℕ) (totalCap staticCap vtcmCap : UInt32) (s : ExecState) : ExecState :=
  { s with
    pool := some base
    poolCap := totalCap
    poolUsed := if staticCap ≠ 0 then staticCap else totalCap
    staticOffsets := true
    vtcmPoolSize := vtcmCap
    vtcmPool := none }

/-- Read the table, once. SOURCE: oplist_exec.c:2012-2066, wt_exec_load_tempoff -/
def loadTempoff (env : Env) (tab : Tempoff) : Exec Unit := do
  let loaded ← read (·.staticOffsets)
  if loaded then pure ()
  else do
    update clearOffsets
    if tab.cap = 0 ∨ 0x80000000 < tab.cap then reject "tempoff cap bad"
    else do
      let vtcmCap := (tab.reserve >>> 16) * 1024
      let reserve := (tab.reserve &&& 0xFFFF) * 1024
      let pool ← ask (env.memalign · (tab.cap + reserve))
      match pool with
      | none => reject "tempoff pool alloc"
      | some base => do
        loadEntries tab.cap vtcmCap tab.entries
        update (poolInit base (tab.cap + reserve) tab.cap vtcmCap)

/-- The part of a device op that places temps: its destination. -/
def runOp (env : Env) (op : DeviceOp) : Exec Unit :=
  match op.dst with
  | none => pure ()
  | some (t, bytes) => do
    let p ← tempGet env (UInt32.ofNat t.1) (UInt32.ofNat bytes)
    match p with
    | none => reject "dst empty"
    | some _ => pure ()

def runOps (env : Env) : List DeviceOp → Exec Unit
  | [] => pure ()
  | op :: ops => do
    runOp env op
    runOps env ops

end Gehtp.Model.TempRun
