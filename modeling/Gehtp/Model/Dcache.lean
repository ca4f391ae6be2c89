import Mathlib.Data.List.Basic
import Mathlib.Algebra.Order.Ring.Nat

/-!
# The cache of derived formats

`kernels/src/runtime/dcache.c` keeps buffers converted to other formats. An entry is found by the id of
its buffer, the version that the buffer had and the format. `dc_get_or_convert` returns a fresh entry or
converts the buffer and puts the result into a slot, for which it drops entries: stale ones first, then
those used longest ago, until the bytes fit. Between its steps the buffers may be written, so every
version that it reads is an input of the model. Sizes and counters are 64-bit numbers; the statistics
are left out.
-/

set_option autoImplicit false

namespace Gehtp.Model.Dcache

/-- SOURCE: dcache.c, dc_entry -/
structure DcEntry where
  valid : Bool
  bufId : UInt32
  ver : UInt64
  fmtId : UInt32
  data : List UInt8
  size : UInt64
  lru : UInt64
  deriving DecidableEq, Repr

/-- `memset(e, 0, sizeof *e)` -/
def DcEntry.zero : DcEntry := ⟨false, 0, 0, 0, [], 0, 0⟩

/-- What a conversion does: its return code, the size that it reports and the bytes in the
destination. SOURCE: dcache.h, dc_convert_fn -/
structure Converted where
  code : ℤ
  size : UInt64
  data : List UInt8
  deriving DecidableEq, Repr

/-- SOURCE: dcache.h, dc_format. The conversion gets the bytes of the source and the capacity of the
destination. -/
structure DcFormat where
  fmtId : UInt32
  dstCapPerSrcByte : UInt64
  convert : List UInt8 → UInt64 → Converted

/-- SOURCE: dcache.c, dcache_ctx; `max_entries` is the number of entries. -/
structure DcacheCtx where
  fmt : List DcFormat
  maxTotalBytes : UInt32
  direct : Bool
  verBits : UInt32
  ent : List DcEntry
  bytesUsed : UInt64
  lruTick : UInt64

/-- The versions of the buffers at one moment. -/
abbrev Versions := UInt32 → UInt64

/-- What one attempt reads and gets from outside: the version of the buffer at its start, again at a
hit, whether the two allocations succeed, the version after the conversion, and the versions that the
searches for a victim read: the first one, those of the loop that makes room, the last one. -/
structure Attempt where
  v0 : UInt64
  recheck : UInt64
  alloc : Bool
  after : UInt64
  first : Versions
  room : ℕ → Versions
  last : Versions

/-- The arguments of `dc_get_or_convert`, and its attempts. A null pointer is none; the size of the
source is the number of its bytes. -/
structure GetArgs where
  bufId : UInt32
  src : Option (List UInt8)
  fmtId : UInt32
  out : Bool
  attempts : ℕ → Attempt

/-- A return code, and what is given out. -/
structure DcResult where
  code : ℤ
  out : Option (List UInt8 × UInt64)
  deriving DecidableEq, Repr

def DcResult.fail : DcResult := ⟨-1, none⟩

/-- SOURCE: dcache.c, dc_create, for a number of entries that is not 0, and the formats that are
registered then. -/
def dcCreate (fmt : List DcFormat) (maxEntries maxTotalBytes verBits : UInt32) (direct : Bool) :
    DcacheCtx where
  fmt := fmt
  maxTotalBytes := maxTotalBytes
  direct := direct
  verBits := verBits
  ent := List.replicate maxEntries.toNat DcEntry.zero
  bytesUsed := 0
  lruTick := 0

/-- SOURCE: dcache.c:41-44, ver_mask -/
def verMask (bits : UInt32) : UInt64 :=
  if 64 ≤ bits.toNat then 0xFFFFFFFFFFFFFFFF else (1 <<< bits.toUInt64) - 1

/-- SOURCE: dcache.c:46-50, find_fmt -/
def findFmt (s : DcacheCtx) (fmtId : UInt32) : Option DcFormat := s.fmt.find? fun f => f.fmtId = fmtId

/-- SOURCE: dcache.c:52-59, drop_entry -/
def dropEntry (s : DcacheCtx) (i : ℕ) : DcacheCtx :=
  match s.ent[i]? with
  | none => s
  | some e =>
    if e.valid then
      { s with bytesUsed := s.bytesUsed - e.size, ent := s.ent.set i DcEntry.zero }
    else s

/-- SOURCE: dcache.c:65-71 -/
def pickLoop (vers : Versions) : List DcEntry → ℕ → UInt64 → ℕ → ℕ
  | [], _, _, lruI => lruI
  | e :: es, i, best, lruI =>
    if e.valid = false then pickLoop vers es (i + 1) best lruI
    else if e.ver ≠ vers e.bufId then i
    else if e.lru < best then pickLoop vers es (i + 1) e.lru i
    else pickLoop vers es (i + 1) best lruI

/-- SOURCE: dcache.c:62-72, pick_victim -/
def pickVictim (vers : Versions) (ent : List DcEntry) : ℕ :=
  pickLoop vers ent 0 0xFFFFFFFFFFFFFFFF ent.length

/-- The first slot that is free. SOURCE: dcache.c:161-162, 191-192 -/
def firstFree (ent : List DcEntry) : Option ℕ := ent.findIdx? fun e => !e.valid

/-! ### Up to the conversion -/

/-- What the attempts lead to: a failure, a hit, or bytes that are to become an entry. -/
inductive Outcome where
  | failed
  | hit (i : ℕ)
  | converted (a : Attempt) (size : UInt64) (data : List UInt8)

/-- The entry is the one that is looked for. SOURCE: dcache.c:119-125 -/
def isHit (s : DcacheCtx) (bufId fmtId : UInt32) (v0 : UInt64) (e : DcEntry) : Bool :=
  let mask := verMask s.verBits
  e.valid && decide (e.bufId = bufId) && decide (e.fmtId = fmtId) &&
    decide (e.ver &&& mask = v0 &&& mask) && decide (e.ver = v0)

/-- SOURCE: dcache.c:111-154, 216 -/
def attemptLoop (s : DcacheCtx) (f : DcFormat) (bufId fmtId : UInt32) (src : List UInt8) :
    List Attempt → Outcome
  | [] => .failed
  | a :: rest =>
    match s.ent.findIdx? (isHit s bufId fmtId a.v0) with
    | some i => if a.recheck ≠ a.v0 then attemptLoop s f bufId fmtId src rest else .hit i
    | none =>
      if a.alloc = false then .failed
      else
        let cap := UInt64.ofNat src.length * (if f.dstCapPerSrcByte ≠ 0 then f.dstCapPerSrcByte else 1)
        let r := f.convert src cap
        if r.code ≠ 0 ∨ cap < r.size then .failed
        else if a.after ≠ a.v0 then .failed
        else .converted a r.size r.data

/-- SOURCE: dcache.c:107-154 -/
def prepare (s : DcacheCtx) (g : GetArgs) : Outcome :=
  match g.src with
  | none => .failed
  | some src =>
    if src = [] ∨ g.out = false then .failed
    else
      match findFmt s g.fmtId with
      | none => .failed
      | some f => attemptLoop s f g.bufId g.fmtId src ((List.range 4).map g.attempts)

/-! ### Publishing -/

/-- The slot that a key is mapped to. SOURCE: dcache.c:156-158 -/
def slotOf (s : DcacheCtx) (bufId fmtId : UInt32) (v0 : UInt64) : ℕ :=
  ((bufId * 1315423911).toUInt64 + v0 + fmtId.toUInt64 * 2654435761).toNat % s.ent.length

/-- Choose a slot: a free one, or that of an entry of another version, or a victim. The second part is
the number of entries if there is none. SOURCE: dcache.c:160-179 -/
def chooseSlot (s : DcacheCtx) (bufId fmtId : UInt32) (a : Attempt) : DcacheCtx × ℕ :=
  match firstFree s.ent with
  | some i => (s, i)
  | none =>
    match s.ent.findIdx? fun e => e.valid && decide (e.bufId = bufId) && decide (e.fmtId = fmtId) &&
        decide (e.ver ≠ a.v0) with
    | some i => (dropEntry s i, i)
    | none =>
      let v := if s.direct then slotOf s bufId fmtId a.v0 else pickVictim a.first s.ent
      if s.ent.length ≤ v then (s, s.ent.length) else (dropEntry s v, v)

/-- The bytes do not fit. SOURCE: dcache.c:180, 185 -/
def exceeds (s : DcacheCtx) (size : UInt64) : Prop := s.maxTotalBytes.toUInt64 < s.bytesUsed + size

instance (s : DcacheCtx) (size : UInt64) : Decidable (exceeds s size) :=
  inferInstanceAs (Decidable (_ < _))

/-- Drop victims until the bytes fit or there is none left. SOURCE: dcache.c:180-184 -/
def makeRoom (size : UInt64) (room : ℕ → Versions) : ℕ → ℕ → DcacheCtx → Option DcacheCtx
  | 0, _, _ => none
  | fuel + 1, k, s =>
    if exceeds s size then
      let v := pickVictim (room k) s.ent
      if s.ent.length ≤ v then some s else makeRoom size room fuel (k + 1) (dropEntry s v)
    else some s

/-- SOURCE: dcache.c:199-214 -/
def put (s : DcacheCtx) (chosen : ℕ) (bufId fmtId : UInt32) (a : Attempt) (size : UInt64)
    (data : List UInt8) : DcacheCtx × DcResult :=
  let s := dropEntry s chosen
  let e : DcEntry := ⟨true, bufId, a.v0, fmtId, data, size, s.lruTick + 1⟩
  ({ s with ent := s.ent.set chosen e, lruTick := s.lruTick + 1, bytesUsed := s.bytesUsed + size },
    ⟨0, some (data, size)⟩)

/-- SOURCE: dcache.c:156-214. There are at most as many rounds that make room as there are entries, and
one that finds none. -/
def publish (s : DcacheCtx) (bufId fmtId : UInt32) (a : Attempt) (size : UInt64) (data : List UInt8) :
    Option (DcacheCtx × DcResult) := do
  let c := chooseSlot s bufId fmtId a
  let s ← makeRoom size a.room (c.1.ent.length + 1) 0 c.1
  if exceeds s size then some (s, .fail)
  else
    let chosen := if c.2 = s.ent.length then (firstFree s.ent).getD s.ent.length else c.2
    if chosen = s.ent.length then
      let v := if s.direct then slotOf s bufId fmtId a.v0 else pickVictim a.last s.ent
      if s.ent.length ≤ v then some (s, .fail)
      else some (put (dropEntry s v) v bufId fmtId a size data)
    else some (put s chosen bufId fmtId a size data)

/-- SOURCE: dcache.c:127-133 -/
def touch (s : DcacheCtx) (i : ℕ) : DcacheCtx × DcResult :=
  match s.ent[i]? with
  | none => (s, .fail)
  | some e =>
    ({ s with ent := s.ent.set i { e with lru := s.lruTick + 1 }, lruTick := s.lruTick + 1 },
      ⟨1, some (e.data, e.size)⟩)

/-- SOURCE: dcache.c, dc_get_or_convert -/
def dcGetOrConvert (s : DcacheCtx) (g : GetArgs) : Option (DcacheCtx × DcResult) :=
  match prepare s g with
  | .failed => some (s, .fail)
  | .hit i => some (touch s i)
  | .converted a size data => publish s g.bufId g.fmtId a size data

/-- SOURCE: dcache.c, dcache_invalidate -/
def dcacheInvalidate (s : DcacheCtx) (bufId : UInt32) : DcacheCtx × DcResult :=
  ((List.range s.ent.length).foldl (fun s i =>
    match s.ent[i]? with
    | none => s
    | some e => if e.valid ∧ e.bufId = bufId then dropEntry s i else s) s, ⟨0, none⟩)

/-! ### Sequences of calls -/

inductive DcCall where
  | get (g : GetArgs)
  | invalidate (bufId : UInt32)

def call (c : DcCall) (s : DcacheCtx) : Option (DcacheCtx × DcResult) :=
  match c with
  | .get g => dcGetOrConvert s g
  | .invalidate b => some (dcacheInvalidate s b)

def step (c : DcCall) (s : DcacheCtx) : DcacheCtx := ((call c s).map Prod.fst).getD s

end Gehtp.Model.Dcache
