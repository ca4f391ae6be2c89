import Gehtp.Lib.Bytes
import Gehtp.Lib.Machine
import Gehtp.Model.Kvcache

/-!
# The KV states of a decode graph

`exec_kv_append` and `exec_kv_gather` (`kernels/src/runtime/oplist_exec.c`) with the rows they
move. A KV state is a buffer that the first use lays out as a slot cache; the automatic position
is a counter of the state. A gather writes a K face, transposed for each head, and a V face, and
spreads the kv heads over the query heads.

The reference to a row is resolved: it is the memory it points to and its number of elements. The
faces are temps. There is one buffer for each temp id, of a size of 32 bits; the memory of a buffer
comes from the pool, apart from the states and from the other buffers (the tables that put temps
elsewhere are those of the executor). A store past the end of a buffer is a fault. Sizes of type
`size_t` are natural numbers.
-/

set_option autoImplicit false

namespace Gehtp.Model.KvDecode

open Lib Lib.Machine Lib.Memory Model.Kvcache

/-- SOURCE: oplist_parse.h, WT_KV_POS_AUTO -/
def wtKvPosAuto : UInt32 := 0xFFFFFFFA

/-- The number of temps. SOURCE: oplist_exec.c:46 -/
def maxTemps : ℕ := 4096

/-- The buffer of a temp, in elements of 16 bits, and its size in bytes. -/
structure TempBuf where
  mem : ℕ → UInt16
  bytes : UInt32

/-- The states and temps of `g_exec`. A state whose cache is ready has its bytes in the cache.
SOURCE: oplist_exec.c:48-90 -/
structure KvDevice where
  nStates : ℕ
  stAddr : ℕ → ℕ
  stBuf : ℕ → ℕ → UInt8
  stBytes : ℕ → UInt32
  stCount : ℕ → UInt32
  stKvc : ℕ → Option Kvc
  temps : ℕ → Option TempBuf

abbrev Kv (α : Type) : Type := Machine KvDevice String α

/-- What the allocators answer: the memory for a map of positions, and memory of the pool. -/
structure KvEnv where
  posmap : UInt32 → Option (ℕ → UInt32)
  pool : UInt32 → Option (ℕ → UInt16)

/-- A resolved reference to f16 elements. -/
structure RowRef where
  ptr : Option (ℕ → UInt16)
  elems : UInt32

/-- The bytes of a run of 16-bit elements. -/
def bytesOf (f : ℕ → UInt16) : ℕ → UInt8 := fun i =>
  if i % 2 = 0 then (f (i / 2)).toUInt8 else (f (i / 2) >>> 8).toUInt8

/-- The element `j` of the 16-bit elements from the byte `a` on. -/
def elemAt (mem : ℕ → UInt8) (a j : ℕ) : UInt16 := u16OfBytes (mem (a + 2 * j)) (mem (a + 2 * j + 1))

def setKvc (i : ℕ) (c : Kvc) : Kv Unit :=
  update fun d => { d with stKvc := Function.update d.stKvc i (some c) }

variable (env : KvEnv)

/-- The layout of a state on its first use. SOURCE: oplist_exec.c:2126-2143 -/
def layOut (i : ℕ) (slotBytes : UInt32) : Kv Kvc := do
  let d ← read id
  guard (256 ≤ slotBytes.toNat ∧ slotBytes.toNat % 128 = 0 ∧
    (d.stBytes i).toNat % slotBytes.toNat = 0) "kv state %u geometry bad (slot=%u total=%u)"
  let nslots := d.stBytes i / slotBytes
  match env.posmap nslots with
  | none => reject "kv posmap alloc"
  | some posmap =>
    match kvcInit (d.stAddr i) (d.stBuf i) slotBytes nslots posmap with
    | none => reject "kvc_init state %u"
    | some c => do
      setKvc i c
      pure c

/-- The state behind a reference with its cache. SOURCE: oplist_exec.c:2119-2151 -/
def stateKvc (stateRef kvElems : UInt32) : Kv (ℕ × Kvc) := do
  guard (stateRef &&& 0xE000 = 0x6000) "kv state_ref not 0x6000|idx (0x%X)"
  let i := (stateRef &&& 0x1FFF).toNat
  let d ← read id
  guard (i < d.nStates) "kv state idx %u oob"
  let slotBytes := kvElems * 2 * 2
  match d.stKvc i with
  | none => do
    let c ← layOut env i slotBytes
    pure (i, c)
  | some c => do
    guard (c.slotBytes = slotBytes) "kv state %u slot_bytes mismatch (%u vs %u)"
    pure (i, c)

/-- The position of an append; the automatic one is counted. SOURCE: oplist_exec.c:2164-2173 -/
def appendPos (i : ℕ) (c : Kvc) (pos : UInt32) : Kv UInt32 :=
  if pos = wtKvPosAuto then do
    let d ← read id
    guard (d.stCount i < c.nslots) "kv append state %u count=%u >= nslots=%u (ctx 太长)"
    update fun d => { d with stCount := Function.update d.stCount i (d.stCount i + 1) }
    pure (d.stCount i)
  else pure pos

/-- SOURCE: oplist_exec.c:2154-2177 -/
def execKvAppend (k v : RowRef) (stateRef pos : UInt32) : Kv Unit :=
  match k.ptr, v.ptr with
  | some kp, some vp => do
    guard (k.elems ≠ 0 ∧ k.elems = v.elems) "kv append ref fail"
    let (i, c) ← stateKvc env stateRef k.elems
    let pos ← appendPos i c pos
    match kvcAppend c (bytesOf kp) (bytesOf vp) pos with
    | .error _ => fault
    | .ok (slot, c) => do
      setKvc i c
      guard (0 ≤ slot) "kvc_append"
  | _, _ => reject "kv append ref fail"

/-- The positions of a gather and the width of a face. SOURCE: oplist_exec.c:2196-2207 -/
def gatherSpan (i : ℕ) (c : Kvc) (nKv : UInt32) : Kv (UInt32 × UInt32) :=
  if nKv = wtKvPosAuto then do
    let d ← read id
    guard (d.stCount i ≠ 0 ∧ d.stCount i ≤ c.nslots)
      "kv gather state %u count=%u bad (append 先行?)"
    pure (d.stCount i, c.nslots)
  else pure (nKv, nKv)

/-- Make room for a temp: its buffer is kept if it is large enough. `false` is the source's NULL.
SOURCE: oplist_exec.c:257-258, 307-335 -/
def tempGet (t bytes : UInt32) : Kv Bool :=
  if maxTemps ≤ t.toNat then pure false
  else do
    let d ← read id
    if (d.temps t.toNat).any fun buf => decide (bytes ≤ buf.bytes) then pure true
    else
      match env.pool bytes with
      | none => pure false
      | some mem => do
        update fun d => { d with temps := Function.update d.temps t.toNat (some ⟨mem, bytes⟩) }
        pure true

/-- Room for a face; the temp 0 stands for no face. SOURCE: oplist_exec.c:2208-2210 -/
def faceGet (t bytes : UInt32) : Kv Bool := if t = 0 then pure true else tempGet env t bytes

/-- A store of the element `val` at `idx` of the temp `face`. -/
structure FaceStore where
  face : ℕ
  idx : ℕ
  val : UInt16

def storeTo (temps : ℕ → Option TempBuf) (w : FaceStore) :
    Checked String (ℕ → Option TempBuf) :=
  match temps w.face with
  | none => .error .fault
  | some buf =>
    if 2 * w.idx + 2 ≤ buf.bytes.toNat then
      .ok (Function.update temps w.face
        (some { buf with mem := Function.update buf.mem w.idx w.val }))
    else .error .fault

/-- Stores one after the other. -/
def storeAll (l : List FaceStore) : Kv Unit := fun d =>
  match l.foldlM storeTo d.temps with
  | .error e => (.error e, d)
  | .ok temps => (.ok (), { d with temps := temps })

/-- The stores of a face, if there is one. -/
def onFace (t : UInt32) (l : List (ℕ × UInt16)) : List FaceStore :=
  if t = 0 then [] else l.map fun w => ⟨t.toNat, w.1, w.2⟩

/-- The stores of `memset`. SOURCE: oplist_exec.c:2211-2214 -/
def zeros (size : ℕ) : List (ℕ × UInt16) := (List.range size).map fun x => (x, 0)

/-- Where an element of a head starts in a row; the product is one of 32 bits.
SOURCE: oplist_exec.c:2222-2223 -/
def headStart (rep hd h : ℕ) : ℕ := h / rep * hd % 2 ^ 32

/-- The shape of the faces of a gather: heads, query heads for each kv head, elements of a head,
positions. -/
structure FaceShape where
  nHeads : ℕ
  rep : ℕ
  hd : ℕ
  pstride : ℕ

/-- The elements of a face. -/
def FaceShape.size (s : FaceShape) : ℕ := s.nHeads * s.hd * s.pstride

/-- The stores of head `h` for position `p` to the K face. SOURCE: oplist_exec.c:2222-2226 -/
def kStores (c : Kvc) (s : FaceShape) (slot p h : ℕ) : List (ℕ × UInt16) :=
  (List.range s.hd).map fun j => (h * s.hd * s.pstride + (j * s.pstride + p),
    elemAt c.base (slot * c.slotBytes.toNat) (headStart s.rep s.hd h + j))

/-- The stores of head `h` for position `p` to the V face. SOURCE: oplist_exec.c:2223-2227 -/
def vStores (c : Kvc) (s : FaceShape) (slot p h : ℕ) : List (ℕ × UInt16) :=
  (List.range s.hd).map fun j => (h * s.pstride * s.hd + (p * s.hd + j),
    elemAt c.base (slot * c.slotBytes.toNat + c.half) (headStart s.rep s.hd h + j))

/-- The stores of one position. SOURCE: oplist_exec.c:2221-2228 -/
def posStores (c : Kvc) (kOut vOut : UInt32) (s : FaceShape) (slot p : ℕ) : List FaceStore :=
  (List.range s.nHeads).flatMap fun h =>
    onFace kOut (kStores c s slot p h) ++ onFace vOut (vStores c s slot p h)

/-- One position of a gather. SOURCE: oplist_exec.c:2216-2229 -/
def gatherPos (c : Kvc) (kOut vOut : UInt32) (s : FaceShape) (p : ℕ) : Kv Unit :=
  match kvcLookup c (UInt32.ofNat p) with
  | .error _ => fault
  | .ok slot =>
    if slot < 0 then reject "kv gather miss pos %u (state bug)"
    else storeAll (posStores c kOut vOut s slot.toUInt32.toNat p)

/-- The faces of `nKv` positions, cleared first if they are wider.
SOURCE: oplist_exec.c:2208-2229 -/
def writeFaces (c : Kvc) (kOut vOut : UInt32) (s : FaceShape) (nKv : ℕ) : Kv Unit := do
  let kT ← faceGet env kOut (UInt32.ofNat (s.size * 2))
  let vo ← faceGet env vOut (UInt32.ofNat (s.size * 2))
  guard (kT = true ∧ vo = true) "kv gather out alloc"
  storeAll (if nKv < s.pstride then onFace kOut (zeros s.size) ++ onFace vOut (zeros s.size)
    else [])
  let _ ← collect (gatherPos c kOut vOut s) (List.range nKv)
  pure ()

/-- SOURCE: oplist_exec.c:2183-2231 -/
def execKvGather (stateRef kOut vOut nKv nHeads kvHeads hd : UInt32) : Kv Unit := do
  guard (nHeads ≠ 0 ∧ kvHeads ≠ 0 ∧ hd ≠ 0 ∧ nHeads % kvHeads = 0)
    "kv gather gqa bad (h=%u kvh=%u hd=%u)"
  let (i, c) ← stateKvc env stateRef (kvHeads * hd)
  let (nKv, pstride) ← gatherSpan i c nKv
  writeFaces env c kOut vOut ⟨nHeads.toNat, (nHeads / kvHeads).toNat, hd.toNat, pstride.toNat⟩
    nKv.toNat

end Gehtp.Model.KvDecode
