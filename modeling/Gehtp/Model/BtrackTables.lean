import Mathlib.Data.List.FinRange

/-!
# The tables of the write tracker

Beside its bitmap (`Model.Btrack`) a tracker of `kernels/src/runtime/btrack.c` has a table of
registered buffers, each with a version that every overlapping write advances, and a table of the
tokens of DMA writes. Addresses and sizes are 64-bit numbers whose sums wrap.
-/

set_option autoImplicit false

namespace Gehtp.Model.BtrackTables

/-- SOURCE: btrack.h, BT_MAX_BUFFERS -/
def btMaxBuffers : ℕ := 256

/-- SOURCE: btrack.h, BT_MAX_DMA_TOKENS -/
def btMaxDmaTokens : ℕ := 64

/-- SOURCE: btrack.c, struct bt_buf -/
structure BtBuf where
  base : UInt64
  size : UInt64
  ver : UInt64
  valid : Bool
  deriving DecidableEq

/-- SOURCE: btrack.c:20, bt_tok.state -/
inductive TokState where
  | free
  | opened
  | closed
  deriving DecidableEq

/-- SOURCE: btrack.c, struct bt_tok -/
structure BtTok where
  addr : UInt64
  size : UInt64
  state : TokState
  deriving DecidableEq

/-- The tables of a tracker. SOURCE: btrack.c, struct btrack_ctx -/
structure Tracker where
  memBytes : UInt64
  buf : Fin btMaxBuffers → BtBuf
  nBuf : ℕ
  tok : Fin btMaxDmaTokens → BtTok

/-- SOURCE: btrack.c, bt_create -/
def btCreate (memBytes : UInt64) : Tracker where
  memBytes := memBytes
  buf := fun _ => ⟨0, 0, 0, false⟩
  nBuf := 0
  tok := fun _ => ⟨0, 0, .free⟩

/-! ### Buffers -/

/-- The test for an overlap, in 64 bits. SOURCE: btrack.c:70, 121 -/
def overlaps (addr size : UInt64) (b : BtBuf) : Bool :=
  addr < b.base + b.size && b.base < addr + size

/-- A registered buffer that the test finds. SOURCE: btrack.c:67-71 -/
def conflicts (t : Tracker) (base size : UInt64) : Bool :=
  (List.finRange btMaxBuffers).any fun i => (t.buf i).valid && overlaps base size (t.buf i)

/-- The first entry that is not in use. SOURCE: btrack.c:69 -/
def freeBuf (t : Tracker) : Option (Fin btMaxBuffers) :=
  (List.finRange btMaxBuffers).find? fun i => !(t.buf i).valid

/-- SOURCE: btrack.c, bt_register_buffer -/
def btRegisterBuffer (t : Tracker) (base size : UInt64) : Tracker × Option (Fin btMaxBuffers) :=
  if size = 0 ∨ t.memBytes < base + size then (t, none)
  else if conflicts t base size then (t, none)
  else
    match freeBuf t with
    | none => (t, none)
    | some id =>
      ({ t with
          buf := Function.update t.buf id ⟨base, size, 0, true⟩
          nBuf := if t.nBuf ≤ id then id + 1 else t.nBuf }, some id)

/-- SOURCE: btrack.c, bt_unregister_buffer -/
def btUnregisterBuffer (t : Tracker) (bufId : ℕ) : Tracker × Bool :=
  if h : bufId < btMaxBuffers then
    if (t.buf ⟨bufId, h⟩).valid then
      ({ t with buf := Function.update t.buf ⟨bufId, h⟩ { t.buf ⟨bufId, h⟩ with valid := false } },
        true)
    else (t, false)
  else (t, false)

/-- The version of each buffer that overlaps goes up by one. SOURCE: btrack.c, bump_versions -/
def bumpVersions (t : Tracker) (addr size : UInt64) : Tracker :=
  { t with
    buf := fun i =>
      if i < t.nBuf ∧ (t.buf i).valid ∧ overlaps addr size (t.buf i) then
        { t.buf i with ver := (t.buf i).ver + 1 }
      else t.buf i }

/-- SOURCE: btrack.c, mark_write, without the bitmap -/
def markWrite (t : Tracker) (addr size : UInt64) : Tracker := bumpVersions t addr size

/-! ### Tokens -/

/-- The guard of a DMA write. SOURCE: btrack.c:143 -/
def inMemory (memBytes addr size : UInt64) : Prop := size ≠ 0 ∧ addr + size ≤ memBytes

instance (memBytes addr size : UInt64) : Decidable (inMemory memBytes addr size) :=
  inferInstanceAs (Decidable (_ ∧ _))

/-- The first token that was never issued. SOURCE: btrack.c:148-149 -/
def freeTok (t : Tracker) : Option (Fin btMaxDmaTokens) :=
  (List.finRange btMaxDmaTokens).find? fun i => decide ((t.tok i).state = .free)

/-- A DMA write is marked before it has its token. SOURCE: btrack.c, bt_mark_dma_write -/
def btMarkDmaWrite (t : Tracker) (addr size : UInt64) : Tracker × Option ℕ :=
  if inMemory t.memBytes addr size then
    let t := markWrite t addr size
    match freeTok t with
    | none => (t, none)
    | some i => ({ t with tok := Function.update t.tok i ⟨addr, size, .opened⟩ }, some (i + 1))
  else (t, none)

/-- SOURCE: btrack.c, bt_dma_complete -/
def btDmaComplete (t : Tracker) (token : ℕ) : Tracker × Bool :=
  if h : 0 < token ∧ token - 1 < btMaxDmaTokens then
    if (t.tok ⟨token - 1, h.2⟩).state = .opened then
      ({ t with
          tok := Function.update t.tok ⟨token - 1, h.2⟩
            { t.tok ⟨token - 1, h.2⟩ with state := .closed } }, true)
    else (t, false)
  else (t, false)

/-- SOURCE: btrack.c, bt_dma_pending -/
def btDmaPending (t : Tracker) : ℕ :=
  (List.finRange btMaxDmaTokens).countP fun i => decide ((t.tok i).state = .opened)

/-! ### Calls -/

/-- The calls that change the tables. -/
inductive Call where
  | register (base size : UInt64)
  | unregister (bufId : ℕ)
  | markCpu (addr size : UInt64)
  | markPeer (addr size : UInt64)
  | markDma (addr size : UInt64)
  | dmaComplete (token : ℕ)

def step (c : Call) (t : Tracker) : Tracker :=
  match c with
  | .register base size => (btRegisterBuffer t base size).1
  | .unregister bufId => (btUnregisterBuffer t bufId).1
  | .markCpu addr size => markWrite t addr size
  | .markPeer addr size => markWrite t addr size
  | .markDma addr size => (btMarkDmaWrite t addr size).1
  | .dmaComplete token => (btDmaComplete t token).1

end Gehtp.Model.BtrackTables
