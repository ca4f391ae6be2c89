import Mathlib.Algebra.Order.Ring.Nat
import Mathlib.Data.List.Range

/-!
# The buffer ledger

`kernels/src/runtime/bledger.c` keeps a record for each row of up to four buffers: who wrote it last,
with which tag, and whether it was read, filled with a pattern or given back since. A consumer states
what it expects and has it checked. The counters are 32-bit numbers.
-/

set_option autoImplicit false

namespace Gehtp.Model.BufferLedger

/-- SOURCE: bledger.h, BL_MAX_BUFS -/
def blMaxBufs : ℕ := 4

/-- SOURCE: bledger.h, BL_ANY_WRITER -/
def blAnyWriter : UInt16 := 0

/-- SOURCE: bledger.h, BL_NO_QTAG -/
def blNoQtag : UInt16 := 0

/-- What a call returns. SOURCE: bledger.h, BL_OK and BL_ERR_* -/
inductive BlCode where
  | ok
  | param
  | noSuch
  | range
  | never
  | canary
  | released
  | writer
  | qtag
  deriving DecidableEq, Repr

/-- SOURCE: bledger.h, bl_state -/
inductive BlState where
  | unwritten
  | written
  | read
  | canary
  | released
  deriving DecidableEq, Repr

/-- SOURCE: bledger.h, bl_row -/
structure BlRow where
  seq : ℕ
  writer : UInt16
  qtag : UInt16
  state : BlState
  hasExpect : Bool
  expWriter : UInt16
  expQtag : UInt16
  deriving DecidableEq, Repr

/-- A row that was allocated with zeros. -/
def BlRow.zero : BlRow := ⟨0, 0, 0, .unwritten, false, 0, 0⟩

/-- A buffer; it is registered once it has rows. SOURCE: bledger.h, bl_buf -/
structure BlBuf where
  registered : Bool
  nRows : ℕ
  rows : ℕ → BlRow
  nWrites : ℕ
  nReads : ℕ
  nBreaks : ℕ

/-- SOURCE: bledger.h, bledger -/
structure Bledger where
  nBufs : ℕ
  seq : ℕ
  nDoubleWrite : ℕ
  buf : ℕ → BlBuf

def inc (n : ℕ) : ℕ := (n + 1) % 2 ^ 32

/-- SOURCE: bledger.c, bl_init -/
def blInit : Bledger := ⟨0, 0, 0, fun _ => ⟨false, 0, fun _ => .zero, 0, 0, 0⟩⟩

/-- A slot that the calls accept. SOURCE: bledger.c:40, 61, 71, 82, 95 -/
def hasSlot (b : Bledger) (slot : ℕ) : Prop := slot < b.nBufs ∧ (b.buf slot).registered = true

instance (b : Bledger) (slot : ℕ) : Decidable (hasSlot b slot) := inferInstanceAs (Decidable (_ ∧ _))

def Bledger.set (b : Bledger) (slot : ℕ) (f : BlBuf) : Bledger :=
  { b with buf := Function.update b.buf slot f }

/-- SOURCE: bledger.c, bl_register -/
def blRegister (b : Bledger) (slot base bytes rowBytes : ℕ) : Bledger × BlCode :=
  if base = 0 ∨ rowBytes = 0 ∨ bytes = 0 then (b, .param)
  else if bytes % rowBytes ≠ 0 then (b, .param)
  else if blMaxBufs ≤ slot then (b, .range)
  else if (b.buf slot).registered then (b, .param)
  else
    ({ b.set slot ⟨true, bytes / rowBytes, fun _ => .zero, 0, 0, 0⟩ with
        nBufs := if b.nBufs < slot + 1 then slot + 1 else b.nBufs }, .ok)

/-- One row of a write: the row, and whether it counts as written twice. SOURCE: bledger.c:46-53 -/
def writeRow (seq : ℕ) (writer qtag : UInt16) (r : BlRow) : BlRow × Bool :=
  ({ r with seq := seq, writer := writer, qtag := qtag, state := .written },
    decide (r.state = .written ∧ r.writer ≠ writer))

/-- The rows of a write, one after the other, with the counter. SOURCE: bledger.c:45-53 -/
def writeRows (seq : ℕ) (writer qtag : UInt16) :
    List ℕ → (ℕ → BlRow) × ℕ → (ℕ → BlRow) × ℕ
  | [], s => s
  | row :: todo, (rows, doubles) =>
    let w := writeRow seq writer qtag (rows row)
    writeRows seq writer qtag todo
      (Function.update rows row w.1, if w.2 then inc doubles else doubles)

/-- SOURCE: bledger.c, bl_write -/
def blWrite (b : Bledger) (slot : ℕ) (writer : UInt16) (row0 nrows : ℕ) (qtag : UInt16) :
    Bledger × BlCode :=
  if writer = blAnyWriter then (b, .param)
  else if ¬hasSlot b slot then (b, .noSuch)
  else
    let f := b.buf slot
    if nrows = 0 ∨ f.nRows ≤ row0 ∨ f.nRows - row0 < nrows then (b, .range)
    else
      let seq := inc b.seq
      let w := writeRows seq writer qtag (List.range' row0 nrows) (f.rows, b.nDoubleWrite)
      ({ b.set slot { f with rows := w.1, nWrites := inc f.nWrites } with
          seq := seq, nDoubleWrite := w.2 }, .ok)

/-- All rows take a state; what was written last stays on record. SOURCE: bledger.c:62-66, 72-76 -/
def fillRows (b : Bledger) (slot : ℕ) (state : BlState) : Bledger × BlCode :=
  if ¬hasSlot b slot then (b, .noSuch)
  else
    let f := b.buf slot
    (b.set slot { f with rows := fun i =>
      if i < f.nRows then { f.rows i with state := state } else f.rows i }, .ok)

/-- SOURCE: bledger.c, bl_canary -/
def blCanary (b : Bledger) (slot : ℕ) : Bledger × BlCode := fillRows b slot .canary

/-- SOURCE: bledger.c, bl_release -/
def blRelease (b : Bledger) (slot : ℕ) : Bledger × BlCode := fillRows b slot .released

/-- SOURCE: bledger.c, bl_expect -/
def blExpect (b : Bledger) (slot row : ℕ) (writerFilter qtag : UInt16) : Bledger × BlCode :=
  if ¬hasSlot b slot then (b, .noSuch)
  else
    let f := b.buf slot
    if f.nRows ≤ row then (b, .range)
    else
      let r := { f.rows row with hasExpect := true, expWriter := writerFilter, expQtag := qtag }
      (b.set slot { f with rows := Function.update f.rows row r }, .ok)

/-- What the row's record says. SOURCE: bledger.c:99-110 -/
def verdict (r : BlRow) : BlCode :=
  match r.state with
  | .unwritten => .never
  | .canary => .canary
  | .released => .released
  | .written | .read =>
    if r.hasExpect ∧ r.expWriter ≠ blAnyWriter ∧ r.writer ≠ r.expWriter then .writer
    else if r.hasExpect ∧ r.expQtag ≠ blNoQtag ∧ r.qtag ≠ r.expQtag then .qtag
    else .ok

/-- SOURCE: bledger.c, bl_verify -/
def blVerify (b : Bledger) (slot row : ℕ) : Bledger × BlCode :=
  if ¬hasSlot b slot then (b, .noSuch)
  else
    let f := b.buf slot
    if f.nRows ≤ row then (b, .range)
    else
      let rc := verdict (f.rows row)
      if rc ≠ .ok then (b.set slot { f with nBreaks := inc f.nBreaks }, rc)
      else
        let r := { f.rows row with state := .read }
        (b.set slot { f with rows := Function.update f.rows row r, nReads := inc f.nReads }, .ok)

/-- The calls on a ledger. -/
inductive Call where
  | register (slot base bytes rowBytes : ℕ)
  | write (slot : ℕ) (writer : UInt16) (row0 nrows : ℕ) (qtag : UInt16)
  | canary (slot : ℕ)
  | release (slot : ℕ)
  | expect (slot row : ℕ) (writerFilter qtag : UInt16)
  | verify (slot row : ℕ)

/-- What a call does to the ledger, and what it returns. -/
def step (c : Call) (b : Bledger) : Bledger × BlCode :=
  match c with
  | .register slot base bytes rowBytes => blRegister b slot base bytes rowBytes
  | .write slot writer row0 nrows qtag => blWrite b slot writer row0 nrows qtag
  | .canary slot => blCanary b slot
  | .release slot => blRelease b slot
  | .expect slot row writerFilter qtag => blExpect b slot row writerFilter qtag
  | .verify slot row => blVerify b slot row

end Gehtp.Model.BufferLedger
