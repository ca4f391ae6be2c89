import Gehtp.Model.Bflush

/-!
# Writers beside a boundary

Write hooks run on any number of threads while one thread takes a snapshot, flushes
and clears (`bf_boundary`, or a client that flushes by itself and calls `bt_clear`).
The steps are the accesses to shared memory that the source makes in each mode:

* with the global lock a mark, a snapshot and a clear are one step each;
* with shard locks a mark is, word by word, a read and a write under the lock of the
  word's shard, a snapshot is one step with all shards locked, and a clear is, word
  by word, a read and a write *without* a lock;
* with atomics a mark and a clear are one step a word, and a snapshot reads every
  word twice.

Beside the bitmap the state records what was flushed since the snapshot and the
blocks that were marked after bytes of the write in them had been flushed.
-/

set_option autoImplicit false

namespace Gehtp.Model.BtrackRun

open Model.Btrack Model.Bflush

/-- SOURCE: btrack.h, BT_MODE_* -/
inductive Mode where
  | lock
  | shard
  | atomic
  deriving DecidableEq, Repr

/-- A tracker and the flusher on it. The block count leaves room for the 32-bit
arithmetic of the word loops, and there is a block. -/
structure System where
  geo : Geometry
  cfg : Config
  mode : Mode
  blocks_pos : 0 < geo.nBlocks
  blocks_fit : geo.nBlocks + 63 < 2 ^ 32

/-- A thread that writes: the byte range of the write it marks, the word operations
still to do, and the word it has read under a shard lock. -/
structure Writer where
  addr : ℕ
  size : ℕ
  todo : List (ℕ × BitVec 64)
  loaded : Option (BitVec 64)

/-- How the bytes are flushed before the clear: as `bf_boundary` does, or by the
caller of `bt_clear` on a byte range. -/
inductive FlushPlan where
  | boundary (arraysOk : Bool)
  | client (calls : List FlushCall) (addr size : ℕ)

/-- Where the flushing thread is. While it flushes, `clear` are the words that its clear will
AND into the bitmap. -/
inductive Phase where
  | idle
  | reading (second : Bool) (todo : List ℕ) (got : Words)
  | taken (snap : Snapshot)
  | flushing (snap : Snapshot) (calls : List FlushCall) (clear : List (ℕ × BitVec 64))
  | clearing (snap : Snapshot) (todo : List (ℕ × BitVec 64)) (loaded : Option (BitVec 64))

/-- The shared state, and what the threads have in hand. The last three fields are
the record: `flushed` since the snapshot, `late` marks since then, and `owed`, the
late marks of the time before the snapshot. -/
structure State where
  bits : Words
  slock : ℕ → Option ℕ
  writers : ℕ → Writer
  phase : Phase
  flushed : List FlushCall
  late : Words
  owed : Words

/-- A tracker with some dirty blocks and nobody at work. -/
def start (bits : Words) : State :=
  ⟨bits, fun _ => none, fun _ => ⟨0, 0, [], none⟩, .idle, [], fun _ => 0, fun _ => 0⟩

/-- The block of a byte in a mark; the last one takes what is left of the memory. -/
def blockAt (geo : Geometry) (x : ℕ) : ℕ := min (x / geo.blkBytes) (geo.nBlocks - 1)

/-- A byte that the write has in a block has been flushed since the snapshot. -/
def flushedIn (geo : Geometry) (flushed : List FlushCall) (wr : Writer) (blk : ℕ) : Bool :=
  decide (∃ x < wr.addr + wr.size, wr.addr ≤ x ∧ blockAt geo x = blk ∧ ∃ c ∈ flushed, reaches c x)

/-- The blocks of the word operation `p` in which the writer's bytes have been flushed. -/
def lateMask (geo : Geometry) (flushed : List FlushCall) (wr : Writer) (p : ℕ × BitVec 64) :
    BitVec 64 :=
  p.2 &&& (BitVec.ofBoolListLE
    ((List.range 64).map fun i => flushedIn geo flushed wr (64 * p.1 + i))).setWidth 64

/-- The record of a mark of the word operation `p` by writer `wr`. -/
def recordMark (geo : Geometry) (st : State) (wr : Writer) (p : ℕ × BitVec 64) : Words :=
  orWord st.late (p.1, lateMask geo st.flushed wr p)

/-- One word of a mark. SOURCE: btrack.c:104-112 -/
def markWord (geo : Geometry) (wr : Writer) (st : State) (p : ℕ × BitVec 64) : State :=
  { st with bits := orWord st.bits p, late := recordMark geo st wr p }

def setWriter (st : State) (i : ℕ) (wr : Writer) : State :=
  { st with writers := Function.update st.writers i wr }

def takeSnapshot (sys : System) (st : State) (words : Words) : State :=
  { st with phase := .taken ⟨words, sys.geo.nWords⟩, late := fun _ => 0, owed := st.late }

/-- The steps of the threads. -/
inductive Event where
  | mark (i : ℕ) (kind : WriteKind) (addr size : ℕ)
  | orWord (i : ℕ)
  | markLocked (i : ℕ)
  | loadWord (i : ℕ)
  | storeWord (i : ℕ)
  | snapshot
  | readWord
  | plan (p : FlushPlan)
  | flush
  | startClear
  | clearWord
  | clearLocked
  | loadClear
  | storeClear
  | finish

/-- The steps of a writer. SOURCE: btrack.c:89-158 -/
def writerStep (sys : System) (st : State) : Event → Option State
  | .mark i kind addr size =>
    if (st.writers i).todo = [] then
      some (setWriter st i ⟨addr, size, markWords sys.geo kind addr size, none⟩)
    else none
  | .orWord i =>
    match sys.mode, (st.writers i).todo with
    | .atomic, p :: rest =>
      some (setWriter (markWord sys.geo (st.writers i) st p) i { st.writers i with todo := rest })
    | _, _ => none
  | .markLocked i =>
    match sys.mode with
    | .lock =>
      some (setWriter ((st.writers i).todo.foldl (markWord sys.geo (st.writers i)) st) i
        { st.writers i with todo := [] })
    | _ => none
  | .loadWord i =>
    match sys.mode, (st.writers i).todo with
    | .shard, p :: _ =>
      if st.slock (p.1 % 64) = none ∧ (st.writers i).loaded = none then
        some (setWriter { st with slock := Function.update st.slock (p.1 % 64) (some i) } i
          { st.writers i with loaded := some (st.bits p.1) })
      else none
    | _, _ => none
  | .storeWord i =>
    match sys.mode, (st.writers i).todo, (st.writers i).loaded with
    | .shard, p :: rest, some v =>
      some (setWriter
        { st with
          bits := Function.update st.bits p.1 (v ||| p.2)
          late := recordMark sys.geo st (st.writers i) p
          slock := Function.update st.slock (p.1 % 64) none } i
        { st.writers i with todo := rest, loaded := none })
    | _, _, _ => none
  | _ => none

/-- The steps of the thread that takes the snapshot and flushes.
SOURCE: btrack.c:173-198, bflush.c:97-158 -/
def flusherStep (sys : System) (st : State) : Event → Option State
  | .snapshot =>
    match st.phase, sys.mode with
    | .idle, .lock => some (takeSnapshot sys { st with flushed := [] } st.bits)
    | .idle, .shard =>
      if (List.range 64).all fun s => (st.slock s).isNone then
        some (takeSnapshot sys { st with flushed := [] } st.bits)
      else none
    | .idle, .atomic =>
      some { st with phase := .reading false (List.range sys.geo.nWords) fun _ => 0, flushed := [] }
    | _, _ => none
  | .readWord =>
    match st.phase with
    | .reading second (w :: todo) got =>
      some { st with phase := .reading second todo (orWord got (w, st.bits w)) }
    | .reading false [] got =>
      some { st with phase := .reading true (List.range sys.geo.nWords) got }
    | .reading true [] got => some (takeSnapshot sys st got)
    | _ => none
  | .plan p =>
    match st.phase, p with
    | .taken snap, .boundary arraysOk =>
      some { st with phase := .flushing snap (flushFor sys.geo sys.cfg arraysOk snap).1
                      (clearAllWords sys.geo snap) }
    | .taken snap, .client calls addr size =>
      some { st with phase := .flushing snap calls (clearWords sys.geo snap addr size) }
    | _, _ => none
  | .flush =>
    match st.phase with
    | .flushing snap (c :: calls) clear =>
      some { st with phase := .flushing snap calls clear, flushed := c :: st.flushed }
    | _ => none
  | _ => none

/-- The steps of the clear. SOURCE: btrack.c:207-251 -/
def clearStep (sys : System) (st : State) : Event → Option State
  | .startClear =>
    match st.phase with
    | .flushing snap [] clear => some { st with phase := .clearing snap clear none }
    | _ => none
  | .clearWord =>
    match st.phase, sys.mode with
    | .clearing snap (p :: todo) none, .atomic =>
      some { st with bits := andWord st.bits p, phase := .clearing snap todo none }
    | _, _ => none
  | .clearLocked =>
    match st.phase, sys.mode with
    | .clearing snap todo none, .lock =>
      some { st with bits := todo.foldl andWord st.bits, phase := .clearing snap [] none }
    | _, _ => none
  | .loadClear =>
    match st.phase, sys.mode with
    | .clearing snap (p :: todo) none, .shard =>
      some { st with phase := .clearing snap (p :: todo) (some (st.bits p.1)) }
    | _, _ => none
  | .storeClear =>
    match st.phase, sys.mode with
    | .clearing snap (p :: todo) (some v), .shard =>
      some { st with bits := Function.update st.bits p.1 (v &&& p.2),
                     phase := .clearing snap todo none }
    | _, _ => none
  | .finish =>
    match st.phase with
    | .clearing _ [] none => some { st with phase := .idle }
    | _ => none
  | _ => none

/-- One step of some thread; `none` when it cannot be taken. -/
def step (sys : System) (st : State) (e : Event) : Option State :=
  match e with
  | .mark .. | .orWord .. | .markLocked .. | .loadWord .. | .storeWord .. => writerStep sys st e
  | .snapshot | .readWord | .plan .. | .flush => flusherStep sys st e
  | .startClear | .clearWord | .clearLocked | .loadClear | .storeClear | .finish =>
    clearStep sys st e

def run (sys : System) (st : State) : List Event → Option State
  | [] => some st
  | e :: es => (step sys st e).bind fun st' => run sys st' es

end Gehtp.Model.BtrackRun
