import Gehtp.Model.Deserialize
import Mathlib.Data.UInt

/-!
# Writing the binary

`GraphPrepare::serialize` runs `do_serialize` twice, once to count the bytes and once to write
them. What `do_serialize` does with the writer is a list of items, which a `Serializer` takes one
by one: tagged records, words, and switches of its mode. The bytes here are those of the memory
plan.
-/

set_option autoImplicit false

namespace Gehtp.Model.Serialize

open Lib Model.OpExtra Model.GraphBin Model.Deserialize

/-! ### The writer -/

/-- The writer; the bytes that are only counted are not in `written`.
SOURCE: serializer.hpp, Serializer -/
structure Serializer where
  measureOnly : Bool
  prescan : Bool
  bytesFilled : ℕ
  written : List UInt8

/-- A writer at the start of its buffer. -/
def Serializer.start : Serializer := ⟨false, false, 0, []⟩

/-- A writer that only counts. -/
def Serializer.measure : Serializer := ⟨true, false, 0, []⟩

/-- SOURCE: serializer.hpp, Serializer::current_position -/
def Serializer.currentPosition (ser : Serializer) : ℕ := ser.bytesFilled + ser.written.length

/-- The zeros up to the next whole word. SOURCE: serializer.cpp:110-113 -/
def alignPad (p : ℕ) : ℕ := if p % 4 = 0 then 0 else 4 - p % 4

/-- A copy of more bytes than there are leaves the memory of the data.
SOURCE: serializer.cpp:104-131, Serializer::serialize_fwrite -/
def serializeFwrite (ser : Serializer) (data : List UInt8) (size : ℕ) (align4 : Bool) :
    Checked Unit Serializer :=
  let pad := if align4 then alignPad ser.currentPosition else 0
  if ser.measureOnly = true ∨ ser.prescan = true then
    pure { ser with bytesFilled := ser.bytesFilled + (size + pad) }
  else if data.length < size then .error .fault
  else pure { ser with written := ser.written ++ (List.replicate pad 0 ++ data.take size) }

/-- SOURCE: serializer.cpp:147-153, Serializer::write_uint32 -/
def writeUint32 (ser : Serializer) (val : UInt32) : Checked Unit Serializer :=
  serializeFwrite ser (u32le val) 4 false

/-- SOURCE: serializer.cpp:140-145, Serializer::serialize_uint32 -/
def serializeUint32 (ser : Serializer) (a b c : UInt32) : Checked Unit Serializer := do
  let ser ← serializeFwrite ser (u32le a) 4 false
  let ser ← serializeFwrite ser (u32le b) 4 false
  serializeFwrite ser (u32le c) 4 false

/-- SOURCE: bin_format.cpp:41-43, encode_bin_tag -/
def encodeBinTag (tag : UInt32) : UInt32 :=
  ((tag &&& 0xFFFF : UInt32) ||| (tag <<< 16 : UInt32)) ^^^ 0xFFFF

/-- SOURCE: serializer.cpp:165 -/
def wordCount (size : ℕ) : UInt32 := UInt32.ofNat ((size + 3) % 2 ^ 64 / 4)

/-- SOURCE: serializer.cpp:155-171, Serializer::write_tagged_record -/
def writeTaggedRecord (ser : Serializer) (tag : UInt32) (data : List UInt8) (size : ℕ) :
    Checked Unit Serializer := do
  let ser ← serializeUint32 ser (encodeBinTag tag) (wordCount size) (wordCount size)
  if size = 0 then pure ser else serializeFwrite ser data size true

/-- What `do_serialize` does with the writer. -/
inductive Item where
  | record (tag : UInt32) (data : List UInt8) (size : ℕ)
  | word (val : UInt32)
  | mode (prescan : Bool)

def Item.write (ser : Serializer) : Item → Checked Unit Serializer
  | .record tag data size => writeTaggedRecord ser tag data size
  | .word val => writeUint32 ser val
  | .mode prescan => pure { ser with prescan := prescan }

/-- The size argument of a call that passes `static_cast<int>(size)` as a `size_t`. -/
def intSize (n : ℕ) : ℕ :=
  if n % 2 ^ 32 < 2 ^ 31 then n % 2 ^ 32 else 2 ^ 64 - (2 ^ 32 - n % 2 ^ 32)

/-- A record of a structure of fixed size. -/
def Item.fixed (tag : UInt32) (data : List UInt8) : Item := .record tag data data.length

/-- A record of a vector whose size is passed as an `int`. -/
def Item.table (tag : UInt32) (data : List UInt8) : Item := .record tag data (intSize data.length)

/-! ### The bytes of the records -/

/-- SOURCE: graph_prepare.cpp:1751-1757 -/
def planEntryBytes (e : MemPlanEntry) : List UInt8 :=
  u32le e.opId.toUInt32 ++ (u32le e.outIdx ++ (u32le e.offset.toUInt32 ++
    (u32le e.size.toUInt32 ++ u32le (if e.inVtcm then 1 else 0))))

/-- SOURCE: graph_prepare.cpp:1759-1764 -/
def planSpillBytes (s : MemPlanSpill) : List UInt8 :=
  u32le s.opId.toUInt32 ++ (u32le s.offset.toUInt32 ++ (u32le s.size.toUInt32 ++ u32le 0))

/-- SOURCE: graph_prepare.cpp:1742-1764 -/
def memPlanBytes (mp : MemPlan) : List UInt8 :=
  u32le 1 ++ (u32le mp.ddrCap.toUInt32 ++ (u32le mp.vtcmCap.toUInt32 ++
    (u32le mp.bumpReserve.toUInt32 ++ (u32le (UInt32.ofNat mp.entries.length) ++
      (mp.entries.flatMap planEntryBytes ++ (u32le (UInt32.ofNat mp.spills.length) ++
        mp.spills.flatMap planSpillBytes))))))

end Gehtp.Model.Serialize
