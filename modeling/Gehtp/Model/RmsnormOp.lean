import Gehtp.Lib.RowLoops
import Gehtp.Model.DeviceTensor

/-!
# RmsNorm on the device

`op_rmsnorm` (`compiler/tools/wtop_ops/op_rmsnorm.cpp`) names a slot with the weights and one with the
bias; for an operand that is not there it takes the shared empty slot, whether this was made yet or not.
`exec_rmsnorm2` (`kernels/src/runtime/oplist_exec.c`) reads as many elements of both as the slot of the
weights has. Slots are only added while operators are emitted (`compiler/tools/wtop_ops/wtop_ops.hpp`).
-/

set_option autoImplicit false

namespace Gehtp.Model.RmsnormOp

open Lib Model.DeviceTensor

/-! ### The graph and the slots -/

/-- An operator as the emitter sees it where it is an input: its original name, whether it is a
constant, the bytes of its data and these as halves, and whether it is a place without a meaning of its
own, by its empty name or the name of a parameter. -/
structure Node where
  grouping : String
  isConst : Bool
  constSize : ℕ
  data : List UInt16
  phantom : Bool
  length_data : data.length = constSize / 4

/-- The graph: its operators, the first input, and the table of a GGUF file, if one is given. An entry
has no values if its bytes are not in the file, otherwise they have the form of a slot. -/
structure Graph where
  node : ℕ → Option Node
  mainInputId : ℕ
  gguf : Option (String → Option (Option (List UInt16)))

/-- What a slot was made for. -/
inductive SlotUse where
  | mainInput | input (id : ℕ) | weight (id : ℕ) | index (id : ℕ) | dummy | other
  deriving DecidableEq, Repr

/-- A slot with its halves. -/
structure Slot where
  use : SlotUse
  data : List UInt16
  deriving DecidableEq, Repr

/-- The part of `Emitter` that slots come from. SOURCE: wtop_ops.hpp:89-116, 366-371 -/
structure Emitter where
  slots : List Slot
  inputSlots : ℕ → Option ℕ
  wslots : ℕ → Option ℕ
  i32Slots : ℕ → Option ℕ
  dummySlotId : ℕ

/-- The emitter after the slot of the first input. SOURCE: wtop_emit.cpp:242-247 -/
def Emitter.start (g : Graph) (input : List UInt16) : Emitter :=
  ⟨[⟨.mainInput, input⟩], Function.update (fun _ => none) g.mainInputId (some 0), fun _ => none,
    fun _ => none, 0⟩

variable (g : Graph)

/-- The halves of a constant; one without data gets zeros. SOURCE: wtop_ops.hpp:317-341 -/
def Node.constSlot (w : Node) : List UInt16 :=
  if w.constSize / 4 = 0 then List.replicate 64 0 else w.data

/-- What a slot made for a weight holds. SOURCE: wtop_ops.hpp:273-341 -/
def weightData (w : Node) (consumerGrp : String) : List UInt16 :=
  match g.gguf with
  | none => w.constSlot
  | some tab =>
    match tab w.grouping with
    | some e => e.getD w.constSlot
    | none =>
      if consumerGrp = "" then w.constSlot
      else
        match tab consumerGrp with
        | some e => e.getD w.constSlot
        | none => w.constSlot

/-- SOURCE: wtop_ops.hpp, ensure_weight_slot -/
def ensureWeightSlot (em : Emitter) (id : ℕ) (w : Node) (consumerGrp : String) : ℕ × Emitter :=
  match em.wslots id with
  | some s => (s, em)
  | none => (em.slots.length,
      { em with
        slots := em.slots ++ [⟨.weight id, weightData g w consumerGrp⟩]
        wslots := Function.update em.wslots id (some em.slots.length) })

/-- SOURCE: wtop_ops.hpp, ensure_i32_slot -/
def ensureI32Slot (em : Emitter) (id : ℕ) (data : List UInt16) : ℕ × Emitter :=
  match em.i32Slots id with
  | some s => (s, em)
  | none => (em.slots.length,
      { em with
        slots := em.slots ++ [⟨.index id, data⟩]
        i32Slots := Function.update em.i32Slots id (some em.slots.length) })

/-- The shared slot of zeros, made when it is first needed. SOURCE: wtop_ops.hpp:400-405 -/
def dummySlot (em : Emitter) : ℕ × Emitter :=
  if em.dummySlotId = 0 then
    (em.slots.length,
      { em with
        slots := em.slots ++ [⟨.dummy, List.replicate 64 0⟩]
        dummySlotId := em.slots.length })
  else (em.dummySlotId, em)

/-- A reference to an input: a slot, or a temp. SOURCE: wtop_ops.hpp, src_ref -/
def srcRef (em : Emitter) (id : ℕ) : Option ℕ × Emitter :=
  if id = g.mainInputId then (some 0, em)
  else
    match em.inputSlots id with
    | some s => (some s, em)
    | none =>
      match g.node id with
      | none => let r := dummySlot em; (some r.1, r.2)
      | some p =>
        if p.isConst ∨ 0 < p.constSize then
          let r := ensureWeightSlot g em id p ""; (some r.1, r.2)
        else if p.phantom then let r := dummySlot em; (some r.1, r.2)
        else (none, em)

/-- What is done with slots before an operator is emitted. -/
inductive Call where
  | addSlot (data : List UInt16)
  | addInput (id : ℕ) (data : List UInt16)
  | aliasInput (id : ℕ)
  | srcRef (id : ℕ)
  | weight (id : ℕ) (consumerGrp : String)
  | index (id : ℕ) (data : List UInt16)

/-- One of these calls. SOURCE: wtop_emit.cpp:165-347, 402, wtop_ops.hpp:263-407 -/
def Emitter.call (em : Emitter) : Call → Emitter
  | .addSlot data => { em with slots := em.slots ++ [⟨.other, data⟩] }
  | .addInput id data =>
    { em with
      slots := em.slots ++ [⟨.input id, data⟩]
      inputSlots := Function.update em.inputSlots id (some em.slots.length) }
  | .aliasInput id => { em with inputSlots := Function.update em.inputSlots id (some 0) }
  | .srcRef id => (RmsnormOp.srcRef g em id).2
  | .weight id consumerGrp =>
    match g.node id with
    | none => em
    | some w => (ensureWeightSlot g em id w consumerGrp).2
  | .index id data => (ensureI32Slot em id data).2

def runCalls (input : List UInt16) (calls : List Call) : Emitter :=
  calls.foldl (Emitter.call g) (Emitter.start g input)

/-! ### Emission -/

/-- The operator: its inputs, its original name, and the number of elements of its output. -/
structure RmsnormNode where
  inputs : List ℕ
  grouping : String
  elems : ℕ

/-- The arguments without the two temps. SOURCE: op_rmsnorm.cpp:16 -/
structure RmsnormArgs where
  wS : ℕ
  bS : ℕ
  n : ℕ
  deriving DecidableEq, Repr

/-- The slot of an operand, or the id of the shared slot as it is. SOURCE: op_rmsnorm.cpp:11-14 -/
def operandSlot (em : Emitter) (od : RmsnormNode) (k : ℕ) : ℕ × Emitter :=
  match od.inputs[k]? with
  | none => (em.dummySlotId, em)
  | some id =>
    match g.node id with
    | none => (em.dummySlotId, em)
    | some w => ensureWeightSlot g em id w od.grouping

/-- The emitter when the operands are looked up: the reference to the input was written.
SOURCE: op_rmsnorm.cpp:10 -/
def afterInput (em : Emitter) (od : RmsnormNode) : Emitter :=
  match od.inputs[0]? with
  | none => em
  | some id => (srcRef g em id).2

/-- SOURCE: op_rmsnorm.cpp, op_rmsnorm -/
def opRmsnorm (em : Emitter) (od : RmsnormNode) : RmsnormArgs × Emitter :=
  let w := operandSlot g (afterInput g em od) od 1
  let b := operandSlot g w.2 od 2
  (⟨w.1, b.1, u32 od.elems⟩, b.2)

/-! ### Execution -/

/-- The operations on floats `F` and doubles `D`; `rms` divides a sum of squares by a width, adds
`1e-6` and takes the root. -/
structure FloatOps (F D : Type) where
  widen : UInt16 → F
  narrow : F → UInt16
  zero : F
  add : F → F → F
  mul : F → F → F
  div : F → F → F
  dzero : D
  addSquare : D → F → D
  rms : D → ℕ → F

section Execution

variable {F D : Type} (ops : FloatOps F D)

/-- The data of a slot; the first input is what the caller passes in.
SOURCE: oplist_exec.c:175-185, slot_ptr -/
def slotPtr (slots : List Slot) (input : List UInt16) (s : ℕ) : Option (List UInt16) :=
  (slots[s]?).map fun slot => if slot.use = .mainInput then input else slot.data

/-- One element of a row. Without a bias 0 is added. SOURCE: oplist_exec.c:1864-1867 -/
def rmsnormCell (x : Tensor) (wv : List UInt16) (bv : Option (List UInt16)) (rw r : ℕ) (rms : F)
    (i : ℕ) : Checked String (ℕ × UInt16) := do
  let h ← x.load (r * rw + i)
  let w ← entryAt wv i
  let b ← match bv with
    | none => .ok ops.zero
    | some bv => (entryAt bv i).map ops.widen
  .ok (r * rw + i, ops.narrow (ops.add (ops.mul (ops.div (ops.widen h) rms) (ops.widen w)) b))

/-- One row. SOURCE: oplist_exec.c:1857-1868 -/
def rmsnormRow (x : Tensor) (wv : List UInt16) (bv : Option (List UInt16)) (rw : ℕ)
    (y : List UInt16) (r : ℕ) : Checked String (List UInt16) := do
  let acc ← (List.range rw).foldlM (fun acc i =>
    (x.load (r * rw + i)).map fun h => ops.addSquare acc (ops.widen h)) ops.dzero
  fillLoop (rmsnormCell ops x wv bv rw r (ops.rms acc rw)) (List.range rw) y

/-- The rows are as wide as the slot of the weights is long; the slot ids lose their flag. The vector
path is left out: it is off by default and taken only if there is no slot for the bias.
SOURCE: oplist_exec.c, exec_rmsnorm2 -/
def execRmsnorm2 (slots : List Slot) (input : List UInt16) (args : RmsnormArgs) (x : Tensor)
    (old : ℕ → UInt16) : Checked String (List UInt16) :=
  let bv := slotPtr slots input (args.bS % 2 ^ 15)
  match slotPtr slots input (args.wS % 2 ^ 15), slots[args.wS % 2 ^ 15]? with
  | some wv, some slot =>
    let rw := u32 (2 * slot.data.length) / 2
    if rw = 0 ∨ args.n % rw ≠ 0 then .error (.reject "rmsnorm2 shape n%u rw%u")
    else
      (List.range (args.n / rw)).foldlM (rmsnormRow ops x wv bv rw) (tempGet old (args.n * 2))
  | _, _ => .error (.reject "rmsnorm2 ref fail")

end Execution

end Gehtp.Model.RmsnormOp
