import Mathlib.Data.UInt
import Gehtp.Model.OplistExec

/-!
# The op handlers

One definition per `exec_*` function of `kernels/src/runtime/oplist_exec.c`, in
the order of the source, and the dispatch table. Most handlers resolve their
references, allocate their output temp and give up with one error text if any of
these is NULL; they are written as `refsThenTemp` applied to their own arguments.
The handlers that index the slot table or the temp tables themselves keep their
own bodies.
-/

set_option autoImplicit false

namespace Gehtp.Model.OplistHandlers

open Lib.Machine Model.OplistParse Model.OplistExec

variable (env : Env) (b : WtBlob) (op : WtOp)

/-- A kernel, transfer or fence whose result the handler checks. -/
def kernel (msg : String) : Exec Unit := do
  let ok ← ask env.kernelOk
  guard (ok = true) msg

/-- Resolve references, then allocate the output temp; one error for all. -/
def refsThenTemp (refs : List (Exec (Option ℕ))) (out bytes : UInt32) (msg : String) :
    Exec Unit := do
  let ps ← collect (fun m => m) refs
  let y ← tempGet env out bytes
  guard (ps.all Option.isSome = true ∧ y.isSome = true) msg

/-- Resolve references with one error, then allocate the output temp with
another. -/
def refsBeforeTemp (refs : List (Exec (Option ℕ))) (refMsg : String) (out bytes : UInt32)
    (outMsg : String) : Exec Unit := do
  let ps ← collect (fun m => m) refs
  guard (ps.all Option.isSome = true) refMsg
  let y ← tempGet env out bytes
  guard (y.isSome = true) outMsg

/-- The supply faces of a W4 matmul that were found so far. -/
structure Supply where
  bias : Bool
  atbl : Bool
  otbl : Bool
  deriving DecidableEq, Repr

/-- One round of the supply search. SOURCE: oplist_exec.c:449-455 -/
def supplyStep (biasB tblB : UInt32) (s : Supply) (slot : WtSlot) : Supply :=
  if s.bias = false ∧ slot.len = biasB then { s with bias := true }
  else if s.atbl = false ∧ slot.len = tblB then { s with atbl := true }
  else if s.otbl = false ∧ slot.len = tblB then { s with otbl := true }
  else s

/-- The supply faces are claimed by size from the slot table.
SOURCE: oplist_exec.c:443-456 -/
def supplyFound : Bool :=
  let s := b.slots.foldl (supplyStep ((arg op 5 / 32) * 512) (8 * (arg op 4 / 32) * 4))
    ⟨false, false, false⟩
  s.bias && s.atbl && s.otbl

/-- The activation slot of a matmul is checked unless it is prestaged in VTCM.
SOURCE: oplist_exec.c:460-463 -/
def checkActSlot : Exec Unit :=
  if arg op 0 &&& 0x4000 = 0 then do
    let s ← slotAt b (arg op 0).toNat
    guard (s.len = arg op 3 * arg op 4 * 2) "act slot size mismatch"
  else pure ()

/-- Open the VTCM manager for the engine; it counts as ready only once carved.
SOURCE: oplist_exec.c:468-477 -/
def openEngine : Exec Unit := do
  let ready ← read (·.engineReady)
  if ready then pure ()
  else do
    let ok ← ask env.wtcacheOpen
    guard (ok = true) "wtcache 0x%X"

/-- Open the engine and carve its arena on first use.
SOURCE: oplist_exec.c:467-493 -/
def carveMatmul : Exec Unit := do
  let carved ← read (·.matmulCarved)
  if carved then pure ()
  else do
    openEngine env
    let fits ← ask env.w4Carve
    guard (fits = true) "carve m%u k%u n%u"
    update fun s => { s with
      engineReady := true
      matmulCarved := true
      engM := arg op 3
      engK := arg op 4
      engN := arg op 5 }

/-- Run the engine on a prestaged activation, or fetch it from its slot first.
SOURCE: oplist_exec.c:501-533 -/
def invokeMatmul : Exec Unit :=
  if arg op 0 &&& 0x4000 ≠ 0 then do
    let act ← refPtr env b (arg op 0)
    let st ← read id
    guard (act.any fun p => ptrInVtcm st p && decide (p % 2048 = 0)) "dma-prestaged act bad"
    kernel env "invoke"
  else do
    let _ ← slotAt b (arg op 0).toNat
    kernel env "dma/invoke"

/-- SOURCE: oplist_exec.c:438-534 -/
def execMatmul : Exec Unit := do
  guard (supplyFound b op = true) "supply slots missing (bias/atbl/otbl)"
  checkActSlot b op
  let w ← slotAt b (arg op 1).toNat
  guard (w.len = arg op 4 * arg op 5 / 2) "w slot size mismatch"
  carveMatmul env op
  let out ← tempGet env (arg op 2) (arg op 3 * arg op 5 * 2)
  guard (out.isSome = true) "temp %u alloc"
  let _ ← slotAt b (arg op 1).toNat
  invokeMatmul env b op

/-- SOURCE: oplist_exec.c:559-591 -/
def execRmsnorm (m : UInt32) : Exec Unit := do
  let x ← tempEntry (·.temps) (arg op 0).toNat
  guard (x.isSome = true) "rmsnorm src temp %u empty"
  let w ← slotAt b (arg op 1).toNat
  guard (w.len = arg op 3 * 2) "rms w slot len mismatch"
  guard (m ≠ 0 ∧ m % 32 = 0 ∧ arg op 3 % 32 = 0) "rms shape m%u n%u"
  let rows ← ask (env.memalign · (m * arg op 3 * 2))
  let wf ← ask (env.memalign · (arg op 3 * 4))
  let xf ← ask (env.memalign · (arg op 3 * 4))
  let y ← tempGet env (arg op 2) (m * arg op 3 * 2)
  guard (rows.isSome = true ∧ wf.isSome = true ∧ xf.isSome = true ∧ y.isSome = true) "rms alloc"
  let _ ← slotAt b (arg op 1).toNat
  let _ ← tempEntry (·.temps) (arg op 0).toNat
  pure ()

/-- SOURCE: oplist_exec.c:594-610 -/
def execSilu : Exec Unit := do
  let x ← tempEntry (·.temps) (arg op 0).toNat
  guard (x.isSome = true) "silu src temp %u empty"
  let n ← tempEntry (·.tempBytes) (arg op 0).toNat
  guard (n = arg op 2 * 2) "silu n_elem mismatch (%u vs face %u)"
  let y ← tempGet env (arg op 1) (arg op 2 * 2)
  guard (y.isSome = true) "silu temp %u alloc"
  let _ ← tempEntry (·.temps) (arg op 0).toNat
  pure ()

/-- SOURCE: oplist_exec.c:615-645 -/
def execIm2col : Exec Unit :=
  refsBeforeTemp env [refPtr env b (arg op 0)] "im2col act ref empty" (arg op 1)
    (arg op 13 * arg op 14 * (arg op 5 * arg op 6 * arg op 4) * 2) "im2col temp alloc"

/-- SOURCE: oplist_exec.c:761-800 -/
def execConv2d : Exec Unit := do
  let cols ← refPtr env b (arg op 0)
  let wp ← slotPtr env b (arg op 1).toNat
  let bp ← slotPtr env b (arg op 2).toNat
  guard (cols.isSome = true ∧ wp.isSome = true ∧ bp.isSome = true) "conv2d ref empty"
  let w ← slotAt b (arg op 1).toNat
  let bias ← slotAt b (arg op 2).toNat
  guard (w.len = arg op 5 * arg op 6 * 2 ∧ bias.len = arg op 6 * 2) "conv2d w/b slot size mismatch"
  let out ← tempGet env (arg op 3) (arg op 9 * arg op 10 * arg op 6 * 2)
  guard (out.isSome = true) "conv2d temp alloc"

/-- SOURCE: oplist_exec.c:807-831 -/
def execAdd : Exec Unit :=
  refsBeforeTemp env [refPtr env b (arg op 0), refPtr env b (arg op 1)] "add ref empty"
    (arg op 2) (arg op 3 * 2) "add temp alloc"

/-- The check of a pool range against the length of its slot, in 32-bit
arithmetic. -/
def poolRange (slotArg off bytes : UInt32) (msg : String) : Exec Unit := do
  let pool ← slotPtr env b slotArg.toNat
  guard (pool.isSome = true) msg
  let s ← slotAt b slotArg.toNat
  guard (off + bytes ≤ s.len) msg

/-- The copy between a pool and `p`: by DMA between two DDR ends of whole 8-byte
words, by the CPU otherwise. SOURCE: oplist_exec.c:835-848, 860-861 -/
def poolCopy (p : Option ℕ) (bytes : UInt32) : Exec Unit := do
  let st ← read id
  if p.all (fun a => !ptrInVtcm st a) = true ∧ bytes &&& 7 = 0 ∧ bytes ≠ 0 then kernel env ""
  else pure ()

/-- SOURCE: oplist_exec.c:849-863 -/
def execSpill : Exec Unit := do
  let src ← refPtr env b (arg op 0)
  guard (src.isSome = true) "spill src empty"
  poolRange env b (arg op 1) (arg op 2) (arg op 3 * 2) "spill pool oob"
  poolCopy env src (arg op 3 * 2)

/-- The destination of a fill: a flagged slot or a temp. -/
def fillDst : Exec (Option ℕ) :=
  if arg op 2 &&& 0x8000 ≠ 0 then slotPtr env b (arg op 2 &&& 0x7FFF).toNat
  else tempGet env (arg op 2) (arg op 3 * 2)

/-- SOURCE: oplist_exec.c:864-884 -/
def execFill : Exec Unit := do
  poolRange env b (arg op 0) (arg op 1) (arg op 3 * 2) "fill pool oob"
  let dst ← fillDst env b op
  guard (dst.isSome = true) "fill dst empty"
  poolCopy env dst (arg op 3 * 2)

/-- Capacity of an engine surface in bytes. SOURCE: oplist_exec.c:894-900 -/
def engCap (st : ExecState) (surface : UInt32) : Option UInt32 :=
  match surface.toNat with
  | 0 => some (st.engM * st.engK * 2)
  | 1 => some (st.engM * st.engN * 2)
  | 2 => some (st.engK * st.engN / 2)
  | 3 => some ((st.engN / 32) * 512)
  | _ => none

/-- Whether an address that passed its bounds check is in VTCM. -/
def memKind (ok : Bool) (p : Option ℕ) (st : ExecState) : Option Bool :=
  if ok then p.map (ptrInVtcm st) else none

/-- A flagged slot as a DMA end. SOURCE: oplist_exec.c:906-911 -/
def dmaSlot (s : ℕ) (off bytes : UInt32) : Exec (Option Bool) := do
  let sp ← slotPtr env b s
  if sp.isSome = true ∧ s < b.slots.length then do
    let slot ← slotAt b s
    read (memKind (decide (off.toNat + bytes.toNat ≤ slot.len.toNat)) (sp.map (· + off.toNat)))
  else pure none

/-- A VTCM resident as a DMA end. SOURCE: oplist_exec.c:912-920 -/
def dmaVtcm (t : ℕ) (off bytes : UInt32) : Exec (Option Bool) :=
  if t < maxTemps then do
    let base ← tempEntry (·.vtcmOffArr) t
    if base = noOffset then pure none
    else do
      let pool ← vtcmPoolEnsure env
      let size ← read (·.vtcmPoolSize)
      pure (if pool.isSome = true ∧ base.toNat + off.toNat + bytes.toNat ≤ size.toNat then some true
        else none)
  else pure none

/-- A temp as a DMA end. SOURCE: oplist_exec.c:921-932 -/
def dmaTemp (t off bytes : UInt32) (isDst : Bool) : Exec (Option Bool) :=
  if maxTemps ≤ t.toNat then pure none
  else if isDst then do
    let p ← tempGet env t (off + bytes)
    read (memKind true (p.map (· + off.toNat)))
  else do
    let p ← tempEntry (·.temps) t.toNat
    let n ← tempEntry (·.tempBytes) t.toNat
    read (memKind (decide (off.toNat + bytes.toNat ≤ n.toNat)) (p.map (· + off.toNat)))

/-- Resolve one end of a DMA to the kind of its memory (`true` for VTCM); `none`
is the source's NULL. SOURCE: oplist_exec.c:886-935 -/
def dmaRefResolve (r off bytes : UInt32) (isDst : Bool) : Exec (Option Bool) :=
  if r &&& 0xC000 = 0xC000 then
    read fun st =>
      if st.matmulCarved = true ∧
        (engCap st (r &&& 0xFF)).any (fun cap => decide (off.toNat + bytes.toNat ≤ cap.toNat)) = true
      then some true
      else none
  else if r &&& 0x8000 ≠ 0 then dmaSlot env b (r &&& 0x7FFF).toNat off bytes
  else if r &&& 0x4000 ≠ 0 then dmaVtcm env (r &&& 0x3FFF).toNat off bytes
  else dmaTemp env r off bytes isDst

/-- A fence, unless the op asks for none. -/
def dmaFence (f : UInt32) (msg : String) : Exec Unit :=
  if f = wtDmaFenceNone then pure () else kernel env msg

/-- The transfer itself: the CPU copies inside VTCM and odd sizes, the DMA engine
the rest. SOURCE: oplist_exec.c:954-973 -/
def dmaTransfer (src dst : Option Bool) (bytes : UInt32) : Exec Unit :=
  if (src = some true ∧ dst = some true) ∨ bytes &&& 7 ≠ 0 then pure ()
  else do
    kernel env "dma desc alloc"
    kernel env "dma 0x%X"

/-- SOURCE: oplist_exec.c:937-980 -/
def execDma : Exec Unit :=
  if arg op 2 = 0 then pure ()
  else do
    guard (¬ ((3 < arg op 6 ∧ arg op 6 ≠ wtDmaFenceNone) ∨
      (3 < arg op 7 ∧ arg op 7 ≠ wtDmaFenceNone))) "dma fence arg bad"
    let src ← dmaRefResolve env b (arg op 0) (arg op 3) (arg op 2) false
    let dst ← dmaRefResolve env b (arg op 1) (arg op 4) (arg op 2) true
    guard (src.isSome = true ∧ dst.isSome = true) "dma ref fail"
    dmaFence env (arg op 6) "dma fence src combo"
    dmaTransfer env src dst (arg op 2)
    dmaFence env (arg op 7) "dma fence dst combo"

/-- SOURCE: oplist_exec.c:983-1009 -/
def execTranspose : Exec Unit :=
  refsBeforeTemp env [refPtr env b (arg op 0)] "transpose src ref empty" (arg op 1)
    (arg op 2 * arg op 3 * arg op 4 * 2) "transpose temp alloc"

/-- SOURCE: oplist_exec.c:1013-1079 -/
def execUnary : Exec Unit := do
  refsThenTemp env [refPtr env b (arg op 0)] (arg op 1) (arg op 2 * 2) "unary ref fail"
  guard (arg op 2 = 0 ∨ arg op 3 ≤ 16) "unary unknown subtype %u"

/-- The three-operand form of the binary op: the output has as many elements as
the largest operand. SOURCE: oplist_exec.c:1085-1113 -/
def execSelect : Exec Unit := do
  let c ← refPtr env b (arg op 0)
  let tv ← refPtr env b (arg op 1)
  let fv ← refPtr env b (arg op 2)
  let cn ← refElemCount b (arg op 0)
  let an ← refElemCount b (arg op 1)
  let fn ← refElemCount b (arg op 2)
  let n := max fn (max cn an)
  let y ← tempGet env (arg op 3) (n * 2)
  guard (c.isSome = true ∧ tv.isSome = true ∧ fv.isSome = true ∧ y.isSome = true ∧ n ≠ 0)
    "select ref fail"

/-- SOURCE: oplist_exec.c:1081-1161 -/
def execBinary : Exec Unit :=
  if arg op 4 = 8 then execSelect env b op
  else refsThenTemp env [refPtr env b (arg op 0), refPtr env b (arg op 1)] (arg op 2)
    (arg op 3 * 2) "binary ref fail"

/-- SOURCE: oplist_exec.c:1163-1194 -/
def execSoftmax : Exec Unit :=
  refsThenTemp env [refPtr env b (arg op 0)] (arg op 1) (arg op 2 * arg op 3 * 2)
    "softmax ref fail"

/-- The sizes of the first segments, at most four. -/
def segSizes (first n : ℕ) : List UInt32 := (List.range (min n 4)).map fun i => arg op (first + i)

/-- SOURCE: oplist_exec.c:1196-1220 -/
def execConcat : Exec Unit := do
  let totalAxis := (segSizes op 12 (arg op 10).toNat).sum
  guard (totalAxis ≠ 0 ∧ arg op 11 % totalAxis = 0) "concat shape"
  let y ← tempGet env (arg op 8) (arg op 11 * 2)
  guard (y.isSome = true) "concat out fail"
  let _ ← collect (fun k => do
    let x ← refPtr env b (arg op k)
    guard (x.isSome = true) "concat in fail") (List.range (min (arg op 10).toNat 4))
  pure ()

/-- The element count of the split input, known for plain temps only. -/
def splitElems : Exec UInt32 :=
  if arg op 0 &&& 0x8000 = 0 ∧ (arg op 0).toNat < maxTemps then do
    let n ← tempEntry (·.tempBytes) (arg op 0).toNat
    pure (n / 2)
  else pure 0

/-- The segment that this op writes, if its index is one of the segments. -/
def splitWrite (outer : UInt32) : Exec Unit :=
  if (arg op 15).toNat < min (arg op 10).toNat 4 then do
    let y ← tempGet env (arg op 1) (outer * arg op (11 + (arg op 15).toNat) * 2)
    guard (y.isSome = true) "split out fail"
  else pure ()

/-- SOURCE: oplist_exec.c:1222-1256 -/
def execSplit : Exec Unit := do
  let x ← refPtr env b (arg op 0)
  guard (x.isSome = true) "split in fail"
  let totalAxis := (segSizes op 11 (arg op 10).toNat).sum
  guard (totalAxis ≠ 0) "split shape"
  let xElems ← splitElems op
  guard (xElems ≠ 0) "split x size"
  splitWrite env op (xElems / totalAxis)

/-- The product of the dims after the reduced axis. -/
def reduceInner : UInt32 :=
  ((List.range 4).filter (fun a => decide ((arg op 3).toNat < a))).foldl
    (fun p a => p * arg op (5 + a)) 1

/-- The reduced dim, 1 for an empty one. -/
def reduceLen : UInt32 :=
  let l := arg op (5 + (arg op 3).toNat)
  if l = 0 then 1 else l

/-- SOURCE: oplist_exec.c:1258-1299 -/
def execReduce : Exec Unit := do
  let x ← refPtr env b (arg op 0)
  guard (x.isSome = true) "reduce in fail"
  guard (arg op 3 < 4 ∧ arg op 4 ≤ 3) "reduce axis/subtype bad (axis=%u sub=%u)"
  let inner := reduceInner op
  let len := reduceLen op
  guard (len.toNat * inner.toNat ≠ 0 ∧ arg op 2 % (len * inner) = 0)
    "reduce geom (n=%u L=%u inner=%u)"
  let y ← tempGet env (arg op 1) (arg op 2 / (len * inner) * inner * 2)
  guard (y.isSome = true) "reduce out fail"

/-- SOURCE: oplist_exec.c:1301-1318 -/
def execPad : Exec Unit := do
  refsThenTemp env [refPtr env b (arg op 0)] (arg op 1) (arg op 2 * arg op 4 * 2) "pad ref fail"
  guard (arg op 5 + arg op 3 ≤ arg op 4) "pad geom"

/-- SOURCE: oplist_exec.c:1320-1347 -/
def execCumsum : Exec Unit :=
  refsThenTemp env [refPtr env b (arg op 0)] (arg op 1) (arg op 2 * arg op 3 * 2)
    "cumsum ref fail"

/-- SOURCE: oplist_exec.c:1349-1376 -/
def execConv1dSsm : Exec Unit :=
  refsThenTemp env [refPtr env b (arg op 0), slotPtr env b (arg op 1).toNat] (arg op 2)
    (arg op 3 * arg op 4 * 2) "ssm ref fail"

/-- SOURCE: oplist_exec.c:1378-1432 -/
def execGather : Exec Unit := do
  refsThenTemp env [refPtr env b (arg op 0), refPtr env b (arg op 1)] (arg op 2) (arg op 3 * 2)
    "gather ref fail"
  let axis := arg op 4 &&& 0xFF
  let xrank := (arg op 4 >>> 8) &&& 0xFF
  let irank := (arg op 4 >>> 16) &&& 0xFF
  guard (axis < irank ∧ irank ≤ 5 ∧ xrank ≤ 5 ∧ xrank ≠ 0)
    "gather axis/rank bad (a=%u x=%u i=%u)"

/-- SOURCE: oplist_exec.c:1438-1471 -/
def execScatterNd : Exec Unit := do
  refsThenTemp env [refPtr env b (arg op 0), refPtr env b (arg op 1), refPtr env b (arg op 2)]
    (arg op 3) (arg op 4 * 2) "scatter_nd ref fail"
  guard (1 ≤ arg op 5 ∧ arg op 5 ≤ 5 ∧ 1 ≤ arg op 11 ∧ arg op 11 ≤ arg op 5) "scatter_nd rank/K"

/-- The number of batches in the flags of a matmul, at least 1. -/
def batchCount (flags : UInt32) : UInt32 := if flags >>> 16 = 0 then 1 else flags >>> 16

/-- The whole-op form of the f16 matmul. SOURCE: oplist_exec.c:1709-1812 -/
def execMatmulF16 : Exec Unit :=
  refsThenTemp env [refPtr env b (arg op 0), refPtr env b (arg op 1)] (arg op 2)
    (arg op 3 * arg op 5 * batchCount (arg op 6) * 2) "matmul_f16 ref fail"

/-- The column-chunk form of the f16 matmul; a chunk that cannot use the engine
of the chunks before it is an error. SOURCE: oplist_exec.c:1709-1812 -/
def execMatmulF16Split : Exec Unit := do
  refsThenTemp env [refPtr env b (arg op 0), refPtr env b (arg op 1)] (arg op 2)
    (arg op 3 * arg op 5 * batchCount (arg op 8) * 2) "matmul_f16 ref fail"
  kernel env "matmul_f16 split"

/-- SOURCE: oplist_exec.c:1817-1871 -/
def execRmsnorm2 : Exec Unit := do
  let wS := (arg op 1 &&& 0x7FFF).toNat
  let x ← refPtr env b (arg op 0)
  let wv ← slotPtr env b wS
  let _ ← slotPtr env b (arg op 2 &&& 0x7FFF).toNat
  let y ← tempGet env (arg op 3) (arg op 4 * 2)
  guard (x.isSome = true ∧ wv.isSome = true ∧ y.isSome = true) "rmsnorm2 ref fail"
  let w ← slotAt b wS
  guard (w.len / 2 ≠ 0 ∧ arg op 4 % (w.len / 2) = 0) "rmsnorm2 shape n%u rw%u"

/-- SOURCE: oplist_exec.c:1876-1907 -/
def execBroadcast : Exec Unit := do
  let x ← refPtr env b (arg op 0)
  let y ← tempGet env (arg op 1) (arg op 2 * 2)
  guard (x.isSome = true ∧ y.isSome = true ∧ arg op 3 ≠ 0) "broadcast ref fail"

/-- SOURCE: oplist_exec.c:1910-1948 -/
def execTransposeGen : Exec Unit := do
  let x ← refPtr env b (arg op 0)
  guard (2 ≤ arg op 2 ∧ arg op 2 ≤ 4) "transpose_gen rank %u"
  let n := (List.range (arg op 2).toNat).foldl (fun p i => p * arg op (3 + i)) 1
  let y ← tempGet env (arg op 1) (n * 2)
  guard (x.isSome = true ∧ y.isSome = true) "transpose_gen ref fail"

/-- SOURCE: oplist_exec.c:1950-1988 -/
def execSlice : Exec Unit := do
  refsThenTemp env [refPtr env b (arg op 0)] (arg op 1) (arg op 2 * 2) "slice ref fail"
  guard (1 ≤ arg op 3 ∧ arg op 3 ≤ 3) "slice rank %u"

/-- SOURCE: oplist_exec.c:1990-2004 -/
def execArgmax : Exec Unit :=
  refsThenTemp env [refPtr env b (arg op 0)] (arg op 1) 4 "argmax ref fail"

/-- Lay out the ring of a KV state on first use. SOURCE: oplist_exec.c:2126-2143 -/
def kvcInit (i : ℕ) (slotBytes : UInt32) : Exec Unit := do
  let total ← read fun s => s.stBytes i
  guard (256 ≤ slotBytes ∧ slotBytes &&& 127 = 0 ∧ total % slotBytes = 0)
    "kv state %u geometry bad (slot=%u total=%u)"
  let posmap ← ask (env.memalign · (total / slotBytes * 4))
  guard (posmap.isSome = true) "kv posmap alloc"
  kernel env "kvc_init state %u"
  update fun s => { s with
    kvcReady := Function.update s.kvcReady i true
    kvcSlotBytes := Function.update s.kvcSlotBytes i slotBytes
    kvcNslots := Function.update s.kvcNslots i (total / slotBytes) }

/-- The KV ring behind a state reference; the result is the state's index.
SOURCE: oplist_exec.c:2119-2151 -/
def stateKvc (stateRef kvElems : UInt32) : Exec ℕ := do
  guard (stateRef &&& 0xE000 = 0x6000) "kv state_ref not 0x6000|idx (0x%X)"
  let i := (stateRef &&& 0x1FFF).toNat
  let st ← read id
  guard (i < st.nStates) "kv state idx %u oob"
  let slotBytes := kvElems * 2 * 2
  if st.kvcReady i then do
    guard (st.kvcSlotBytes i = slotBytes) "kv state %u slot_bytes mismatch (%u vs %u)"
    pure i
  else do
    kvcInit env i slotBytes
    pure i

/-- With the automatic position an append takes its position from the state's own
counter. SOURCE: oplist_exec.c:2166-2173 -/
def appendPos (i : ℕ) : Exec Unit :=
  if arg op 3 = wtKvPosAuto then do
    let st ← read id
    guard (st.stCount i < st.kvcNslots i) "kv append state %u count=%u >= nslots=%u"
    update fun s => { s with stCount := Function.update s.stCount i (s.stCount i + 1) }
  else pure ()

/-- SOURCE: oplist_exec.c:2154-2177 -/
def execKvAppend : Exec Unit := do
  let k ← refPtr env b (arg op 0)
  let v ← refPtr env b (arg op 1)
  let kn ← refElemCount b (arg op 0)
  let vn ← refElemCount b (arg op 1)
  guard (k.isSome = true ∧ v.isSome = true ∧ kn ≠ 0 ∧ kn = vn) "kv append ref fail"
  let i ← stateKvc env (arg op 2) kn
  appendPos op i
  kernel env "kvc_append"

/-- The positions a gather covers: the counter and the ring size for the
automatic form. SOURCE: oplist_exec.c:2196-2206 -/
def gatherStride (i : ℕ) : Exec UInt32 :=
  if arg op 3 = wtKvPosAuto then do
    let st ← read id
    guard (st.stCount i ≠ 0 ∧ st.stCount i ≤ st.kvcNslots i) "kv gather state %u count=%u bad"
    pure (st.kvcNslots i)
  else pure (arg op 3)

/-- One face of a KV gather; temp 0 stands for a face that is skipped. -/
def gatherFace (t bytes : UInt32) : Exec Unit :=
  if t = 0 then pure ()
  else do
    let p ← tempGet env t bytes
    guard (p.isSome = true) "kv gather out alloc"

/-- SOURCE: oplist_exec.c:2183-2231 -/
def execKvGather : Exec Unit := do
  guard (arg op 4 ≠ 0 ∧ arg op 5 ≠ 0 ∧ arg op 6 ≠ 0 ∧ arg op 4 % arg op 5 = 0)
    "kv gather gqa bad (h=%u kvh=%u hd=%u)"
  let i ← stateKvc env (arg op 0) (arg op 5 * arg op 6)
  let pstride ← gatherStride op i
  gatherFace env (arg op 1) (arg op 4 * arg op 6 * pstride * 2)
  gatherFace env (arg op 2) (arg op 4 * pstride * arg op 6 * 2)
  kernel env "kv gather miss pos %u (state bug)"

/-- A persistent state of at least `need` bytes. -/
def stateAtLeast (stateRef : UInt32) (need : ℕ) (refMsg sizeMsg : String) : Exec Unit := do
  guard (stateRef &&& 0xE000 = 0x6000) refMsg
  let i := (stateRef &&& 0x1FFF).toNat
  let st ← read id
  guard (i < st.nStates ∧ need ≤ (st.stBytes i).toNat) sizeMsg

/-- SOURCE: oplist_exec.c:2235-2257 -/
def execConv1dSsmStep : Exec Unit := do
  let x ← refPtr env b (arg op 0)
  let w ← refPtr env b (arg op 1)
  let y ← tempGet env (arg op 2) (arg op 4 * 2)
  guard (x.isSome = true ∧ y.isSome = true ∧ w.isSome = true) "ssm step ref fail"
  let wSlot ← slotAt b (arg op 1 &&& 0x7FFF).toNat
  guard (wSlot.len = arg op 5 * arg op 4 * 2) "ssm step w slot len mismatch"
  guard (2 ≤ arg op 5 ∧ arg op 4 ≠ 0) "ssm step shape C=%u dc=%u"
  stateAtLeast (arg op 3) ((arg op 5 - 1).toNat * (arg op 4).toNat * 4) "ssm step state_ref bad"
    "ssm step state %u too small"
  kernel env "conv1d_step_f16"

/-- SOURCE: oplist_exec.c:2261-2290 -/
def execDeltaChunk : Exec Unit := do
  refsThenTemp env [refPtr env b (arg op 0), refPtr env b (arg op 1), refPtr env b (arg op 2),
    refPtr env b (arg op 3), refPtr env b (arg op 4)] (arg op 5)
    (arg op 9 * arg op 8 * arg op 10 * 2) "delta ref fail"
  guard (arg op 9 ≠ 0 ∧ arg op 10 ≠ 0 ∧ arg op 8 ≠ 0 ∧ arg op 7 ≠ 0 ∧ arg op 7 ≤ arg op 8 ∧
    arg op 7 ≤ gdnCMax) "delta shape (c=%u ntok=%u H=%u D=%u)"
  stateAtLeast (arg op 6) ((arg op 9).toNat * (arg op 10).toNat * (arg op 10).toNat * 4)
    "delta state_ref bad" "delta state %u too small"
  kernel env "delta_chunk_f16"

/-- SOURCE: oplist_exec.c:2310-2327 -/
def xopPin : Exec Unit := do
  guard ((arg op 0).toNat < b.slots.length) "pin slot oob"
  let ready ← read (·.engineReady)
  if ready then do
    let _ ← slotAt b (arg op 0).toNat
    pure ()
  else pure ()

/-- The dispatch table; `engineM` is the row count of the last W4 matmul, which
only `exec_rmsnorm` reads. SOURCE: oplist_exec.c:2462-2498 -/
def execOp (engineM : UInt32) : Exec Unit :=
  match op.opcode with
  | .nop => pure ()
  | .pin => xopPin b op
  | .matmulW4A16 => execMatmul env b op
  | .rmsnormF16 => execRmsnorm env b op engineM
  | .siluF16 => execSilu env op
  | .im2col => execIm2col env b op
  | .conv2dF16 => execConv2d env b op
  | .addF16 => execAdd env b op
  | .spill => execSpill env b op
  | .fill => execFill env b op
  | .dma => execDma env b op
  | .padF16 => execPad env b op
  | .transposeF16 => execTranspose env b op
  | .unaryF16 => execUnary env b op
  | .binaryF16 => execBinary env b op
  | .softmaxF16 => execSoftmax env b op
  | .concatF16 => execConcat env b op
  | .stridedSliceF16 => execSlice env b op
  | .splitF16 => execSplit env b op
  | .reduceF16 => execReduce env b op
  | .cumsumF32 => execCumsum env b op
  | .conv1dSsmF16 => execConv1dSsm env b op
  | .gatherF16 => execGather env b op
  | .scatterNdF16 => execScatterNd env b op
  | .argmaxF16 => execArgmax env b op
  | .kvAppendF16 => execKvAppend env b op
  | .kvGatherF16 => execKvGather env op
  | .matmulF16 => execMatmulF16 env b op
  | .matmulF16Split => execMatmulF16Split env b op
  | .rmsnorm2F16 => execRmsnorm2 env b op
  | .broadcastF16 => execBroadcast env b op
  | .transposeGenF16 => execTransposeGen env b op
  | .conv1dSsmStepF16 => execConv1dSsmStep env b op
  | .deltaChunkF16 => execDeltaChunk env b op

end Gehtp.Model.OplistHandlers
