import Gehtp.Model.TempEmit

/-!
# The handlers of the emitter

What each handler under `compiler/tools/wtop_ops` does with temps has one of six forms. All of
them write to temps that they asked for themselves, never to those of their inputs.
-/

set_option autoImplicit false

namespace Gehtp.Model.TempHandlers

open Model.OpGraph Model.TempEmit

/-- The form of a handler for one operator. The inputs that are read, the sizes of the writes and
the inputs that are materialised depend on the operator. -/
inductive HandlerForm where
  /-- One output, written by one device op or by several in chunks: op_concat, op_copy_sem, op_pad,
  op_cumsum, op_decode_face, op_kv_gather, op_conv1d_ssm_step, op_delta_chunk, op_dwconv,
  op_gather, op_isnan, op_matmul, op_reduce, op_rmsnorm, op_scatter_nd, op_softmax, op_split,
  op_strided_slice, op_transpose, op_unary. -/
  | plain (reads writes : List ℕ)
  /-- op_eltwise_binary -/
  | binary (a b : Bool)
  /-- op_eltwise_ternary -/
  | ternary (a b c : Bool)
  /-- op_conv2d, with the sizes of its tiles -/
  | conv2d (tiles : List (ℕ × ℕ))
  /-- op_kv_append: it asks for a temp and writes to none. -/
  | append (reads : List ℕ)
  /-- op_split into no segments: it asks for no temp. -/
  | noOutput (reads : List ℕ)

/-- SOURCE: op_matmul.cpp:11-97 and the others -/
def plainSteps (reads writes : List ℕ) : List HandlerStep :=
  .fresh 0 :: writes.map fun bytes => .addOp (reads.map .input) (some (.out 0, bytes))

theorem plainSteps_once (reads writes : List ℕ) : (freshOuts (plainSteps reads writes)).Nodup := by
  have houts : freshOuts (plainSteps reads writes) = [0] := by
    simp [freshOuts, plainSteps]
  rw [houts]
  exact List.nodup_singleton 0

/-- SOURCE: op_eltwise_ternary.cpp:8-51 -/
def ternarySteps (od : OpDef) (a b c : Bool) : List HandlerStep :=
  .fresh 0 :: (if a then materialize od 0 6 else []) ++ (if b then materialize od 1 7 else []) ++
    (if c then materialize od 2 8 else []) ++
    [.addOp [if a then .out 6 else .input 0, if b then .out 7 else .input 1,
      if c then .out 8 else .input 2] (some (.out 0, f16Bytes (elemsOf od)))]

theorem ternarySteps_once (od : OpDef) (a b c : Bool) :
    (freshOuts (ternarySteps od a b c)).Nodup := by
  cases a <;> cases b <;> cases c <;> simp [freshOuts, ternarySteps, materialize]

/-- SOURCE: op_decode_state.cpp:53-65 -/
def appendSteps (reads : List ℕ) : List HandlerStep :=
  [.fresh 0, .addOp (reads.map .input) none]

theorem appendSteps_once (reads : List ℕ) : (freshOuts (appendSteps reads)).Nodup :=
  List.nodup_singleton 0

/-- SOURCE: op_split.cpp:14-28 -/
def noOutputSteps (reads : List ℕ) : List HandlerStep := [.addOp (reads.map .input) none]

theorem noOutputSteps_once (reads : List ℕ) : (freshOuts (noOutputSteps reads)).Nodup :=
  List.nodup_nil

/-- What a handler does for an operator. -/
def HandlerForm.recipe (od : OpDef) : HandlerForm → Recipe
  | .plain reads writes => ⟨plainSteps reads writes, plainSteps_once reads writes⟩
  | .binary a b => ⟨binarySteps od a b, binarySteps_once od a b⟩
  | .ternary a b c => ⟨ternarySteps od a b c, ternarySteps_once od a b c⟩
  | .conv2d tiles => opConv2d tiles
  | .append reads => ⟨appendSteps reads, appendSteps_once reads⟩
  | .noOutput reads => ⟨noOutputSteps reads, noOutputSteps_once reads⟩

/-- The registry, from the forms that the handlers take. -/
def formRegistry (forms : String → Option (OpDef → Option HandlerForm)) :
    String → Option (OpDef → Option Recipe) := fun name =>
  (forms name).map fun handler od => (handler od).map (HandlerForm.recipe od)

/-- A device op of a handler writes to a temp of its own. -/
def WritesOwn (steps : List HandlerStep) : Prop :=
  ∀ reads r bytes, .addOp reads (some (r, bytes)) ∈ steps → ∀ i, r ≠ .input i

theorem recipe_writesOwn (od : OpDef) (form : HandlerForm) :
    WritesOwn (form.recipe od).steps := by
  intro reads r bytes h i hr
  subst hr
  cases form with
  | plain reads' writes => simp [HandlerForm.recipe, plainSteps] at h
  | binary a b =>
    cases a <;> cases b <;> simp [HandlerForm.recipe, binarySteps, materialize] at h
  | ternary a b c =>
    cases a <;> cases b <;> cases c <;> simp [HandlerForm.recipe, ternarySteps, materialize] at h
  | conv2d tiles => simp [HandlerForm.recipe, opConv2d, conv2dSteps] at h
  | append reads' => simp [HandlerForm.recipe, appendSteps] at h
  | noOutput reads' => simp [HandlerForm.recipe, noOutputSteps] at h

end Gehtp.Model.TempHandlers
