import Mathlib.Data.List.Basic
import Mathlib.Data.Nat.Bitwise

/-!
# Operators of a prepared graph

The part of `OpDef` (`compiler/include/hnnx/ir/types.hpp`) that the scheduling,
memory-planning and optimisation passes read. A graph is the map `opdef_map_` from
op ids to operators; its key is always the operator's own id.
-/

set_option autoImplicit false

namespace Gehtp.Model.OpGraph

/-- The shape and type of an output. SOURCE: types.hpp, OutputDef -/
structure OutputDef where
  rank : ℕ
  dtype : ℕ
  flags : ℕ
  quantParams : ℕ
  dims : Vector ℕ 5
  elementSize : ℕ
  quantScale : ℕ
  quantOffset : ℕ
  extra : Vector ℕ 3
  deriving DecidableEq

/-- The dimensions that count: the first `rank` ones, at most five. -/
def OutputDef.shape (od : OutputDef) : List ℕ := od.dims.toList.take od.rank

def OutputDef.vector (elems dtype elementSize quantScale : ℕ) : OutputDef :=
  ⟨1, dtype, 0, 0, #v[elems, 0, 0, 0, 0], elementSize, quantScale, 0, #v[0, 0, 0]⟩

def OutputDef.matrix (rows cols : ℕ) : OutputDef :=
  ⟨2, 0, 0, 0, #v[rows, cols, 1, 1, 1], 4, 0, 0, #v[0, 0, 0]⟩

/-- The output definition of a tensor of five axes. -/
def OutputDef.five (d0 d1 d2 d3 d4 : ℕ) : OutputDef :=
  ⟨5, 0, 0, 0, #v[d0, d1, d2, d3, d4], 4, 0, 0, #v[0, 0, 0]⟩

/-- A connection to an output of another operator. SOURCE: types.hpp, InputConn -/
structure InputConn where
  srcId : ℕ
  outIdx : ℕ
  deriving DecidableEq

/-- An operator. SOURCE: types.hpp, OpDef -/
structure OpDef where
  opId : ℕ
  flags : ℕ
  nameTag : Option String
  outputDef : OutputDef
  inputs : List InputConn
  consumers : List ℕ
  opData : List UInt8
  tensorParamIds : List ℕ
  deriving DecidableEq

namespace OpDef

/-- SOURCE: types.hpp, OpDef::is_enabled -/
def isEnabled (od : OpDef) : Bool := od.flags.testBit 0

/-- SOURCE: types.hpp, OpDef::is_const -/
def isConst (od : OpDef) : Bool := od.flags.testBit 1

/-- SOURCE: types.hpp, OpDef::is_dead -/
def isDead (od : OpDef) : Bool := od.flags.testBit 2

end OpDef

/-- The map of operators, each under its own id. SOURCE: graph_prepare.hpp, opdef_map_ -/
structure OpMap where
  getOpAt : ℕ → Option OpDef
  keyed : ∀ i od, getOpAt i = some od → od.opId = i

/-- The map of a list of operators; the first one of an id counts. -/
def OpMap.ofList (l : List OpDef) : OpMap where
  getOpAt i := l.find? fun od => decide (od.opId = i)
  keyed := by
    intro i od h
    simpa using List.find?_some h

theorem OpMap.mem_of_ofList {l : List OpDef} {i : ℕ} {od : OpDef}
    (h : (OpMap.ofList l).getOpAt i = some od) : od ∈ l ∧ od.opId = i :=
  ⟨List.mem_of_find?_eq_some h, (OpMap.ofList l).keyed i od h⟩

/-- Every enabled operator is listed with the sources of its inputs. -/
def ConsumersListed (g : OpMap) : Prop :=
  ∀ r od, g.getOpAt r = some od → od.isEnabled = true → ∀ c ∈ od.inputs,
    ∀ src, g.getOpAt c.srcId = some src → r ∈ src.consumers

namespace OpMap

/-- Change the operator `i` in place; its id stays. -/
def modify (g : OpMap) (i : ℕ) (f : OpDef → OpDef) (hf : ∀ od, (f od).opId = od.opId) :
    OpMap where
  getOpAt j := if j = i then (g.getOpAt j).map f else g.getOpAt j
  keyed := by
    intro j od h
    split at h
    · obtain ⟨od', hod', rfl⟩ := Option.map_eq_some_iff.mp h
      rw [hf, g.keyed j od' hod']
    · exact g.keyed j od h

/-- Erase the operators of the ids `l`. -/
def eraseAll (g : OpMap) (l : List ℕ) : OpMap where
  getOpAt j := if j ∈ l then none else g.getOpAt j
  keyed := by
    intro j od h
    split at h
    · cases h
    · exact g.keyed j od h

end OpMap

end Gehtp.Model.OpGraph
