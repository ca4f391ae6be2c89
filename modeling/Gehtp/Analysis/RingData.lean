import Mathlib.Algebra.Order.Ring.Nat
import Gehtp.Model.RingPolicy
import Gehtp.Lib.RingBuffer

/-!
# Slots, descriptors and what they hold

A group that is claimed has one descriptor, the first one of its slot, and holds the slot until the
next group that falls on it is claimed. Groups that hold their slots at the same time have different
ones, so what is copied for one of them is nothing to the others.

`Data` says what the descriptors, the memory and the list of writes are to be. An engine that marks a
descriptor as done only after it was copied keeps it that way, and so do claiming and entering a
group.
-/

set_option autoImplicit false

namespace Gehtp.Analysis.RingData

open Relation Gehtp.Model.RingPolicy

/-! ### Groups and slots -/

/-- What a group is: where its bytes are, where they are to go, and how many they are. -/
structure Group where
  src : ℕ
  slot : ℕ
  bytes : ℕ

/-- What the descriptors of a ring depend on. -/
structure Layout where
  nSlots : ℕ
  dpSlot : ℕ
  slotBytes : ℕ
  slots : ℕ
  nEnq : ℕ
  nQsub : ℕ
  nReady : ℕ
  nRel : ℕ
  group : ℕ → Group

def layout (p : Policy) : Layout where
  nSlots := p.nSlots
  dpSlot := p.dpSlot
  slotBytes := p.slotBytes
  slots := p.slots
  nEnq := p.nEnq
  nQsub := p.nQsub
  nReady := p.nReady
  nRel := p.nRel
  group g := ⟨(p.ent g).src, (p.ent g).slot, (p.ent g).bytes⟩

namespace Layout

def base (L : Layout) (g : ℕ) : ℕ := g % L.nSlots * L.dpSlot

/-- The group is claimed, and its slot was not given to another one since. -/
def Holds (L : Layout) (g : ℕ) : Prop := g < L.nQsub ∧ L.nQsub ≤ g + L.nSlots

/-- The cursors are in order, and the claimed groups fit into the slots that they have. -/
structure Ok (L : Layout) : Prop where
  nSlots_pos : 0 < L.nSlots
  dpSlot_pos : 0 < L.dpSlot
  ready_le : L.nReady ≤ L.nQsub
  qsub_le : L.nQsub ≤ L.nEnq
  window : L.nQsub ≤ L.nRel + L.nSlots
  slot_eq : ∀ g, g < L.nEnq → (L.group g).slot = L.slots + g % L.nSlots * L.slotBytes
  bytes_le : ∀ g, g < L.nQsub → (L.group g).bytes ≤ L.slotBytes

variable {L : Layout} {g g' : ℕ}

theorem Ok.holds_of_rel (h : L.Ok) (hrel : L.nRel ≤ g) (hg : g < L.nQsub) : L.Holds g := by
  have hw := h.window
  exact ⟨hg, by omega⟩

theorem base_ne (hd : 0 < L.dpSlot) (h : g % L.nSlots ≠ g' % L.nSlots) : L.base g ≠ L.base g' := by
  intro heq
  exact h (Nat.eq_of_mul_eq_mul_right hd heq)

theorem Holds.mod_ne (h : L.Holds g) (h' : L.Holds g') (hne : g ≠ g') :
    g % L.nSlots ≠ g' % L.nSlots := by
  exact Lib.RingBuffer.window_mod_ne h.1 h.2 h'.1 h'.2 hne

theorem Ok.address_ne (h : L.Ok) (hg : L.Holds g) (hg' : L.Holds g') (hne : g ≠ g') {i j : ℕ}
    (hi : i < (L.group g).bytes) (hj : j < (L.group g').bytes) :
    (L.group g).slot + i ≠ (L.group g').slot + j := by
  have hlt := hg.1.trans_le h.qsub_le
  have hlt' := hg'.1.trans_le h.qsub_le
  have hi' := hi.trans_le (h.bytes_le g hg.1)
  have hj' := hj.trans_le (h.bytes_le g' hg'.1)
  have key := Lib.RingBuffer.block_ne (hg.mod_ne hg' hne) hi' hj'
  rw [h.slot_eq g hlt, h.slot_eq g' hlt']
  omega

end Layout

/-! ### The descriptors -/

/-- The descriptor of a group is as `claim` filled it. -/
structure Filled (L : Layout) (sh : Shared) (g : ℕ) : Prop where
  src : (sh.descs (L.base g)).src = (L.group g).src
  dst : (sh.descs (L.base g)).dst = (L.group g).slot
  bytes : (sh.descs (L.base g)).bytes = (L.group g).bytes
  owner : (sh.descs (L.base g)).owner = g

/-- The descriptors are those of the groups that hold their slots, bytes that were copied are there,
descriptors that are done were copied, and so were the groups that are ready. Nothing was written
but to the slot of the group it is for. -/
structure Data (ddr : ℕ → UInt8) (L : Layout) (sh : Shared) : Prop where
  filled : ∀ g, L.Holds g → Filled L sh g
  empty : ∀ d, (∀ g, L.Holds g → d ≠ L.base g) → (sh.descs d).bytes = 0
  copied : ∀ d i, i < (sh.descs d).bytes → (sh.descs d).copied i = true →
    sh.mem ((sh.descs d).dst + i) = ddr ((sh.descs d).src + i)
  done : ∀ d, (sh.descs d).done = true →
    ∀ i, i < (sh.descs d).bytes → (sh.descs d).copied i = true
  fetched : ∀ g, L.nRel ≤ g → g < L.nReady →
    ∀ i, i < (L.group g).bytes → (sh.descs (L.base g)).copied i = true
  writes : ∀ w ∈ sh.writes, w.1 < L.nEnq ∧ (L.group w.1).slot ≤ w.2 ∧
    w.2 < (L.group w.1).slot + L.slotBytes

variable {ddr : ℕ → UInt8} {L : Layout} {sh sh' : Shared} {d i : ℕ}

theorem Data.exists_group (h : Data ddr L sh) (hi : i < (sh.descs d).bytes) :
    ∃ g, L.Holds g ∧ d = L.base g := by
  by_contra hno
  have hzero := h.empty d fun g hg hd => hno ⟨g, hg, hd⟩
  omega

/-- Only the copied bytes, the done bit and the link of a descriptor differ. -/
structure SameFill (sh sh' : Shared) : Prop where
  src : ∀ d, (sh'.descs d).src = (sh.descs d).src
  dst : ∀ d, (sh'.descs d).dst = (sh.descs d).dst
  bytes : ∀ d, (sh'.descs d).bytes = (sh.descs d).bytes
  owner : ∀ d, (sh'.descs d).owner = (sh.descs d).owner

theorem SameFill.trans {sh₁ sh₂ : Shared} (h : SameFill sh sh₁) (h' : SameFill sh₁ sh₂) :
    SameFill sh sh₂ where
  src d := (h'.src d).trans (h.src d)
  dst d := (h'.dst d).trans (h.dst d)
  bytes d := (h'.bytes d).trans (h.bytes d)
  owner d := (h'.owner d).trans (h.owner d)

theorem SameFill.filled (hs : SameFill sh sh') {g : ℕ} (h : Filled L sh g) : Filled L sh' g where
  src := (hs.src _).trans h.src
  dst := (hs.dst _).trans h.dst
  bytes := (hs.bytes _).trans h.bytes
  owner := (hs.owner _).trans h.owner

theorem sameFill_copyByte : SameFill sh (copyByte ddr d i sh) := by
  constructor <;> intro d' <;> simp only [copyByte, Function.update_apply] <;> split <;> simp_all

theorem sameFill_setDone : SameFill sh (setDone d sh) := by
  constructor <;> intro d' <;> simp only [setDone, Function.update_apply] <;> split <;> simp_all

theorem sameFill_setNext {nx : Option ℕ} : SameFill sh (setNext d nx sh) := by
  constructor <;> intro d' <;> simp only [setNext, Function.update_apply] <;> split <;> simp_all

theorem copied_copyByte (d' j : ℕ) :
    ((copyByte ddr d i sh).descs d').copied j
      = (decide (d' = d ∧ j = i) || (sh.descs d').copied j) := by
  simp only [copyByte, Function.update_apply]
  by_cases hd : d' = d <;> by_cases hj : j = i <;> simp [hd, hj]

theorem done_copyByte (d' : ℕ) : ((copyByte ddr d i sh).descs d').done = (sh.descs d').done := by
  simp only [copyByte, Function.update_apply]
  split <;> simp_all

theorem Data.copyByte (h : Data ddr L sh) (hL : L.Ok) (hi : i < (sh.descs d).bytes) :
    Data ddr L (copyByte ddr d i sh) := by
  have hs : SameFill sh (Model.RingPolicy.copyByte ddr d i sh) := sameFill_copyByte
  obtain ⟨g, hg, rfl⟩ := h.exists_group hi
  have hf := h.filled g hg
  have hig : i < (L.group g).bytes := hf.bytes ▸ hi
  constructor
  · exact fun g' hg' => hs.filled (h.filled g' hg')
  · exact fun d' hd' => (hs.bytes d').trans (h.empty d' hd')
  · intro d' j hj hc
    rw [hs.bytes] at hj
    rw [hs.dst, hs.src]
    rw [copied_copyByte] at hc
    obtain ⟨g', hg', rfl⟩ := h.exists_group hj
    have hf' := h.filled g' hg'
    show Function.update sh.mem _ _ _ = _
    rw [hf.dst, hf.src, hf'.dst, hf'.src]
    by_cases hgg : g' = g
    · cases hgg
      by_cases hji : j = i
      · rw [hji, Function.update_self]
      · have hmem := h.copied (L.base g) j hj (by simpa [hji] using hc)
        rw [Function.update_of_ne (by omega), ← hf.dst, ← hf.src]
        exact hmem
    · have hbase := L.base_ne hL.dpSlot_pos (hg'.mod_ne hg hgg)
      have hmem := h.copied (L.base g') j hj (by simpa [hbase] using hc)
      have hne := hL.address_ne hg' hg hgg (hf'.bytes ▸ hj) hig
      rw [Function.update_of_ne hne, ← hf'.dst, ← hf'.src]
      exact hmem
  · intro d' hd j hj
    rw [done_copyByte] at hd
    rw [hs.bytes] at hj
    rw [copied_copyByte, h.done d' hd j hj, Bool.or_true]
  · intro g' hrel hready j hj
    rw [copied_copyByte, h.fetched g' hrel hready j hj, Bool.or_true]
  · intro w hw
    cases List.mem_cons.mp hw with
    | inl heq =>
      have hb := hL.bytes_le g hg.1
      have hq := hL.qsub_le
      have hgq := hg.1
      rw [heq, hf.owner, hf.dst]
      show g < L.nEnq ∧ (L.group g).slot ≤ (L.group g).slot + i ∧
        (L.group g).slot + i < (L.group g).slot + L.slotBytes
      omega
    | inr hmem => exact h.writes w hmem

theorem Data.sameFill (h : Data ddr L sh) (hs : SameFill sh sh')
    (hc : ∀ d, (sh'.descs d).copied = (sh.descs d).copied) (hmem : sh'.mem = sh.mem)
    (hw : sh'.writes = sh.writes)
    (hdone : ∀ d, (sh'.descs d).done = true →
      ∀ i < (sh.descs d).bytes, (sh.descs d).copied i = true) :
    Data ddr L sh' := by
  constructor
  · exact fun g hg => hs.filled (h.filled g hg)
  · exact fun d hd => (hs.bytes d).trans (h.empty d hd)
  · intro d i hi hci
    rw [hs.bytes] at hi
    rw [hc] at hci
    rw [hs.dst, hs.src, hmem]
    exact h.copied d i hi hci
  · intro d hd i hi
    rw [hs.bytes] at hi
    rw [hc]
    exact hdone d hd i hi
  · intro g hrel hready i hi
    rw [hc]
    exact h.fetched g hrel hready i hi
  · rw [hw]
    exact h.writes

theorem Data.setDone (h : Data ddr L sh)
    (hd : ∀ i < (sh.descs d).bytes, (sh.descs d).copied i = true) :
    Data ddr L (setDone d sh) := by
  apply h.sameFill sameFill_setDone _ rfl rfl
  · intro d' hdone
    by_cases hdd : d' = d
    · rw [hdd]
      exact hd
    · apply h.done d'
      simpa [Model.RingPolicy.setDone, Function.update_of_ne hdd] using hdone
  · intro d'
    simp only [Model.RingPolicy.setDone, Function.update_apply]
    split <;> simp_all

theorem Data.setNext (h : Data ddr L sh) (nx : Option ℕ) : Data ddr L (setNext d nx sh) := by
  apply h.sameFill sameFill_setNext _ rfl rfl
  · intro d' hdone
    apply h.done d'
    rw [← hdone]
    simp only [Model.RingPolicy.setNext, Function.update_apply]
    split <;> simp_all
  · intro d'
    simp only [Model.RingPolicy.setNext, Function.update_apply]
    split <;> simp_all

theorem Data.engSteps (hL : L.Ok) (h : Data ddr L sh) (hsteps : ReflTransGen (EngStep ddr) sh sh') :
    Data ddr L sh' := by
  induction hsteps with
  | refl => exact h
  | tail _ hstep ih =>
    cases hstep with
    | copy d i hi => exact ih.copyByte hL hi
    | finish d hd => exact ih.setDone hd
    | link d nx => exact ih.setNext nx

theorem Data.setCursors (h : Data ddr L sh) {nReady nRel : ℕ}
    (hf : ∀ g, nRel ≤ g → g < nReady →
      ∀ i, i < (L.group g).bytes → (sh.descs (L.base g)).copied i = true) :
    Data ddr { L with nReady := nReady, nRel := nRel } sh where
  filled g hg := { h.filled g hg with }
  empty := h.empty
  copied := h.copied
  done := h.done
  fetched := hf
  writes := h.writes

theorem Layout.Ok.base_ne_next (hL : L.Ok) {g : ℕ} (hg : g < L.nQsub)
    (hw : L.nQsub < g + L.nSlots) : L.base g ≠ L.base L.nQsub := by
  apply L.base_ne hL.dpSlot_pos
  have key := Lib.RingBuffer.mod_ne (a := 0) hg hw
  simpa using key

theorem Data.claim (h : Data ddr L sh) (hL : L.Ok) (hw : L.nQsub < L.nRel + L.nSlots)
    {e : EngDesc} (hsrc : e.src = (L.group L.nQsub).src) (hdst : e.dst = (L.group L.nQsub).slot)
    (hbytes : e.bytes = (L.group L.nQsub).bytes) (howner : e.owner = L.nQsub)
    (hdone : e.done = false) (hcopied : e.copied = fun _ => false) :
    Data ddr { L with nQsub := L.nQsub + 1 }
      { sh with descs := Function.update sh.descs (L.base L.nQsub) e } := by
  have hn := hL.nSlots_pos
  constructor
  · rintro g ⟨hlt, hle⟩
    have hlt' : g < L.nQsub + 1 := hlt
    have hle' : L.nQsub + 1 ≤ g + L.nSlots := hle
    by_cases hg : g = L.nQsub
    · cases hg
      have hself : Function.update sh.descs (L.base L.nQsub) e (L.base L.nQsub) = e :=
        Function.update_self _ _ _
      constructor
      · exact (congrArg EngDesc.src hself).trans hsrc
      · exact (congrArg EngDesc.dst hself).trans hdst
      · exact (congrArg EngDesc.bytes hself).trans hbytes
      · exact (congrArg EngDesc.owner hself).trans howner
    · have hfill := h.filled g ⟨by omega, by omega⟩
      have hne : L.base g ≠ L.base L.nQsub := hL.base_ne_next (by omega) (by omega)
      have hold : Function.update sh.descs (L.base L.nQsub) e (L.base g) = sh.descs (L.base g) :=
        Function.update_of_ne hne _ _
      constructor
      · exact (congrArg EngDesc.src hold).trans hfill.src
      · exact (congrArg EngDesc.dst hold).trans hfill.dst
      · exact (congrArg EngDesc.bytes hold).trans hfill.bytes
      · exact (congrArg EngDesc.owner hold).trans hfill.owner
  · intro d hd
    have hne : d ≠ L.base L.nQsub :=
      hd L.nQsub ⟨Nat.lt_succ_self _, show L.nQsub + 1 ≤ L.nQsub + L.nSlots by omega⟩
    show (Function.update sh.descs (L.base L.nQsub) e d).bytes = 0
    rw [Function.update_of_ne hne]
    apply h.empty d
    rintro g ⟨hlt, hle⟩
    by_cases hlast : L.nQsub = g + L.nSlots
    · have hbase : L.base g = L.base L.nQsub := by
        unfold Layout.base
        rw [hlast, Nat.add_mod_right]
      rw [hbase]
      exact hne
    · exact hd g ⟨show g < L.nQsub + 1 by omega, show L.nQsub + 1 ≤ g + L.nSlots by omega⟩
  · intro d i
    show i < (Function.update sh.descs (L.base L.nQsub) e d).bytes → _
    by_cases hd : d = L.base L.nQsub
    · simp [hd, hcopied]
    · simpa only [Function.update_of_ne hd] using h.copied d i
  · intro d
    show (Function.update sh.descs (L.base L.nQsub) e d).done = true → _
    by_cases hd : d = L.base L.nQsub
    · simp [hd, hdone]
    · simpa only [Function.update_of_ne hd] using h.done d
  · intro g hrel hready i hi
    have hrel' : L.nRel ≤ g := hrel
    have hready' : g < L.nReady := hready
    have hle := hL.ready_le
    have hne : L.base g ≠ L.base L.nQsub := hL.base_ne_next (by omega) (by omega)
    show (Function.update sh.descs (L.base L.nQsub) e (L.base g)).copied i = true
    rw [Function.update_of_ne hne]
    exact h.fetched g hrel hready i hi
  · exact h.writes

theorem Data.enter (h : Data ddr L sh) (hL : L.Ok) (hrel : L.nReady ≤ L.nEnq) (e : Group) :
    Data ddr { L with nEnq := L.nEnq + 1, group := Function.update L.group L.nEnq e } sh := by
  have hq := hL.qsub_le
  have hold : ∀ g, g < L.nEnq → Function.update L.group L.nEnq e g = L.group g := by
    intro g hg
    exact Function.update_of_ne (Nat.ne_of_lt hg) _ _
  constructor
  · intro g hg
    have hfill := h.filled g hg
    have heq := hold g (hg.1.trans_le hq)
    constructor
    · exact hfill.src.trans (congrArg Group.src heq.symm)
    · exact hfill.dst.trans (congrArg Group.slot heq.symm)
    · exact hfill.bytes.trans (congrArg Group.bytes heq.symm)
    · exact hfill.owner
  · exact h.empty
  · exact h.copied
  · exact h.done
  · intro g hg hready i hi
    apply h.fetched g hg hready i
    rw [← hold g (hready.trans_le hrel)]
    exact hi
  · intro w hw
    obtain ⟨hlt, hinside⟩ := h.writes w hw
    refine ⟨Nat.lt_succ_of_lt hlt, ?_⟩
    show (Function.update L.group L.nEnq e w.1).slot ≤ w.2 ∧
      w.2 < (Function.update L.group L.nEnq e w.1).slot + L.slotBytes
    rw [hold w.1 hlt]
    exact hinside

end Gehtp.Analysis.RingData
