import Gehtp.Analysis.RingCursors
import Gehtp.Analysis.RingData

/-!
# The data of the prefetch ring

As long as a group is not larger than a slot, it has one descriptor, the first one of its slot. The
descriptor of a group that is not released stays as it was filled, whatever the engine does with it:
its bytes go to the slot of the group, and to no other one. So a group that was found ready has its
bytes in its slot until it is released.

A larger group is split into several descriptors of up to a slot each, and all but the first of these
write to the slots of other groups. This is unless it needs more descriptors than a slot has, in
which case it is refused.
-/

set_option autoImplicit false

namespace Gehtp.Analysis.RingSafe

open Relation Gehtp.Model.RingPolicy Gehtp.Analysis.RingSteps Gehtp.Analysis.RingCursors
  Gehtp.Analysis.RingData

variable {S : Type} {ddr : ℕ → UInt8}

/-! ### The ring -/

/-- A group of so many bytes has one descriptor, or it is refused. -/
def Fits (p : Policy) (bytes : ℕ) : Prop :=
  bytes ≤ p.slotBytes ∨ p.dpSlot < spanLen p.slotBytes bytes

instance (p : Policy) (bytes : ℕ) : Decidable (Fits p bytes) :=
  inferInstanceAs (Decidable (_ ∨ _))

/-- Every group has its slot and fits, and a claimed one has one descriptor. -/
structure Ents (p : Policy) : Prop where
  nSlots_pos : 0 < p.nSlots
  dpSlot_pos : 0 < p.dpSlot
  slot_eq : ∀ g, g < p.nEnq → (p.ent g).slot = p.slots + g % p.nSlots * p.slotBytes
  bytes_ne : ∀ g, g < p.nEnq → (p.ent g).bytes ≠ 0
  fits : ∀ g, g < p.nEnq → Fits p (p.ent g).bytes
  bytes_le : ∀ g, g < p.nQsub → (p.ent g).bytes ≤ p.slotBytes
  nDescs_eq : ∀ g, g < p.nQsub → (p.ent g).nDescs = 1
  dfirst_eq : ∀ g, g < p.nQsub → (p.ent g).dfirst = spanBase p g

/-- What holds after every step. `p₀` is the ring as it was created. -/
structure Inv (ddr : ℕ → UInt8) (p₀ : Policy) (s : Sys S) : Prop where
  dpSlot_eq : s.pol.dpSlot = p₀.dpSlot
  slotBytes_eq : s.pol.slotBytes = p₀.slotBytes
  order : Ordered s.pol
  ents : Ents s.pol
  data : Data ddr (layout s.pol) s.world.sh

theorem Fits.congr {p p' : Policy} (hd : p'.dpSlot = p.dpSlot) (hb : p'.slotBytes = p.slotBytes)
    {bytes : ℕ} (h : Fits p bytes) : Fits p' bytes := by
  unfold Fits
  rw [hd, hb]
  exact h

theorem layoutOk {p : Policy} (hc : Ordered p) (he : Ents p) : (layout p).Ok where
  nSlots_pos := he.nSlots_pos
  dpSlot_pos := he.dpSlot_pos
  ready_le := hc.ready_le.trans hc.fired_le
  qsub_le := hc.qsub_le
  window := hc.window_le
  slot_eq := he.slot_eq
  bytes_le := he.bytes_le

variable {p₀ p : Policy} {s : Sys S} {g : ℕ}

theorem Inv.world (h : Inv ddr p₀ s) {w : World S}
    (hw : ReflTransGen (EngStep ddr) s.world.sh w.sh) : Inv ddr p₀ { s with world := w } :=
  { h with data := h.data.engSteps (layoutOk h.order h.ents) hw }

theorem Ents.setState (h : Ents p) (g : ℕ) (st : EntState) :
    Ents (p.setEnt g { p.ent g with state := st }) := by
  have hent : ∀ g', (p.setEnt g { p.ent g with state := st }).ent g'
      = { p.ent g' with state := if g' = g then st else (p.ent g').state } := by
    intro g'
    rw [ent_setEnt]
    split
    case isTrue hg => rw [hg]
    case isFalse => rfl
  constructor
  · exact h.nSlots_pos
  · exact h.dpSlot_pos
  all_goals
    intro g' hg'
    rw [hent]
  · exact h.slot_eq g' hg'
  · exact h.bytes_ne g' hg'
  · exact h.fits g' hg'
  · exact h.bytes_le g' hg'
  · exact h.nDescs_eq g' hg'
  · exact h.dfirst_eq g' hg'

theorem layout_setState (p : Policy) (g : ℕ) (st : EntState) :
    layout (p.setEnt g { p.ent g with state := st }) = layout p := by
  unfold layout
  congr 1
  funext g'
  rw [ent_setEnt]
  split
  case isTrue hg => rw [hg]
  case isFalse => rfl

theorem Inv.flags (h : Inv ddr p₀ s) {tail pred : Option ℕ} {boost failed : Bool}
    {rekicks : List (RingEnt × World S)} :
    Inv ddr p₀ { s with
      pol := { s.pol with
        fireTail := tail, fireTailPred := pred, fireDepthBoost := boost, failed := failed }
      rekicks := rekicks } :=
  { h with
    order := h.order.flags
    ents := { h.ents with } }

theorem Inv.data_of_eq (h : Inv ddr p₀ s) (hL : layout p = layout s.pol) :
    Data ddr (layout p) s.world.sh := by
  rw [hL]
  exact h.data

theorem Inv.fired (h : Inv ddr p₀ s) (hlt : s.pol.nFired < s.pol.nQsub) :
    Inv ddr p₀ (fired s) where
  dpSlot_eq := h.dpSlot_eq
  slotBytes_eq := h.slotBytes_eq
  order := h.order.fired hlt
  ents := { h.ents.setState s.pol.nFired .submit with }
  data := h.data_of_eq (layout_setState s.pol s.pol.nFired .submit)

theorem Inv.afterDoorbell (h : Inv ddr p₀ s) (hlt : s.pol.nFired < s.pol.nQsub)
    {r : Bool × World S} (hr : ReflTransGen (EngStep ddr) s.world.sh r.2.sh) :
    Inv ddr p₀ (afterDoorbell s r).2 := by
  have hw := h.world hr
  unfold Model.RingPolicy.afterDoorbell
  dsimp only
  split
  case isTrue => exact hw.fired hlt
  case isFalse => exact hw.flags

theorem Inv.fireOne {A : EngineAdapter S} (hA : A.Copies ddr) (h : Inv ddr p₀ s)
    (hlt : s.pol.nFired < s.pol.nQsub) : Inv ddr p₀ (fireOne A s).2 := by
  have hpoll := h.world (hA.dmpoll s.world)
  unfold Model.RingPolicy.fireOne
  dsimp only
  split
  case isTrue =>
    split
    case h_1 => exact hpoll
    case h_2 t _ => exact hpoll.afterDoorbell hlt (hA.dmlink _ _ _)
  case isFalse =>
    exact hpoll.afterDoorbell hlt ((hA.dmwait _).trans (hA.dmstart _ _))

theorem Inv.rekick {A : EngineAdapter S} (hA : A.Copies ddr) (h : Inv ddr p₀ s) (g : ℕ) :
    Inv ddr p₀ (rekick A g s).2 := by
  have hw := h.world ((hA.dmwait s.world).trans (hA.dmstart (s.pol.ent g).dfirst _))
  unfold Model.RingPolicy.rekick
  dsimp only
  split
  case isTrue => exact hw.flags
  case isFalse => exact { hw with }

theorem Inv.markReady (h : Inv ddr p₀ s) (hlt : s.pol.nReady < s.pol.nFired)
    (hdone : chainDone s.world.sh (s.pol.ent s.pol.nReady).nDescs
      (some (s.pol.ent s.pol.nReady).dfirst) = true) : Inv ddr p₀ (markReady s) where
  dpSlot_eq := h.dpSlot_eq
  slotBytes_eq := h.slotBytes_eq
  order := h.order.markReady hlt
  ents := { h.ents.setState s.pol.nReady .ready with }
  data := by
    have hq : s.pol.nReady < s.pol.nQsub := hlt.trans_le h.order.fired_le
    have hL := layoutOk h.order h.ents
    have hfill := h.data.filled _ (hL.holds_of_rel h.order.rel_le hq)
    rw [h.ents.nDescs_eq _ hq, h.ents.dfirst_eq _ hq] at hdone
    have hd : (s.world.sh.descs ((layout s.pol).base s.pol.nReady)).done = true :=
      (Bool.and_eq_true_iff.mp hdone).1
    have hlay : layout (Model.RingPolicy.markReady s).pol
        = { layout s.pol with nReady := s.pol.nReady + 1 } :=
      congrArg (fun L : Layout => { L with nReady := s.pol.nReady + 1 })
        (layout_setState s.pol s.pol.nReady .ready)
    rw [hlay]
    apply h.data.setCursors
    intro g hrel hready i hi
    by_cases hg : g = s.pol.nReady
    · cases hg
      apply h.data.done _ hd
      rw [hfill.bytes]
      exact hi
    · exact h.data.fetched g hrel (show g < s.pol.nReady by omega) i hi

theorem Inv.markGone (h : Inv ddr p₀ s) (hg : (s.pol.ent g).state = .ready) :
    Inv ddr p₀ (markGone g s) where
  dpSlot_eq := h.dpSlot_eq
  slotBytes_eq := h.slotBytes_eq
  order := h.order.markGone hg
  ents := { h.ents.setState g .gone with }
  data := h.data_of_eq (layout_setState s.pol g .gone)

theorem Inv.stepRel (h : Inv ddr p₀ s) (hg : (s.pol.ent s.pol.nRel).state = .gone) :
    Inv ddr p₀ (stepRel s) where
  dpSlot_eq := h.dpSlot_eq
  slotBytes_eq := h.slotBytes_eq
  order := h.order.stepRel hg
  ents := { h.ents with }
  data := by
    apply h.data.setCursors
    intro g hrel hready
    exact h.data.fetched g (Nat.le_of_succ_le hrel) hready

theorem spanLen_eq_one {slotBytes bytes : ℕ} (hb : bytes ≠ 0) (hle : bytes ≤ slotBytes) :
    spanLen slotBytes bytes = 1 := by
  have hmod : (bytes + slotBytes - 1) % 2 ^ 32 ≤ bytes + slotBytes - 1 := Nat.mod_le _ _
  have hdiv : (bytes + slotBytes - 1) % 2 ^ 32 / slotBytes < 2 := by
    rw [Nat.div_lt_iff_lt_mul (by omega)]
    omega
  unfold spanLen
  rw [if_neg hb]
  dsimp only
  split <;> omega

theorem bytes_le_of_spanLen_le (hb : g < p.nEnq) (h : Ents p)
    (hn : spanLen p.slotBytes (p.ent g).bytes ≤ p.dpSlot) : (p.ent g).bytes ≤ p.slotBytes := by
  cases h.fits g hb with
  | inl hle => exact hle
  | inr hlt => exact absurd hn (Nat.not_le_of_lt hlt)

theorem Ents.claim (h : Ents p) (hq : p.nQsub < p.nEnq)
    (hn : spanLen p.slotBytes (p.ent p.nQsub).bytes ≤ p.dpSlot) {dlast : ℕ} :
    Ents { p.setEnt p.nQsub { p.ent p.nQsub with
        dfirst := spanBase p p.nQsub, dlast, state := .queued
        nDescs := spanLen p.slotBytes (p.ent p.nQsub).bytes } with nQsub := p.nQsub + 1 } := by
  have hle := bytes_le_of_spanLen_le hq h hn
  have hone := spanLen_eq_one (h.bytes_ne _ hq) hle
  constructor
  · exact h.nSlots_pos
  · exact h.dpSlot_pos
  all_goals
    intro g
    simp only [Policy.setEnt, Function.update_apply]
    intro hg
    split
  case slot_eq.isTrue heq =>
    rw [heq]
    exact h.slot_eq _ hq
  case slot_eq.isFalse => exact h.slot_eq g hg
  case bytes_ne.isTrue => exact h.bytes_ne _ hq
  case bytes_ne.isFalse => exact h.bytes_ne g hg
  case fits.isTrue => exact h.fits _ hq
  case fits.isFalse => exact h.fits g hg
  case bytes_le.isTrue => exact hle
  case bytes_le.isFalse hne => exact h.bytes_le g (by omega)
  case nDescs_eq.isTrue => exact hone
  case nDescs_eq.isFalse hne => exact h.nDescs_eq g (by omega)
  case dfirst_eq.isTrue heq => exact heq ▸ rfl
  case dfirst_eq.isFalse hne => exact h.dfirst_eq g (by omega)

theorem Inv.claimOne (h : Inv ddr p₀ s) (hc : canClaim s.pol = true)
    (hn : spanLen s.pol.slotBytes (s.pol.ent s.pol.nQsub).bytes ≤ s.pol.dpSlot) :
    Inv ddr p₀ (claimOne s) := by
  obtain ⟨hq, hw, -⟩ := canClaim_iff.mp hc
  have hle := bytes_le_of_spanLen_le hq h.ents hn
  have hone := spanLen_eq_one (h.ents.bytes_ne _ hq) hle
  have hrel := h.order.rel_le.trans (h.order.ready_le.trans h.order.fired_le)
  constructor
  case dpSlot_eq => exact h.dpSlot_eq
  case slotBytes_eq => exact h.slotBytes_eq
  case order => exact h.order.claimOne hc
  case ents => exact h.ents.claim hq hn
  case data =>
    have hlay : layout (Model.RingPolicy.claimOne s).pol
        = { layout s.pol with nQsub := s.pol.nQsub + 1 } := by
      unfold layout
      congr 1
      funext g
      simp only [Model.RingPolicy.claimOne, Policy.setEnt, Function.update_apply]
      split
      case isTrue hg => rw [hg]
      case isFalse => rfl
    rw [hlay]
    have key := h.data.claim (layoutOk h.order h.ents)
      (show s.pol.nQsub < s.pol.nRel + s.pol.nSlots by omega)
      (e := ⟨none, false, (s.pol.ent s.pol.nQsub).src + 0, (s.pol.ent s.pol.nQsub).slot + 0,
        min ((s.pol.ent s.pol.nQsub).bytes - 0) s.pol.slotBytes, s.pol.nQsub, fun _ => false⟩)
      rfl rfl (Nat.min_eq_left hle) rfl rfl rfl
    unfold Model.RingPolicy.claimOne
    dsimp only
    rw [hone]
    exact key

theorem Ents.register (h : Ents p) (hq : p.nQsub ≤ p.nEnq) {src bytes : ℕ} (hb : bytes ≠ 0)
    (hfit : Fits p bytes) :
    Ents { p.setEnt p.nEnq { RingEnt.zero with
        src, bytes, slot := p.slots + p.nEnq % p.nSlots * p.slotBytes } with
      nEnq := p.nEnq + 1 } := by
  constructor
  · exact h.nSlots_pos
  · exact h.dpSlot_pos
  all_goals
    intro g
    simp only [Policy.setEnt, Function.update_apply]
    intro hg
  case slot_eq =>
    split
    case isTrue heq => rw [heq]
    case isFalse hne => exact h.slot_eq g (by omega)
  case bytes_ne =>
    split
    case isTrue => exact hb
    case isFalse hne => exact h.bytes_ne g (by omega)
  case fits =>
    split
    case isTrue => exact hfit
    case isFalse hne => exact h.fits g (by omega)
  all_goals rw [if_neg (by omega)]
  · exact h.bytes_le g hg
  · exact h.nDescs_eq g hg
  · exact h.dfirst_eq g hg

theorem Inv.register (h : Inv ddr p₀ s) {src bytes : ℕ} (hb : bytes ≠ 0) (hfit : Fits p₀ bytes) :
    Inv ddr p₀ (register src bytes s) := by
  have hready := h.order.ready_le
  have hfired := h.order.fired_le
  have hrel := h.order.rel_le
  have hq := h.order.qsub_le
  constructor
  case dpSlot_eq => exact h.dpSlot_eq
  case slotBytes_eq => exact h.slotBytes_eq
  case order => exact h.order.register src bytes
  case ents => exact h.ents.register hq hb (hfit.congr h.dpSlot_eq h.slotBytes_eq)
  case data =>
    have key := h.data.enter (layoutOk h.order h.ents) (show s.pol.nReady ≤ s.pol.nEnq by omega)
      ⟨src, s.pol.slots + s.pol.nEnq % s.pol.nSlots * s.pol.slotBytes, bytes⟩
    have hlay : layout (Model.RingPolicy.register src bytes s).pol
        = { layout s.pol with
            nEnq := s.pol.nEnq + 1
            group := Function.update (layout s.pol).group s.pol.nEnq
              ⟨src, s.pol.slots + s.pol.nEnq % s.pol.nSlots * s.pol.slotBytes, bytes⟩ } := by
      unfold layout
      congr 1
      funext g
      simp only [Model.RingPolicy.register, Policy.setEnt, Function.update_apply]
      split
      case isTrue => rfl
      case isFalse => rfl
    rw [hlay]
    exact key

theorem Inv.start {nSlots maxDescs slotBytes slots : ℕ}
    (hp : ringCreate nSlots maxDescs slotBytes slots = some p₀) (eng : S) (mem : ℕ → UInt8) :
    Inv ddr p₀ (ringStart p₀ eng mem) := by
  have horder := Ordered.create hp
  unfold ringCreate at hp
  split at hp
  case isTrue => cases hp
  case isFalse hpos =>
    simp only [not_or] at hpos
    cases hp
    constructor
    case dpSlot_eq => rfl
    case slotBytes_eq => rfl
    case order => exact horder
    case ents =>
      constructor
      · exact Nat.pos_of_ne_zero hpos.1
      · exact Nat.lt_min.mpr ⟨Nat.pos_of_ne_zero hpos.2.1, by decide⟩
      all_goals exact fun g hg => absurd hg (Nat.not_lt_zero g)
    case data =>
      constructor
      · exact fun g hg => absurd hg.1 (Nat.not_lt_zero g)
      · exact fun d _ => rfl
      · exact fun d i hi => absurd hi (Nat.not_lt_zero i)
      · exact fun d _ i hi => absurd hi (Nat.not_lt_zero i)
      · exact fun g _ hg => absurd hg (Nat.not_lt_zero g)
      · exact fun w hw => absurd hw List.not_mem_nil

theorem inv_stable {A : EngineAdapter S} (hA : A.Copies ddr) (p₀ : Policy) :
    Stable A (fun _ => True) (Inv ddr p₀) where
  claimOne _ h hc hn := h.claimOne hc hn
  fail _ h := h.flags
  fireOne _ h hc := h.fireOne hA (canFire_iff.mp hc).1
  poll s h := h.world (hA.dmpoll s.world)
  skipReady _ h hlt hp := absurd hp (h.order.not_pastSubmit hlt)
  markReady _ h hlt _ hd := h.markReady hlt hd
  setBoost _ _ h := h.flags
  rekick g _ h _ := h.rekick hA g
  spinTwo s h := h.world (hA.spin 2 s.world)
  markGone _ _ h _ hg := h.markGone hg
  stepRel _ h _ hg := h.stepRel hg

/-! ### Ready groups -/

theorem Inv.slot_holds (h : Inv ddr p₀ s) (hg : (s.pol.ent g).state = .ready) {i : ℕ}
    (hi : i < (s.pol.ent g).bytes) :
    s.world.sh.mem ((s.pol.ent g).slot + i) = ddr ((s.pol.ent g).src + i) := by
  obtain ⟨hrel, hready⟩ := h.order.ready_lt hg
  have hL := layoutOk h.order h.ents
  have hfill := h.data.filled g (hL.holds_of_rel hrel (hready.trans_le hL.ready_le))
  have hcopied := h.data.fetched g hrel hready i hi
  have hmem := h.data.copied _ i (by rw [hfill.bytes]; exact hi) hcopied
  rw [hfill.dst, hfill.src] at hmem
  exact hmem

theorem ready_stable {A : EngineAdapter S} (hA : A.Copies ddr) (p₀ : Policy) {g : ℕ} {e : RingEnt}
    (he : e.state = .ready) :
    Stable A (fun i => i ≠ g) (fun s => Inv ddr p₀ s ∧ s.pol.ent g = e) := by
  have hinv := inv_stable hA p₀
  -- Every other step that writes an entry finds a state there that is not `ready`.
  have hset : ∀ {p : Policy} {i : ℕ} {e' : RingEnt}, p.ent g = e → (p.ent i).state ≠ .ready →
      (p.setEnt i e').ent g = e := by
    intro p i e' hge hi
    rw [ent_setEnt, if_neg]
    · exact hge
    · rintro rfl
      exact hi (hge ▸ he)
  constructor
  case claimOne =>
    rintro s ⟨h, hg⟩ hc hn
    refine ⟨hinv.claimOne s h hc hn, hset hg ?_⟩
    simp [h.order.pending s.pol.nQsub le_rfl]
  case fail => exact fun s h => ⟨hinv.fail s h.1, h.2⟩
  case fireOne =>
    rintro s ⟨h, hg⟩ hc
    refine ⟨hinv.fireOne s h hc, ?_⟩
    have hq := (canFire_iff.mp hc).2
    have hafter : ∀ w r, (afterDoorbell { s with world := w } r).2.pol.ent g = e := by
      intro w r
      unfold afterDoorbell
      dsimp only
      split
      case isTrue => exact hset hg (by simp [hq])
      case isFalse => exact hg
    unfold fireOne
    dsimp only
    split
    case isTrue =>
      split
      case h_1 => exact hg
      case h_2 => exact hafter _ _
    case isFalse => exact hafter _ _
  case poll => exact fun s h => ⟨hinv.poll s h.1, h.2⟩
  case skipReady => exact fun s h hlt hp => ⟨hinv.skipReady s h.1 hlt hp, h.2⟩
  case markReady =>
    rintro s ⟨h, hg⟩ hlt hp hd
    refine ⟨hinv.markReady s h hlt hp hd, hset hg ?_⟩
    simp [h.order.submit s.pol.nReady le_rfl hlt]
  case setBoost => exact fun b s h => ⟨hinv.setBoost b s h.1, h.2⟩
  case rekick =>
    rintro i s ⟨h, hg⟩ hi
    refine ⟨hinv.rekick i s h hi, ?_⟩
    unfold rekick
    dsimp only
    split
    case isTrue => exact hg
    case isFalse => exact hg
  case spinTwo => exact fun s h => ⟨hinv.spinTwo s h.1, h.2⟩
  case markGone =>
    rintro i s ⟨h, hg⟩ hne hi
    refine ⟨hinv.markGone i s h trivial hi, ?_⟩
    show (s.pol.setEnt i _).ent g = e
    rw [ent_setEnt, if_neg (Ne.symm hne)]
    exact hg
  case stepRel => exact fun s h hlt hg => ⟨hinv.stepRel s h.1 hlt hg, h.2⟩

theorem Inv.ent_register (h : Inv ddr p₀ s) {e : RingEnt} (hg : s.pol.ent g = e)
    (he : e.state = .ready) (src bytes : ℕ) :
    (Model.RingPolicy.register src bytes s).pol.ent g = e := by
  show (s.pol.setEnt s.pol.nEnq _).ent g = e
  rw [ent_setEnt, if_neg]
  · exact hg
  · rintro rfl
    simp [← hg, h.order.pending s.pol.nEnq h.order.qsub_le] at he

theorem needLoop_ready {A : EngineAdapter S} {deadlineUs n deadline slot : ℕ} {kicked : Bool}
    {s' : Sys S} (h : needLoop A g deadlineUs n deadline kicked s = (some (.ready slot), s')) :
    pastSubmit (s'.pol.ent g) = true ∧ slot = (s'.pol.ent g).slot := by
  induction n generalizing deadline kicked s with
  | zero => cases h
  | succ n ih =>
    unfold needLoop at h
    dsimp only at h
    split at h
    case isTrue hp =>
      cases h
      exact ⟨hp, rfl⟩
    case isFalse =>
      split at h
      case isTrue => cases h
      case isFalse =>
        split at h
        case isTrue =>
          split at h
          case isTrue =>
            split at h
            case isTrue => exact ih h
            case isFalse => cases h
          case isFalse => cases h
        case isFalse => exact ih h

theorem ringNeed_ready {A : EngineAdapter S} {deadlineUs rounds slot : ℕ} {s' : Sys S}
    (h : ringNeed A g deadlineUs rounds s = (some (.ready slot), s')) :
    pastSubmit (s'.pol.ent g) = true ∧ slot = (s'.pol.ent g).slot := by
  unfold ringNeed at h
  split at h
  case isTrue => cases h
  case isFalse =>
    split at h
    case isTrue => cases h
    case isFalse => exact needLoop_ready h

/-- Nothing was written but to the slot of the group it is for. -/
def WritesInside (s : Sys S) : Prop :=
  ∀ w ∈ s.world.sh.writes, w.1 < s.pol.nEnq ∧ (s.pol.ent w.1).slot ≤ w.2 ∧
    w.2 < (s.pol.ent w.1).slot + s.pol.slotBytes

instance (s : Sys S) : Decidable (WritesInside s) :=
  inferInstanceAs (Decidable (∀ w ∈ s.world.sh.writes, _))

/-- The groups that are enqueued fit. -/
def AllFit (p : Policy) (cs : List RingCall) : Prop :=
  ∀ src bytes, RingCall.enqueue src bytes ∈ cs → Fits p bytes

/-- If every group that is enqueued fits, then the cursors are in order, nothing is written but to
the slot of the group it is for, and a group that `ring_need` reports as ready has its bytes in its
slot until it is released. -/
theorem ring_data_safe {A : EngineAdapter S} (hA : A.Copies ddr)
    {nSlots maxDescs slotBytes slots : ℕ}
    (hp : ringCreate nSlots maxDescs slotBytes slots = some p₀) (eng : S) (mem : ℕ → UInt8)
    {cs : List RingCall} (hcs : AllFit p₀ cs) :
    Cursors (ringCalls A cs (ringStart p₀ eng mem)).pol ∧
      WritesInside (ringCalls A cs (ringStart p₀ eng mem)) ∧
      ∀ g deadlineUs rounds slot s',
        ringNeed A g deadlineUs rounds (ringCalls A cs (ringStart p₀ eng mem))
          = (some (.ready slot), s') →
        (s'.pol.ent g).state ≠ .gone →
        slot = (s'.pol.ent g).slot ∧
        ∀ cs', AllFit p₀ cs' → (∀ c ∈ cs', ¬ Releases c g) →
        ∀ i < (s'.pol.ent g).bytes,
          (ringCalls A cs' s').world.sh.mem (slot + i) = ddr ((s'.pol.ent g).src + i) := by
  have hstable := inv_stable hA p₀
  have hinv : Inv ddr p₀ (ringCalls A cs (ringStart p₀ eng mem)) := by
    apply hstable.ringCalls (fun _ _ _ _ => trivial) _ (Inv.start hp eng mem)
    exact fun src bytes s hm hb _ h => h.register hb (hcs src bytes hm)
  refine ⟨hinv.order.toCursors, hinv.data.writes, ?_⟩
  intro g deadlineUs rounds slot s' hneed hgone
  obtain ⟨hpast, hslot⟩ := ringNeed_ready hneed
  have hready : (s'.pol.ent g).state = .ready := by
    cases hst : (s'.pol.ent g).state <;> simp_all [pastSubmit]
  have hinv' : Inv ddr p₀ s' := by
    have key := hstable.ringNeed g deadlineUs rounds hinv
    rw [hneed] at key
    exact key
  refine ⟨hslot, ?_⟩
  intro cs' hcs' hrel i hi
  have hkept : ∀ c ∈ cs', ∀ j, Releases c j → j ≠ g := by
    rintro c hc j hj rfl
    exact hrel c hc hj
  obtain ⟨hend, hent⟩ := (ready_stable hA p₀ hready).ringCalls hkept
    (fun src bytes s hm hb _ h => ⟨h.1.register hb (hcs' src bytes hm),
      h.1.ent_register h.2 hready src bytes⟩)
    ⟨hinv', rfl⟩
  rw [hslot, ← hent]
  apply hend.slot_holds
  · rw [hent]
    exact hready
  · rw [hent]
    exact hi

/-! ### An engine that copies at once -/

/-- At most `n` descriptors of a chain are copied. -/
def copyChain (ddr : ℕ → UInt8) : ℕ → Option ℕ → Shared → Shared
  | 0, _, sh => sh
  | _ + 1, none, sh => sh
  | n + 1, some d, sh =>
    let sh' := setDone d (copyBytes ddr d (sh.descs d).bytes sh)
    copyChain ddr n (sh'.descs d).next sh'

/-- It copies a chain when it is started, and is idle again. -/
def atOnce (ddr : ℕ → UInt8) : EngineAdapter Unit where
  dmstart d w := (true, { w with sh := copyChain ddr ringMaxDescsSlot (some d) w.sh })
  dmlink _ _ w := (false, w)
  dmpoll w := (.idle, w)
  dmwait w := w
  spin _ w := w
  clockUs _ := 0

theorem copyBytes_steps (ddr : ℕ → UInt8) {sh : Shared} {d n : ℕ} (hn : n ≤ (sh.descs d).bytes) :
    ReflTransGen (EngStep ddr) sh (copyBytes ddr d n sh) ∧ SameFill sh (copyBytes ddr d n sh) ∧
      ∀ i < n, ((copyBytes ddr d n sh).descs d).copied i = true := by
  induction n with
  | zero => exact ⟨.refl, ⟨fun _ => rfl, fun _ => rfl, fun _ => rfl, fun _ => rfl⟩, by simp⟩
  | succ n ih =>
    obtain ⟨hsteps, hfill, hcopied⟩ := ih (Nat.le_of_succ_le hn)
    have hone : SameFill (copyBytes ddr d n sh) (copyBytes ddr d (n + 1) sh) := sameFill_copyByte
    refine ⟨hsteps.tail (.copy _ d n ?_), hfill.trans hone, ?_⟩
    · rw [hfill.bytes]
      exact hn
    · intro i hi
      show ((copyByte ddr d n (copyBytes ddr d n sh)).descs d).copied i = true
      rw [copied_copyByte]
      by_cases heq : i = n
      · simp [heq]
      · rw [hcopied i (by omega), Bool.or_true]

theorem copyChain_steps (n : ℕ) (d : Option ℕ) (sh : Shared) :
    ReflTransGen (EngStep ddr) sh (copyChain ddr n d sh) := by
  induction n generalizing d sh with
  | zero => exact .refl
  | succ n ih =>
    cases d with
    | none => exact .refl
    | some d =>
      obtain ⟨hsteps, hfill, hcopied⟩ := copyBytes_steps ddr (le_refl (sh.descs d).bytes)
      apply ReflTransGen.trans _ (ih _ _)
      apply hsteps.tail
      apply EngStep.finish
      rw [hfill.bytes]
      exact hcopied

theorem atOnce_copies (ddr : ℕ → UInt8) : (atOnce ddr).Copies ddr where
  dmstart _ _ := copyChain_steps _ _ _
  dmlink _ _ _ := .refl
  dmpoll _ := .refl
  dmwait _ := .refl
  spin _ _ := .refl

def addressBytes (a : ℕ) : UInt8 := UInt8.ofNat a

/-- A ring of two slots of four bytes each, with two descriptors for a slot. -/
def twoSlots : Policy where
  nSlots := 2
  dpSlot := 2
  slotBytes := 4
  slots := 256
  ent _ := RingEnt.zero
  nEnq := 0
  nQsub := 0
  nFired := 0
  nReady := 0
  nRel := 0
  fireTail := none
  fireTailPred := none
  fireDepthBoost := false
  failed := false

/-- Three groups are enqueued, and the first one is waited for. -/
def threeGroups : List RingCall := [.enqueue 0 4, .enqueue 8 3, .enqueue 16 4, .need 0 5 1]

def secondNeeded : Option NeedResult × Sys Unit :=
  ringNeed (atOnce addressBytes) 1 5 1
    (ringCalls (atOnce addressBytes) threeGroups (ringStart twoSlots () addressBytes))

/-- The second group is ready, and stays so while the first one makes place for the third. -/
theorem twoSlots_safe :
    secondNeeded.1 = some (.ready 260) ∧
    ∀ i < 3, (ringCalls (atOnce addressBytes) [.release 0, .enqueue 24 2]
      secondNeeded.2).world.sh.mem (260 + i) = addressBytes (8 + i) := by
  have hcreate : ringCreate 2 2 4 256 = some twoSlots := rfl
  have hfit : AllFit twoSlots threeGroups := by
    intro src bytes hm
    simp only [threeGroups, List.mem_cons, RingCall.enqueue.injEq, List.not_mem_nil] at hm
    obtain ⟨-, rfl⟩ | ⟨-, rfl⟩ | ⟨-, rfl⟩ | hm := hm
    · decide
    · decide
    · decide
    · simp at hm
  have hfit' : AllFit twoSlots [.release 0, .enqueue 24 2] := by
    intro src bytes hm
    simp only [List.mem_cons, RingCall.enqueue.injEq, List.not_mem_nil] at hm
    obtain hm | ⟨-, rfl⟩ | hm := hm
    · cases hm
    · decide
    · cases hm
  have hkept : ∀ c ∈ [RingCall.release 0, .enqueue 24 2], ¬ Releases c 1 := by
    intro c hc
    simp only [List.mem_cons, List.not_mem_nil, or_false] at hc
    obtain rfl | rfl := hc
    · exact Nat.one_ne_zero
    · exact not_false
  have hone : secondNeeded.1 = some (.ready 260) := by decide +kernel
  have hsrc : (secondNeeded.2.pol.ent 1).src = 8 := by decide +kernel
  have hbytes : (secondNeeded.2.pol.ent 1).bytes = 3 := by decide +kernel
  obtain ⟨-, -, hneed⟩ :=
    ring_data_safe (atOnce_copies addressBytes) hcreate () addressBytes hfit
  have hpair : secondNeeded = (some (.ready 260), secondNeeded.2) := by
    rw [← hone]
  have hready : (secondNeeded.2.pol.ent 1).state ≠ .gone := by decide +kernel
  have hheld := hneed 1 5 1 260 secondNeeded.2 hpair hready
  constructor
  · exact hone
  · intro i hi
    rw [← hsrc]
    exact hheld.2 _ hfit' hkept i (hbytes ▸ hi)

/-- A group of two slots has two descriptors, and the second one writes to the slot of the next
group. -/
theorem twoSlots_span_leaves_slot :
    ringCreate 2 2 4 256 = some twoSlots ∧ (atOnce addressBytes).Copies addressBytes ∧
      ¬ WritesInside (ringCalls (atOnce addressBytes) [.enqueue 0 8]
        (ringStart twoSlots () addressBytes)) := by
  constructor
  · rfl
  · constructor
    · exact atOnce_copies addressBytes
    · decide +kernel

end Gehtp.Analysis.RingSafe
