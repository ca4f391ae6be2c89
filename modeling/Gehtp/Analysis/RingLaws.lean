import Mathlib.Tactic.Positivity
import Gehtp.Analysis.RingChain
import Gehtp.Analysis.RingCursors

/-!
# The doorbell laws

The prefetch ring with the simulated engine. Time goes forward only, and every doorbell takes longer
than the engine needs to accept one. The ring starts the engine only after it was found not to run
and the retire window was waited for, and links a group only to a tail that is in the chain of the
engine. Then the engine never sees a law broken.

Re-kicking a group is the exception. `ring_need` waits for the engine first, but waiting does not
wait for an engine that still runs, and the group may have been done in the meantime. The first
breaks a law at once; after the second, the tail that the ring has noted may be a descriptor that is
used for another group.
-/

set_option autoImplicit false

namespace Gehtp.Analysis.RingLaws

open Model.RingPolicy Model.RingSim Analysis.RingSteps Analysis.RingCursors Analysis.RingChain

variable {ddr : ℕ → UInt8} {L : Spans} {tail pred : Option ℕ} {w : World Engine} {N : ℕ}

/-! ### The engine -/

/-- The descriptors are as the state of the engine says. -/
structure EngOk (L : Spans) (tail pred : Option ℕ) (w : World Engine) : Prop where
  common : Common L w.sh.descs
  running : w.eng.st = .run →
    ∃ h F a i, Chain L w.sh.descs tail pred w.eng.head w.eng.cur h F a i
  parked : w.eng.st ≠ .run → Parked L w.sh.descs
  single : w.eng.singleShot = false

/-- What happens next is ahead, and the last doorbell was accepted. -/
structure Timed (e : Engine) : Prop where
  run_lt : e.st = .run → e.now < e.curTEnd
  retire_lt : e.st = .retire → e.now < e.retireEnd
  gap : e.lastDoorbellT + tDoorbell ≤ e.now

/-- No law was broken, and the pool has at least `N` descriptors. -/
structure WorldOk (L : Spans) (tail pred : Option ℕ) (N : ℕ) (w : World Engine) : Prop where
  eng : EngOk L tail pred w
  timed : Timed w.eng
  frozen : w.eng.frozen = none
  pool : N ≤ w.eng.poolN

/-- What does not change while descriptors are executed. -/
structure SameRest (e e' : Engine) : Prop where
  now : e'.now = e.now
  lastDoorbellT : e'.lastDoorbellT = e.lastDoorbellT
  frozen : e'.frozen = e.frozen
  poolN : e'.poolN = e.poolN

theorem SameRest.refl (e : Engine) : SameRest e e := ⟨rfl, rfl, rfl, rfl⟩

theorem SameRest.trans {e e' e'' : Engine} (h : SameRest e e') (h' : SameRest e' e'') :
    SameRest e e'' where
  now := h'.now.trans h.now
  lastDoorbellT := h'.lastDoorbellT.trans h.lastDoorbellT
  frozen := h'.frozen.trans h.frozen
  poolN := h'.poolN.trans h.poolN

theorem copyBytes_desc (d n d' : ℕ) (sh : Shared) :
    ((copyBytes ddr d n sh).descs d').next = (sh.descs d').next ∧
      ((copyBytes ddr d n sh).descs d').done = (sh.descs d').done := by
  induction n with
  | zero => exact ⟨rfl, rfl⟩
  | succ n ih =>
    rw [← ih.1, ← ih.2]
    simp only [copyBytes, copyByte, Function.update_apply]
    split <;> simp_all

variable {sh : Shared} {rekicks : List (RingEnt × World Engine)}

theorem setDone_completed {sh' : Shared} {d : ℕ}
    (hnext : ∀ d', (sh'.descs d').next = (sh.descs d').next)
    (hdone : ∀ d', (sh'.descs d').done = (sh.descs d').done) :
    Completed sh.descs (setDone d sh').descs d where
  next d' := by
    rw [← hnext]
    simp only [setDone, Function.update_apply]
    split <;> simp_all
  self := by simp [setDone]
  done d' hne := by
    rw [← hdone]
    simp [setDone, Function.update_of_ne hne]

theorem landed_completed (e : Engine) (sh : Shared) :
    Completed sh.descs (landed ddr e sh).descs e.cur := by
  unfold landed
  split
  case isTrue => exact setDone_completed (fun _ => rfl) (fun _ => rfl)
  case isFalse =>
    exact setDone_completed (fun d' => (copyBytes_desc _ _ d' sh).1)
      (fun d' => (copyBytes_desc _ _ d' sh).2)

theorem EngOk.complete (hL : L.Ok) (h : EngOk L tail pred w) (hrun : w.eng.st = .run) :
    EngOk L tail pred (complete ddr w) := by
  obtain ⟨g, F, a, i, hc⟩ := h.running hrun
  have hd : Completed w.sh.descs (landed ddr w.eng w.sh).descs w.eng.cur :=
    landed_completed w.eng w.sh
  have hnext : following { w.eng with earlyDone := false } (landed ddr w.eng w.sh)
      = (w.sh.descs w.eng.cur).next := by
    unfold following
    rw [if_neg (by simp [h.single])]
    exact hd.next _
  have hcom := h.common.complete hL hd hc
  unfold Model.RingSim.complete
  dsimp only
  rw [hnext]
  cases hnx : (w.sh.descs w.eng.cur).next with
  | some nx =>
    obtain ⟨a', i', hc'⟩ := hc.complete_some hL hd h.common hnx
    exact ⟨hcom, fun _ => ⟨g, F, a', i', hc'⟩, fun hne => absurd hrun hne, h.single⟩
  | none =>
    have hp := hc.complete_none hL hd h.common hnx
    exact ⟨hcom, fun hr => EngState.noConfusion hr, fun _ => hp, rfl⟩

theorem complete_rest (w : World Engine) : SameRest w.eng (complete ddr w).eng := by
  unfold complete
  dsimp only
  split
  · exact ⟨rfl, rfl, rfl, rfl⟩
  · exact ⟨rfl, rfl, rfl, rfl⟩

theorem EngOk.settleLoop (ddr : ℕ → UInt8) (hL : L.Ok) (n : ℕ) (t : ℚ) (h : EngOk L tail pred w) :
    EngOk L tail pred (settleLoop ddr n t w) ∧ SameRest w.eng (settleLoop ddr n t w).eng := by
  induction n generalizing w with
  | zero => exact ⟨h, .refl _⟩
  | succ n ih =>
    unfold Model.RingSim.settleLoop
    split
    case isTrue => exact ⟨h, .refl _⟩
    case isFalse hrun =>
      split
      case isTrue => exact ⟨h, .refl _⟩
      case isFalse =>
        obtain ⟨hok, hrest⟩ := ih (h.complete hL (not_not.mp hrun))
        exact ⟨hok, (complete_rest w).trans hrest⟩

theorem xferUs_nonneg (bytes : ℕ) : 0 ≤ xferUs bytes := by
  unfold xferUs bwEng
  positivity

theorem complete_curTEnd (hrun : (complete ddr w).eng.st = .run) :
    w.eng.curTEnd + tDesc ≤ (complete ddr w).eng.curTEnd := by
  unfold complete at hrun ⊢
  dsimp only at hrun ⊢
  split at hrun
  · exact le_add_of_nonneg_right (xferUs_nonneg _)
  · cases hrun

theorem settleLoop_of_not_run (n : ℕ) (t : ℚ) (hrun : w.eng.st ≠ .run) :
    settleLoop ddr n t w = w := by
  cases n with
  | zero => rfl
  | succ n =>
    unfold settleLoop
    rw [if_pos hrun]

theorem settleLoop_ahead (n : ℕ) (t : ℚ) (hn : t < w.eng.curTEnd + n * tDesc)
    (hrun : (settleLoop ddr n t w).eng.st = .run) : t < (settleLoop ddr n t w).eng.curTEnd := by
  induction n generalizing w with
  | zero =>
    rw [Nat.cast_zero, zero_mul, add_zero] at hn
    exact hn
  | succ n ih =>
    unfold settleLoop at hrun ⊢
    split
    case isTrue hne =>
      rw [if_pos hne] at hrun
      exact absurd hrun hne
    case isFalse hne =>
      rw [if_neg hne] at hrun
      split
      case isTrue hlt => exact hlt
      case isFalse hlt =>
        rw [if_neg hlt] at hrun
        by_cases hrun' : (complete ddr w).eng.st = .run
        · apply ih _ hrun
          have hle := complete_curTEnd hrun'
          rw [Nat.cast_succ, add_mul, one_mul] at hn
          linarith
        · rw [settleLoop_of_not_run n t hrun'] at hrun
          exact absurd hrun hrun'

theorem settle_ahead (ddr : ℕ → UInt8) (w : World Engine) (t : ℚ)
    (hrun : (settle ddr t w).eng.st = .run) :
    t < (settle ddr t w).eng.curTEnd := by
  apply settleLoop_ahead _ t _ hrun
  have hfloor := Nat.lt_floor_add_one ((t - w.eng.curTEnd) / tDesc)
  have hpos : (0 : ℚ) < tDesc := by norm_num [tDesc]
  rw [div_lt_iff₀ hpos] at hfloor
  rw [Nat.cast_succ]
  linarith

theorem settle_now (h : Timed w.eng) : settle ddr w.eng.now w = w := by
  by_cases hrun : w.eng.st = .run
  · unfold settle settleLoop
    rw [if_neg (not_not.mpr hrun), if_pos (h.run_lt hrun)]
  · exact settleLoop_of_not_run _ _ hrun

theorem closeRetire_st (w : World Engine) : (closeRetire w).eng.st = .run ↔ w.eng.st = .run := by
  unfold closeRetire
  split
  case isTrue h => simp [h.1]
  case isFalse => exact Iff.rfl

theorem closeRetire_rest (w : World Engine) :
    SameRest w.eng (closeRetire w).eng ∧ (closeRetire w).sh = w.sh ∧
      (closeRetire w).eng.head = w.eng.head ∧ (closeRetire w).eng.cur = w.eng.cur ∧
      (closeRetire w).eng.curTEnd = w.eng.curTEnd ∧
      (closeRetire w).eng.singleShot = w.eng.singleShot := by
  unfold closeRetire
  split
  · exact ⟨⟨rfl, rfl, rfl, rfl⟩, rfl, rfl, rfl, rfl, rfl⟩
  · exact ⟨⟨rfl, rfl, rfl, rfl⟩, rfl, rfl, rfl, rfl, rfl⟩

theorem closeRetire_retire (hst : (closeRetire w).eng.st = .retire) :
    (closeRetire w).eng.now < (closeRetire w).eng.retireEnd := by
  unfold closeRetire at hst ⊢
  split
  case isTrue h =>
    rw [if_pos h] at hst
    cases hst
  case isFalse h =>
    rw [if_neg h] at hst
    by_contra hle
    exact h ⟨hst, le_of_not_gt hle⟩

theorem EngOk.closeRetire (h : EngOk L tail pred w) : EngOk L tail pred (closeRetire w) := by
  obtain ⟨-, hsh, hhead, hcur, -, hsingle⟩ := closeRetire_rest w
  constructor
  · rw [hsh]
    exact h.common
  · rw [closeRetire_st, hsh, hhead, hcur]
    exact h.running
  · rw [Ne, closeRetire_st, hsh]
    exact h.parked
  · rw [hsingle]
    exact h.single

theorem WorldOk.advance (hL : L.Ok) (h : EngOk L tail pred w) (hfrozen : w.eng.frozen = none)
    (hpool : N ≤ w.eng.poolN) {us : ℚ} (hgap : w.eng.lastDoorbellT + tDoorbell ≤ w.eng.now + us) :
    WorldOk L tail pred N (simAdvance ddr us w) := by
  let w₁ : World Engine := { w with eng := { w.eng with now := w.eng.now + us } }
  have h₁ : EngOk L tail pred w₁ := ⟨h.common, h.running, h.parked, h.single⟩
  obtain ⟨h₂, hrest⟩ := h₁.settleLoop ddr hL
    (⌊(w.eng.now + us - w.eng.curTEnd) / tDesc⌋₊ + 1) (w.eng.now + us)
  have hahead := settle_ahead ddr w₁ (w.eng.now + us)
  obtain ⟨hrest', -, -, -, hend, -⟩ := closeRetire_rest (settle ddr (w.eng.now + us) w₁)
  have hnow : (simAdvance ddr us w).eng.now = w.eng.now + us :=
    hrest'.now.trans hrest.now
  refine ⟨h₂.closeRetire, ⟨?_, ?_, ?_⟩, ?_, ?_⟩
  · intro hrun
    rw [hnow]
    exact (hahead ((closeRetire_st _).mp hrun)).trans_eq hend.symm
  · exact closeRetire_retire
  · rw [hnow]
    exact (congrArg (· + tDoorbell) (hrest'.lastDoorbellT.trans hrest.lastDoorbellT)).trans_le hgap
  · exact (hrest'.frozen.trans hrest.frozen).trans hfrozen
  · exact hpool.trans_eq (hrest'.poolN.trans hrest.poolN).symm

theorem simAdvance_idle (us : ℚ) (hst : w.eng.st = .idle) :
    simAdvance ddr us w = { w with eng := { w.eng with now := w.eng.now + us } } := by
  unfold simAdvance settle
  dsimp only
  rw [settleLoop_of_not_run _ _ (by simp [hst])]
  unfold closeRetire
  rw [if_neg (by simp [hst])]

theorem noteDoorbell_idle (hst : w.eng.st = .idle) :
    noteDoorbell ddr w = { w with
      eng := { w.eng with lastDoorbellT := w.eng.now, now := w.eng.now + tDoorbell } } :=
  simAdvance_idle _ hst

theorem simAdvance_retire (hst : w.eng.st = .retire) :
    (simAdvance ddr (w.eng.retireEnd - w.eng.now) w).eng.st = .idle := by
  unfold simAdvance settle
  dsimp only
  rw [settleLoop_of_not_run _ _ (by simp [hst])]
  unfold closeRetire
  rw [if_pos (by simp [hst])]

theorem opPoll_eq (h : Timed w.eng) :
    opPoll ddr w = (if w.eng.st = .run then .run else .idle, w) := by
  unfold opPoll
  rw [settle_now h]

theorem WorldOk.wait (ddr : ℕ → UInt8) (hL : L.Ok) (h : WorldOk L tail pred N w) :
    WorldOk L tail pred N (opWait ddr w) ∧
      (w.eng.st ≠ .run → (opWait ddr w).eng.st = .idle) ∧
      (w.eng.st = .run → (opWait ddr w).eng.st = .run) := by
  have hok : WorldOk L tail pred N (waitRetire ddr w) := by
    unfold waitRetire
    split
    case isTrue hst =>
      apply WorldOk.advance hL h.eng h.frozen h.pool
      have hlt := h.timed.retire_lt hst
      have hgap := h.timed.gap
      linarith
    case isFalse => exact h
  have hidle : w.eng.st ≠ .run → (waitRetire ddr w).eng.st = .idle := by
    intro hne
    unfold waitRetire
    split
    case isTrue hst => exact simAdvance_retire hst
    case isFalse hst =>
      cases hcase : w.eng.st with
      | idle => rfl
      | run => exact absurd hcase hne
      | retire => exact absurd hcase hst
  have hrun : w.eng.st = .run → (waitRetire ddr w).eng.st = .run := by
    intro hst
    unfold waitRetire
    rw [if_neg (by simp [hst])]
    exact hst
  unfold opWait
  rw [settle_now h.timed]
  refine ⟨⟨⟨hok.eng.common, hok.eng.running, hok.eng.parked, hok.eng.single⟩, ?_, hok.frozen,
    hok.pool⟩, hidle, hrun⟩
  exact ⟨hok.timed.run_lt, hok.timed.retire_lt, hok.timed.gap⟩

theorem doorbellGapOk_of_timed {e : Engine} (h : Timed e) : doorbellGapOk e = true := by
  have hgap := h.gap
  unfold doorbellGapOk
  rw [Bool.or_eq_true_iff]
  left
  apply decide_eq_true
  unfold wAccept
  unfold tDoorbell at hgap
  linarith

theorem WorldOk.noteDoorbell (hL : L.Ok) (h : EngOk L tail pred w) (hfrozen : w.eng.frozen = none)
    (hpool : N ≤ w.eng.poolN) : WorldOk L tail pred N (noteDoorbell ddr w) := by
  have h' : EngOk L tail pred { w with eng := { w.eng with lastDoorbellT := w.eng.now } } :=
    ⟨h.common, h.running, h.parked, h.single⟩
  exact WorldOk.advance hL h' hfrozen hpool le_rfl

/-- An idle engine is started at a group that was not touched. If the doorbell is lost, the group
stays so. -/
theorem WorldOk.start (ddr : ℕ → UInt8) (h : WorldOk L tail pred N w)
    (hidle : w.eng.st = .idle) {L' : Spans}
    (hL : L'.Ok) (hcom : Common L' w.sh.descs) {k : ℕ} (hk : L'.Holds k) (hlt : k < L'.nFired)
    (hun : AllUndone L' w.sh.descs k) (hnone : (w.sh.descs (L'.last k)).next = none)
    (hother : ∀ g, L'.Holds g → g < L'.nFired → g ≠ k → Settled L' w.sh.descs g)
    (pred' : Option ℕ) (hpred : 1 < L'.nd k → pred' = some (L'.last k - 1)) (hN : L'.base k < N) :
    (opStart ddr (L'.base k) w).1 = true ∧
      WorldOk L' (some (L'.last k)) pred' N (opStart ddr (L'.base k) w).2 := by
  have htimed : Timed { w.eng with singleShot := false } := { h.timed with }
  have hgap := doorbellGapOk_of_timed htimed
  have hpool : inPool { w.eng with singleShot := false } (L'.base k) = true :=
    decide_eq_true (hN.trans_le h.pool)
  have hchain := Chain.start hL hk hlt hun hnone hother hpred
  unfold opStart
  rw [if_neg (by simp [h.frozen])]
  dsimp only
  rw [if_neg (by simp [hpool]), if_neg (by simp [hidle]), if_neg (by simp [hidle]),
    if_neg (by simp [hgap])]
  refine ⟨rfl, ?_⟩
  rw [noteDoorbell_idle (by exact hidle)]
  unfold startAt
  dsimp only
  split
  case isTrue =>
    refine ⟨⟨hcom, ?_, ?_, rfl⟩, ⟨?_, ?_, le_rfl⟩, h.frozen, h.pool⟩
    · intro hrun
      rw [hidle] at hrun
      cases hrun
    · intro _ g hg hgl
      by_cases hgk : g = k
      · rw [hgk]
        exact .inr ⟨hun, hnone⟩
      · exact hother g hg hgl hgk
    · intro hrun
      rw [hidle] at hrun
      cases hrun
    · intro hret
      rw [hidle] at hret
      cases hret
  case isFalse =>
    refine ⟨⟨hcom, ?_, ?_, rfl⟩, ⟨?_, ?_, le_rfl⟩, h.frozen, h.pool⟩
    · exact fun _ => ⟨k, L'.nFired, k, 0, hchain⟩
    · exact fun hne => absurd rfl hne
    · intro _
      have hx := xferUs_nonneg (w.sh.descs (L'.base k)).bytes
      have hpos : (0 : ℚ) < tDesc := by norm_num [tDesc]
      show w.eng.now + tDoorbell < w.eng.now + tDoorbell + tDesc + xferUs _
      linarith
    · intro hret
      cases hret

theorem predWalk_congr {sh' : Shared} {cur : ℕ}
    (h : ∀ d, d ≠ cur → (sh'.descs d).next = (sh.descs d).next) (n : ℕ) (d p : Option ℕ) :
    predWalk sh' cur n d p = predWalk sh cur n d p := by
  induction n generalizing d p with
  | zero => rfl
  | succ n ih =>
    cases d with
    | none => rfl
    | some d =>
      unfold predWalk
      split
      case isTrue => rfl
      case isFalse hne =>
        rw [h d hne]
        exact ih _ _

theorem setNext_linked (t nx : ℕ) (sh : Shared) :
    Linked sh.descs (setNext t (some nx) sh).descs t nx where
  done d := by
    simp only [setNext, Function.update_apply]
    split <;> simp_all
  self := by simp [setNext]
  next d hne := by simp [setNext, Function.update_of_ne hne]

theorem WorldOk.link (ddr : ℕ → UInt8) (hL : L.Ok) (h : WorldOk L tail pred N w) (hrun : w.eng.st = .run)
    (hq : L.nFired < L.nQsub) {t : ℕ} (ht : tail = some t) (htail : (w.sh.descs t).done = false)
    (hpred : Undone w.sh.descs pred) (hN : ∀ g, L.Holds g → (L.nQsub - g) * L.dpSlot ≤ N)
    (htN : t < N) (hkN : L.base L.nFired < N) :
    (opLink ddr t (L.base L.nFired) w).1 = true ∧
      WorldOk L.fire (some (L.last L.nFired))
        (if 1 < L.nd L.nFired then some (L.last L.nFired - 1) else tail) N
        (opLink ddr t (L.base L.nFired) w).2 := by
  obtain ⟨g, F, a, i, hc⟩ := h.eng.running hrun
  have hpool := h.pool
  have htl : t = L.last (tailGroup g F L.nFired) := by
    have heq := hc.tail_eq
    rw [ht] at heq
    exact Option.some.inj heq
  let sh' := setNext t (some (L.base L.nFired)) w.sh
  have hd : Linked w.sh.descs sh'.descs t (L.base L.nFired) := setNext_linked t _ w.sh
  have hslack : slackOk { w with sh := sh' } t = some true := by
    have hwalk := hc.walk hL h.eng.common hpred
      (n := w.eng.poolN + 1) (fun g' hg' => by have := hN g' hg'; omega)
    rw [← htl] at hwalk
    obtain ⟨p, hp, hundone⟩ := hwalk
    have hp' : predWalk sh' t (w.eng.poolN + 1) w.eng.head none = some p :=
      (predWalk_congr hd.next _ _ _).trans hp
    unfold slackOk
    rw [if_neg (by simp [hd.done, htail])]
    dsimp only
    rw [hp']
    cases p with
    | none => rfl
    | some q =>
      have hq := hundone q rfl
      simp [hd.done, hq]
  have hchain := hc.link_next hL h.eng.common hq (htl ▸ hd)
  have hcom : Common L sh'.descs :=
    h.eng.common.linked hL (hc.tail_holds hL) (tailGroup_lt hc.start_lt hc.linked_le) (htl ▸ hd)
  have heng : EngOk L.fire (some (L.last L.nFired))
      (if 1 < L.nd L.nFired then some (L.last L.nFired - 1) else tail) { w with sh := sh' } :=
    ⟨hcom.fire, fun _ => ⟨g, F, a, i, hchain⟩, fun hne => absurd hrun hne, h.eng.single⟩
  have hgap : doorbellGapOk w.eng = true := doorbellGapOk_of_timed h.timed
  have hin : inPool w.eng t = true := decide_eq_true (htN.trans_le hpool)
  have hin' : inPool w.eng (L.base L.nFired) = true := decide_eq_true (hkN.trans_le hpool)
  unfold opLink
  rw [if_neg (by simp [h.frozen]), if_neg (by simp [hin, hin']), if_neg (by simp [hrun])]
  dsimp only
  rw [if_pos hrun]
  unfold linkRunning
  rw [hslack]
  dsimp only
  rw [if_neg (by simp [hgap])]
  exact ⟨rfl, WorldOk.noteDoorbell (hL.fire hq) heng h.frozen h.pool⟩

/-! ### The ring -/

def spans (p : Policy) : Spans where
  nSlots := p.nSlots
  dpSlot := p.dpSlot
  nQsub := p.nQsub
  nFired := p.nFired
  nReady := p.nReady
  nd g := if g < p.nQsub then (p.ent g).nDescs else 0

/-- The descriptors that the groups of a ring may have. -/
def capacity (p : Policy) : ℕ := min p.nSlots ringMaxGroups * p.dpSlot

/-- What holds after every step. -/
structure Laws (p₀ : Policy) (s : Sys Engine) : Prop where
  nSlots_eq : s.pol.nSlots = p₀.nSlots
  dpSlot_eq : s.pol.dpSlot = p₀.dpSlot
  enq_le : s.pol.nEnq ≤ ringMaxGroups
  order : Ordered s.pol
  ok : (spans s.pol).Ok
  dfirst_eq : ∀ g, g < s.pol.nQsub → (s.pol.ent g).dfirst = (spans s.pol).base g
  dlast_eq : ∀ g, g < s.pol.nQsub → (s.pol.ent g).dlast = (spans s.pol).last g
  world : WorldOk (spans s.pol) s.pol.fireTail s.pol.fireTailPred (capacity p₀) s.world

variable {p₀ p : Policy} {s : Sys Engine} {g : ℕ}

theorem spans_nd (hg : g < p.nQsub) : (spans p).nd g = (p.ent g).nDescs := if_pos hg

theorem ent_setState (p : Policy) (g g' : ℕ) (st : EntState) :
    ((p.setEnt g { p.ent g with state := st }).ent g').dfirst = (p.ent g').dfirst ∧
      ((p.setEnt g { p.ent g with state := st }).ent g').dlast = (p.ent g').dlast := by
  rw [ent_setEnt]
  split
  case isTrue hg => rw [hg]; exact ⟨rfl, rfl⟩
  case isFalse => exact ⟨rfl, rfl⟩

theorem spans_setState (p : Policy) (g : ℕ) (st : EntState) :
    spans (p.setEnt g { p.ent g with state := st }) = spans p := by
  have hnd : ∀ g', ((p.setEnt g { p.ent g with state := st }).ent g').nDescs
      = (p.ent g').nDescs := by
    intro g'
    rw [ent_setEnt]
    split
    case isTrue hg => rw [hg]
    case isFalse => rfl
  unfold spans
  congr 1
  funext g'
  rw [hnd]
  rfl

namespace Laws

variable (h : Laws p₀ s)

include h

theorem qsub_le : s.pol.nQsub ≤ ringMaxGroups := h.order.qsub_le.trans h.enq_le

theorem slot_lt (hg : g < s.pol.nQsub) : g % s.pol.nSlots < min p₀.nSlots ringMaxGroups := by
  have hmod := Nat.mod_lt g h.ok.nSlots_pos
  have hle := Nat.mod_le g s.pol.nSlots
  have hq := h.qsub_le
  rw [← h.nSlots_eq]
  exact Nat.lt_min.mpr ⟨hmod, by omega⟩

theorem node_lt {j : ℕ} (hg : g < s.pol.nQsub) (hj : j < (spans s.pol).nd g) :
    (spans s.pol).base g + j < capacity p₀ := by
  have hslot := h.slot_lt hg
  have hj' := hj.trans_le (h.ok.nd_le g hg)
  have hmul : (g % s.pol.nSlots + 1) * s.pol.dpSlot ≤ capacity p₀ := by
    unfold capacity
    rw [h.dpSlot_eq]
    exact Nat.mul_le_mul_right _ hslot
  rw [Nat.succ_mul] at hmul
  exact (Nat.add_lt_add_left hj' _).trans_le hmul

theorem base_lt (hg : g < s.pol.nQsub) : (spans s.pol).base g < capacity p₀ :=
  h.node_lt hg (h.ok.nd_pos g hg)

theorem last_lt (hg : g < s.pol.nQsub) : (spans s.pol).last g < capacity p₀ :=
  h.node_lt hg (Nat.sub_lt (h.ok.nd_pos g hg) Nat.one_pos)

theorem window_le (hg : (spans s.pol).Holds g) :
    ((spans s.pol).nQsub - g) * (spans s.pol).dpSlot ≤ capacity p₀ := by
  have hwin : s.pol.nQsub ≤ g + s.pol.nSlots := hg.2
  have hq := h.qsub_le
  have hle : s.pol.nQsub - g ≤ min p₀.nSlots ringMaxGroups := by
    rw [← h.nSlots_eq]
    exact Nat.le_min.mpr ⟨by omega, by omega⟩
  unfold capacity
  rw [← h.dpSlot_eq]
  exact Nat.mul_le_mul_right _ hle

theorem holds (hrel : s.pol.nRel ≤ g) (hq : g < s.pol.nQsub) : (spans s.pol).Holds g := by
  have hw := h.order.window_le
  exact ⟨hq, show s.pol.nQsub ≤ g + s.pol.nSlots by omega⟩

theorem setWorld {w : World Engine}
    (hw : WorldOk (spans s.pol) s.pol.fireTail s.pol.fireTailPred (capacity p₀) w) :
    Laws p₀ { s with world := w, rekicks := rekicks } :=
  ⟨h.nSlots_eq, h.dpSlot_eq, h.enq_le, h.order, h.ok, h.dfirst_eq, h.dlast_eq, hw⟩

theorem flags {boost failed : Bool} :
    Laws p₀ { s with pol := { s.pol with fireDepthBoost := boost, failed := failed } } :=
  ⟨h.nSlots_eq, h.dpSlot_eq, h.enq_le, h.order.flags, h.ok, h.dfirst_eq, h.dlast_eq, h.world⟩

end Laws

/-! ### Fire -/

theorem slackTail_some {t : ℕ} (hs : slackTail p sh = some t) :
    p.fireTail = some t ∧ (sh.descs t).done = false ∧ Undone sh.descs p.fireTailPred := by
  unfold slackTail at hs
  split at hs
  · cases hs
  · rename_i t' ht
    split at hs
    case isTrue => cases hs
    case isFalse hdone =>
      have hdone' := Bool.eq_false_iff.mpr hdone
      split at hs
      · rename_i hnone
        cases hs
        refine ⟨ht, hdone', ?_⟩
        rw [hnone]
        intro q hq
        cases hq
      · rename_i q hq
        split at hs
        case isTrue => cases hs
        case isFalse hqd =>
          cases hs
          refine ⟨ht, hdone', ?_⟩
          rw [hq]
          rintro _ ⟨⟩
          exact Bool.eq_false_iff.mpr hqd

theorem spans_fired (s : Sys Engine) : spans (fired s).pol = (spans s.pol).fire :=
  congrArg Spans.fire (spans_setState s.pol s.pol.nFired .submit)

theorem Laws.fired (h : Laws p₀ s) (hq : s.pol.nFired < s.pol.nQsub) {w : World Engine}
    (hw : WorldOk (spans s.pol).fire (some ((spans s.pol).last s.pol.nFired))
      (if 1 < (spans s.pol).nd s.pol.nFired then some ((spans s.pol).last s.pol.nFired - 1)
        else s.pol.fireTail) (capacity p₀) w) :
    Laws p₀ (fired { s with world := w }) := by
  have hent : ∀ g, ((Model.RingPolicy.fired { s with world := w }).pol.ent g).dfirst
      = (s.pol.ent g).dfirst ∧ ((Model.RingPolicy.fired { s with world := w }).pol.ent g).dlast
      = (s.pol.ent g).dlast :=
    fun g => ent_setState s.pol s.pol.nFired g .submit
  have hspans := spans_fired { s with world := w }
  constructor
  case nSlots_eq => exact h.nSlots_eq
  case dpSlot_eq => exact h.dpSlot_eq
  case enq_le => exact h.enq_le
  case order => exact Ordered.fired (s := { s with world := w }) h.order hq
  case ok =>
    rw [hspans]
    exact h.ok.fire hq
  case dfirst_eq =>
    intro g hg
    rw [hspans, (hent g).1]
    exact h.dfirst_eq g hg
  case dlast_eq =>
    intro g hg
    rw [hspans, (hent g).2]
    exact h.dlast_eq g hg
  case world =>
    rw [hspans]
    have hlast := h.dlast_eq _ hq
    have hnd := spans_nd hq
    rw [hnd, ← hlast] at hw
    exact hw

theorem Laws.afterDoorbell (h : Laws p₀ s) (hq : s.pol.nFired < s.pol.nQsub)
    {r : Bool × World Engine} (hok : r.1 = true)
    (hw : WorldOk (spans s.pol).fire (some ((spans s.pol).last s.pol.nFired))
      (if 1 < (spans s.pol).nd s.pol.nFired then some ((spans s.pol).last s.pol.nFired - 1)
        else s.pol.fireTail) (capacity p₀) r.2) :
    Laws p₀ (afterDoorbell s r).2 := by
  unfold Model.RingPolicy.afterDoorbell
  dsimp only
  rw [if_pos hok]
  exact h.fired hq hw

theorem Laws.fireOne (h : Laws p₀ s) (hq : s.pol.nFired < s.pol.nQsub) :
    Laws p₀ (fireOne (simAdapter ddr) s).2 := by
  have hpoll : (simAdapter ddr).dmpoll s.world
      = (if s.world.eng.st = .run then .run else .idle, s.world) := opPoll_eq h.world.timed
  have hdfirst := h.dfirst_eq _ hq
  unfold Model.RingPolicy.fireOne
  rw [hpoll, hdfirst]
  dsimp only
  by_cases hrun : s.world.eng.st = .run
  · rw [if_pos hrun, if_pos rfl]
    split
    case h_1 => exact h
    case h_2 t ht =>
      obtain ⟨htail, hdone, hpred⟩ := slackTail_some ht
      have htlt : t < capacity p₀ := by
        obtain ⟨g, F, a, i, hc⟩ := h.world.eng.running hrun
        have heq := hc.tail_eq
        rw [htail] at heq
        rw [Option.some.inj heq]
        exact h.last_lt (hc.tail_holds h.ok).1
      obtain ⟨hok, hw⟩ := h.world.link ddr h.ok hrun hq htail hdone hpred
        (fun g hg => h.window_le hg) htlt (h.base_lt hq)
      exact h.afterDoorbell hq hok hw
  · rw [if_neg hrun, if_neg (by decide)]
    obtain ⟨hwait, hidle, -⟩ := h.world.wait ddr h.ok
    have hst := hidle hrun
    have hcom := hwait.eng.common
    have hparked := hwait.eng.parked (by simp [hst])
    have hle := h.order.rel_le.trans h.order.ready_le
    obtain ⟨hok, hw⟩ := hwait.start ddr hst (h.ok.fire hq) hcom.fire
      (h.holds hle hq) (Nat.lt_succ_self _) (hcom.fresh _ le_rfl hq) (hcom.fresh_next _ le_rfl hq)
      (fun g hg hlt hne => hparked g hg (Nat.lt_of_le_of_ne (Nat.le_of_lt_succ hlt) hne))
      (if 1 < (spans s.pol).nd s.pol.nFired then some ((spans s.pol).last s.pol.nFired - 1)
        else s.pol.fireTail) (fun hnd => if_pos hnd) (h.base_lt hq)
    exact h.afterDoorbell hq hok hw

/-! ### Ready groups and re-kicks -/

theorem chainDone_from (hcom : Common L sh.descs) (hg : L.Holds g) (n j : ℕ) (hj : j + n = L.nd g) :
    chainDone sh n (some (L.base g + j)) = true ↔
      ∀ i, j ≤ i → i < L.nd g → (sh.descs (L.base g + i)).done = true := by
  induction n generalizing j with
  | zero =>
    constructor
    · intro _ i hi hlt
      omega
    · exact fun _ => rfl
  | succ n ih =>
    have hnext : chainDone sh n (sh.descs (L.base g + j)).next = true ↔
        ∀ i, j + 1 ≤ i → i < L.nd g → (sh.descs (L.base g + i)).done = true := by
      cases n with
      | zero =>
        constructor
        · intro _ i hi hlt
          omega
        · exact fun _ => rfl
      | succ n =>
        rw [hcom.inner g j hg (by omega)]
        exact ih (j + 1) (by omega)
    unfold chainDone
    rw [Bool.and_eq_true_iff, hnext]
    constructor
    · rintro ⟨hself, hrest⟩ i hi hlt
      by_cases heq : i = j
      · rw [heq]
        exact hself
      · exact hrest i (by omega) hlt
    · intro hall
      exact ⟨hall j le_rfl (by omega), fun i hi hlt => hall i (by omega) hlt⟩

theorem chainDone_iff (hcom : Common L sh.descs) (hg : L.Holds g) :
    chainDone sh (L.nd g) (some (L.base g)) = true ↔ AllDone L sh.descs g := by
  have key := chainDone_from hcom hg (L.nd g) 0 (Nat.zero_add _)
  rw [Nat.add_zero] at key
  rw [key]
  constructor
  · exact fun hall i hi => hall i (Nat.zero_le i) hi
  · exact fun hall i _ hi => hall i hi

/-- The engine was idle and the group was not done when it was kicked again. -/
def KickOk (k : RingEnt × World Engine) : Prop :=
  k.2.eng.st ≠ .run ∧ chainDone k.2.sh k.1.nDescs (some k.1.dfirst) = false

instance (k : RingEnt × World Engine) : Decidable (KickOk k) :=
  inferInstanceAs (Decidable (_ ∧ _))

theorem Laws.rekicked (h : Laws p₀ s) (hg : g < s.pol.nQsub) {w : World Engine}
    (hw : WorldOk (spans s.pol) (some ((spans s.pol).last g))
      (if 1 < (spans s.pol).nd g then some ((spans s.pol).last g - 1) else none) (capacity p₀) w) :
    Laws p₀ (rekicked g { s with world := w, rekicks := rekicks }) := by
  rw [spans_nd hg, ← h.dlast_eq g hg] at hw
  exact ⟨h.nSlots_eq, h.dpSlot_eq, h.enq_le, h.order.flags, h.ok, h.dfirst_eq, h.dlast_eq, hw⟩

theorem Laws.rekick_ok (h : Laws p₀ s) (hg : g < s.pol.nQsub) {r : Bool × World Engine}
    (hok : r.1 = true)
    (hw : WorldOk (spans s.pol) (some ((spans s.pol).last g))
      (if 1 < (spans s.pol).nd g then some ((spans s.pol).last g - 1) else none)
      (capacity p₀) r.2) :
    Laws p₀ (if r.1 then (true, Model.RingPolicy.rekicked g { s with world := r.2, rekicks := rekicks })
      else (false, { s with world := r.2, rekicks := rekicks })).2 := by
  rw [if_pos hok]
  exact h.rekicked hg hw

theorem Laws.rekick (h : Laws p₀ s) (hg : (s.pol.ent g).state = .submit)
    (hkick : KickOk (s.pol.ent g, opWait ddr s.world)) :
    Laws p₀ (rekick (simAdapter ddr) g s).2 := by
  obtain ⟨hready, hfired⟩ := h.order.submit_lt hg
  have hq := hfired.trans_le h.order.fired_le
  have hhold := h.holds (h.order.rel_le.trans hready) hq
  obtain ⟨hwait, hidle, hrun⟩ := h.world.wait ddr h.ok
  have hst : (opWait ddr s.world).eng.st = .idle := hidle fun hr => hkick.1 (hrun hr)
  have hparked := hwait.eng.parked hkick.1
  have hset := hparked g hhold hfired
  have hnot : ¬ AllDone (spans s.pol) (opWait ddr s.world).sh.descs g := by
    intro hdone
    have hchain := (chainDone_iff hwait.eng.common hhold).mpr hdone
    rw [spans_nd hq, ← h.dfirst_eq g hq, hkick.2] at hchain
    cases hchain
  obtain ⟨hun, hnone⟩ := hset.resolve_left hnot
  obtain ⟨hok, hw⟩ := hwait.start ddr hst h.ok hwait.eng.common hhold hfired hun hnone
    (fun g' hg' hlt _ => hparked g' hg' hlt)
    (if 1 < (spans s.pol).nd g then some ((spans s.pol).last g - 1) else none)
    (fun hnd => if_pos hnd) (h.base_lt hq)
  have hdfirst := h.dfirst_eq g hq
  unfold Model.RingPolicy.rekick
  rw [hdfirst]
  exact h.rekick_ok hq hok hw

/-- The spans when one more group is ready. -/
def readySpans (L : Spans) : Spans := { L with nReady := L.nReady + 1 }

theorem WorldOk.setReady (h : WorldOk L tail pred N w) (hdone : AllDone L w.sh.descs L.nReady) :
    WorldOk (readySpans L) tail pred N w := by
  refine { h with eng := { h.eng with common := { h.eng.common with ready := ?_ }, running := ?_ } }
  · intro g hg hlt
    have hlt' : g < L.nReady + 1 := hlt
    by_cases heq : g = L.nReady
    · rw [heq]
      exact hdone
    · exact h.eng.common.ready g hg (by omega)
  · intro hrun
    obtain ⟨g, F, a, i, hc⟩ := h.eng.running hrun
    exact ⟨g, F, a, i, { hc with }⟩

theorem Laws.markReady (h : Laws p₀ s) (hlt : s.pol.nReady < s.pol.nFired)
    (hdone : chainDone s.world.sh (s.pol.ent s.pol.nReady).nDescs
      (some (s.pol.ent s.pol.nReady).dfirst) = true) : Laws p₀ (markReady s) := by
  have hq : s.pol.nReady < s.pol.nQsub := hlt.trans_le h.order.fired_le
  have hhold := h.holds h.order.rel_le hq
  rw [← spans_nd hq, h.dfirst_eq _ hq, chainDone_iff h.world.eng.common hhold] at hdone
  have hspans : spans (Model.RingPolicy.markReady s).pol = readySpans (spans s.pol) :=
    congrArg readySpans (spans_setState s.pol s.pol.nReady .ready)
  have hent : ∀ g, ((Model.RingPolicy.markReady s).pol.ent g).dfirst = (s.pol.ent g).dfirst ∧
      ((Model.RingPolicy.markReady s).pol.ent g).dlast = (s.pol.ent g).dlast :=
    fun g => ent_setState s.pol s.pol.nReady g .ready
  constructor
  case nSlots_eq => exact h.nSlots_eq
  case dpSlot_eq => exact h.dpSlot_eq
  case enq_le => exact h.enq_le
  case order => exact h.order.markReady hlt
  case ok =>
    rw [hspans]
    exact { h.ok with ready_le := hlt }
  case dfirst_eq =>
    intro g hg
    rw [hspans, (hent g).1]
    exact h.dfirst_eq g hg
  case dlast_eq =>
    intro g hg
    rw [hspans, (hent g).2]
    exact h.dlast_eq g hg
  case world =>
    rw [hspans]
    exact h.world.setReady hdone

/-! ### Release, enqueue and claim -/

theorem Laws.samePolicy (h : Laws p₀ s) (ho : Ordered p) (hS : p.nSlots = s.pol.nSlots)
    (hd : p.dpSlot = s.pol.dpSlot) (he : p.nEnq ≤ ringMaxGroups) (hspans : spans p = spans s.pol)
    (hent : ∀ g, g < s.pol.nQsub → (p.ent g).dfirst = (s.pol.ent g).dfirst ∧
      (p.ent g).dlast = (s.pol.ent g).dlast)
    (htail : p.fireTail = s.pol.fireTail) (hpred : p.fireTailPred = s.pol.fireTailPred) :
    Laws p₀ { s with pol := p } := by
  have hq : p.nQsub = s.pol.nQsub := congrArg Spans.nQsub hspans
  constructor
  case nSlots_eq => exact hS.trans h.nSlots_eq
  case dpSlot_eq => exact hd.trans h.dpSlot_eq
  case enq_le => exact he
  case order => exact ho
  case ok =>
    rw [hspans]
    exact h.ok
  case dfirst_eq =>
    intro g hg
    rw [hspans, (hent g (hq ▸ hg)).1]
    exact h.dfirst_eq g (hq ▸ hg)
  case dlast_eq =>
    intro g hg
    rw [hspans, (hent g (hq ▸ hg)).2]
    exact h.dlast_eq g (hq ▸ hg)
  case world =>
    rw [hspans, htail, hpred]
    exact h.world

theorem Laws.markGone (h : Laws p₀ s) (hg : (s.pol.ent g).state = .ready) :
    Laws p₀ (markGone g s) := by
  apply h.samePolicy (h.order.markGone hg) rfl rfl h.enq_le (spans_setState s.pol g .gone) _ rfl rfl
  exact fun g' _ => ent_setState s.pol g g' .gone

theorem Laws.stepRel (h : Laws p₀ s) (hg : (s.pol.ent s.pol.nRel).state = .gone) :
    Laws p₀ (stepRel s) :=
  h.samePolicy (h.order.stepRel hg) rfl rfl h.enq_le rfl (fun _ _ => ⟨rfl, rfl⟩) rfl rfl

theorem Laws.register (h : Laws p₀ s) (hn : s.pol.nEnq < ringMaxGroups) (src bytes : ℕ) :
    Laws p₀ (register src bytes s) := by
  have hold : ∀ g, g < s.pol.nQsub →
      (Model.RingPolicy.register src bytes s).pol.ent g = s.pol.ent g := by
    intro g hg
    have hle := h.order.qsub_le
    exact Function.update_of_ne (by omega) _ _
  apply h.samePolicy (h.order.register src bytes) rfl rfl hn _ _ rfl rfl
  · unfold spans
    congr 1
    funext g
    by_cases hg : g < s.pol.nQsub
    · rw [if_pos hg, ← hold g hg]
      exact if_pos hg
    · rw [if_neg hg]
      exact if_neg hg
  · intro g hg
    rw [← hold g hg]
    exact ⟨rfl, rfl⟩

theorem spanLen_pos (slotBytes bytes : ℕ) : 0 < spanLen slotBytes bytes := by
  have key : ∀ n : ℕ, 0 < if n < 1 then 1 else n := by
    intro n
    split <;> omega
  exact key _

theorem fillSpan_spec (g : ℕ) (e : RingEnt) (slotBytes base nd n off : ℕ) (descs : ℕ → EngDesc)
    (hn : n ≤ nd) :
    (∀ j, nd - n ≤ j → j < nd →
      (fillSpan g e slotBytes base nd n off descs (base + j)).next
        = (if j + 1 < nd then some (base + j + 1) else none) ∧
      (fillSpan g e slotBytes base nd n off descs (base + j)).done = false) ∧
    ∀ d, (∀ j, nd - n ≤ j → j < nd → d ≠ base + j) →
      fillSpan g e slotBytes base nd n off descs d = descs d := by
  induction n generalizing off descs with
  | zero =>
    refine ⟨?_, fun _ _ => rfl⟩
    intro j hj hlt
    omega
  | succ n ih =>
    unfold fillSpan
    dsimp only
    have key := ih (off + min (e.bytes - off) slotBytes) (Function.update descs
      (base + (nd - (n + 1)))
      { next := if nd - (n + 1) + 1 < nd then some (base + (nd - (n + 1)) + 1) else none
        done := false
        src := e.src + off
        dst := e.slot + off
        bytes := min (e.bytes - off) slotBytes
        owner := g
        copied := fun _ => false }) (by omega)
    constructor
    · intro j hj hlt
      by_cases heq : j = nd - (n + 1)
      · rw [key.2 (base + j) (by intro j' hj' _; omega), heq, Function.update_self]
        exact ⟨rfl, rfl⟩
      · exact key.1 j (by omega) hlt
    · intro d hd
      rw [key.2 d (fun j hj hlt => hd j (by omega) hlt)]
      exact Function.update_of_ne (hd _ le_rfl (by omega)) _ _

theorem Laws.claimOne (h : Laws p₀ s) (hc : canClaim s.pol = true)
    (hn : spanLen s.pol.slotBytes (s.pol.ent s.pol.nQsub).bytes ≤ s.pol.dpSlot) :
    Laws p₀ (claimOne s) := by
  obtain ⟨hq, hw, -⟩ := canClaim_iff.mp hc
  have hpos := spanLen_pos s.pol.slotBytes (s.pol.ent s.pol.nQsub).bytes
  have hspec := fillSpan_spec s.pol.nQsub (s.pol.ent s.pol.nQsub) s.pol.slotBytes
    (spanBase s.pol s.pol.nQsub) _ _ 0 s.world.sh.descs
    (le_refl (spanLen s.pol.slotBytes (s.pol.ent s.pol.nQsub).bytes))
  have hr : Refilled (spans s.pol) s.world.sh.descs (Model.RingPolicy.claimOne s).world.sh.descs
      (spanLen s.pol.slotBytes (s.pol.ent s.pol.nQsub).bytes) := by
    constructor
    · exact fun j hj => (hspec.1 j (by omega) hj).1
    · exact fun j hj => (hspec.1 j (by omega) hj).2
    · exact fun d hd => hspec.2 d fun j _ hj => hd j hj
  have hspans : spans (Model.RingPolicy.claimOne s).pol
      = (spans s.pol).claim (spanLen s.pol.slotBytes (s.pol.ent s.pol.nQsub).bytes) := by
    unfold spans Spans.claim
    congr 1
    funext g
    simp only [Model.RingPolicy.claimOne, Policy.setEnt, Function.update_apply]
    by_cases hg : g = s.pol.nQsub
    · simp [hg]
    · have hiff : g < s.pol.nQsub + 1 ↔ g < s.pol.nQsub := by omega
      simp [hg, hiff]
  have hwin : (spans s.pol).nQsub < (spans s.pol).nReady + (spans s.pol).nSlots := by
    have hrel := h.order.rel_le
    show s.pol.nQsub < s.pol.nReady + s.pol.nSlots
    omega
  have hcom := h.world.eng.common
  constructor
  case nSlots_eq => exact h.nSlots_eq
  case dpSlot_eq => exact h.dpSlot_eq
  case enq_le => exact h.enq_le
  case order => exact h.order.claimOne hc
  case ok =>
    rw [hspans]
    exact h.ok.claim hpos hn
  case dfirst_eq =>
    intro g hg
    have hg' : g < s.pol.nQsub + 1 := hg
    rw [hspans]
    simp only [Model.RingPolicy.claimOne, Policy.setEnt, Function.update_apply]
    split
    case isTrue heq => rw [heq]; rfl
    case isFalse hne => exact h.dfirst_eq g (by omega)
  case dlast_eq =>
    intro g hg
    have hg' : g < s.pol.nQsub + 1 := hg
    rw [hspans]
    simp only [Model.RingPolicy.claimOne, Policy.setEnt, Function.update_apply]
    split
    case isTrue heq =>
      rw [heq]
      exact (congrArg (fun n => spanBase s.pol s.pol.nQsub + (n - 1)) Spans.nd_claim_self).symm
    case isFalse hne =>
      rw [Spans.last_claim hne]
      exact h.dlast_eq g (by omega)
  case world =>
    rw [hspans]
    refine { h.world with eng := ⟨hcom.claim h.ok hn hr hwin hpos, ?_, ?_, h.world.eng.single⟩ }
    · intro hrun
      obtain ⟨g, F, a, i, hc⟩ := h.world.eng.running hrun
      exact ⟨g, F, a, i, hc.claim h.ok hn hr hwin hcom⟩
    · intro hne
      exact (h.world.eng.parked hne).claim h.ok hn hr

/-! ### Runs -/

/-- Every group that was kicked again was so with reason. -/
def KicksOk (s : Sys Engine) : Prop := ∀ k ∈ s.rekicks, KickOk k

instance (s : Sys Engine) : Decidable (KicksOk s) :=
  inferInstanceAs (Decidable (∀ k ∈ s.rekicks, KickOk k))

theorem laws_stable (ddr : ℕ → UInt8) (p₀ : Policy) :
    Stable (simAdapter ddr) (fun _ => True) (fun s => KicksOk s → Laws p₀ s) where
  claimOne _ h hc hn hk := (h hk).claimOne hc hn
  fail _ h hk := (h hk).flags
  fireOne s h hc hk := by
    have hrekicks : (fireOne (simAdapter ddr) s).2.rekicks = s.rekicks := by
      unfold fireOne afterDoorbell
      dsimp only
      split
      · split
        · rfl
        · split <;> rfl
      · split <;> rfl
    apply (h _).fireOne (canFire_iff.mp hc).1
    unfold KicksOk at hk ⊢
    rw [hrekicks] at hk
    exact hk
  poll s h hk := by
    have hlaws := h hk
    have hpoll : (simAdapter ddr).dmpoll s.world
        = (if s.world.eng.st = .run then .run else .idle, s.world) := opPoll_eq hlaws.world.timed
    unfold poll
    rw [hpoll]
    exact hlaws
  skipReady _ h hlt hp hk := absurd hp ((h hk).order.not_pastSubmit hlt)
  markReady _ h hlt _ hd hk := (h hk).markReady hlt hd
  setBoost _ _ h hk := (h hk).flags
  rekick g s h hg hk := by
    have hrekicks : (rekick (simAdapter ddr) g s).2.rekicks
        = (s.pol.ent g, opWait ddr s.world) :: s.rekicks := by
      unfold rekick
      dsimp only
      split <;> rfl
    unfold KicksOk at hk
    rw [hrekicks] at hk
    have hlaws := h fun k hm => hk k (List.mem_cons_of_mem _ hm)
    exact hlaws.rekick hg (hk _ List.mem_cons_self)
  spinTwo s h hk := by
    have hlaws := h hk
    apply hlaws.setWorld
    apply WorldOk.advance hlaws.ok hlaws.world.eng hlaws.world.frozen hlaws.world.pool
    have hgap := hlaws.world.timed.gap
    have htwo : (0 : ℚ) ≤ ((2 : ℕ) : ℚ) := Nat.cast_nonneg 2
    linarith
  markGone _ _ h _ hg hk := (h hk).markGone hg
  stepRel _ h _ hg hk := (h hk).stepRel hg

theorem Laws.simAct (h : KicksOk s → Laws p₀ s) (a : SimAct) (hk : KicksOk (simAct ddr a s)) :
    Laws p₀ (simAct ddr a s) := by
  cases a with
  | call c =>
    apply (laws_stable ddr p₀).ringCall (fun _ _ => trivial) _ h hk
    exact fun src bytes s' _ _ hn h' hk' => (h' hk').register hn src bytes
  | loseDoorbell =>
    have hlaws := h hk
    apply hlaws.setWorld
    have hw := hlaws.world
    exact ⟨⟨hw.eng.common, hw.eng.running, hw.eng.parked, hw.eng.single⟩,
      ⟨hw.timed.run_lt, hw.timed.retire_lt, hw.timed.gap⟩, hw.frozen, hw.pool⟩
  | advance us =>
    have hlaws := h hk
    apply hlaws.setWorld
    apply WorldOk.advance hlaws.ok hlaws.world.eng hlaws.world.frozen hlaws.world.pool
    have hgap := hlaws.world.timed.gap
    have hus : (0 : ℚ) ≤ us := us.2
    linarith

theorem Laws.simRun {acts : List SimAct} (h : KicksOk s → Laws p₀ s)
    (hk : KicksOk (simRun ddr acts s)) : Laws p₀ (simRun ddr acts s) := by
  induction acts generalizing s with
  | nil => exact h hk
  | cons a acts ih => exact ih (Laws.simAct h a) hk

theorem Laws.start {nSlots maxDescs slotBytes slots : ℕ}
    (hp : ringCreate nSlots maxDescs slotBytes slots = some p₀)
    (hpool : capacity p₀ ≤ p₀.nSlots * p₀.dpSlot % 2 ^ 32) (mem : ℕ → UInt8) :
    Laws p₀ (simStart p₀ mem) := by
  have horder := Ordered.create hp
  unfold ringCreate at hp
  split at hp
  case isTrue => cases hp
  case isFalse hpos =>
    simp only [not_or] at hpos
    cases hp
    have hno : ∀ {P : ℕ → Prop}, ∀ g, g < 0 → P g := fun g hg => absurd hg (Nat.not_lt_zero g)
    constructor
    case nSlots_eq => rfl
    case dpSlot_eq => rfl
    case enq_le => exact Nat.zero_le _
    case order => exact horder
    case ok => exact ⟨Nat.pos_of_ne_zero hpos.1, le_rfl, le_rfl, hno, hno⟩
    case dfirst_eq => exact hno
    case dlast_eq => exact hno
    case world =>
      refine ⟨⟨⟨?_, ?_, ?_, ?_⟩, ?_, ?_, rfl⟩, ⟨?_, ?_, ?_⟩, rfl, hpool⟩
      · exact fun g i hg => absurd hg.1 (Nat.not_lt_zero g)
      · exact fun g _ hg => absurd hg (Nat.not_lt_zero g)
      · exact fun g _ hg => absurd hg (Nat.not_lt_zero g)
      · exact fun g hg => absurd hg.1 (Nat.not_lt_zero g)
      · exact fun hrun => EngState.noConfusion hrun
      · exact fun _ g hg => absurd hg.1 (Nat.not_lt_zero g)
      · exact fun hrun => EngState.noConfusion hrun
      · exact fun hret => EngState.noConfusion hret
      · show (-10 ^ 9 : ℚ) + tDoorbell ≤ 0
        norm_num [tDoorbell]

/-- Whatever is called in whatever order and with whatever deadlines, no doorbell law is broken as
long as no group is kicked again while the engine runs or after the group was done. -/
theorem doorbell_laws_kept (ddr mem : ℕ → UInt8) {nSlots maxDescs slotBytes slots : ℕ}
    (hp : ringCreate nSlots maxDescs slotBytes slots = some p₀)
    (hpool : capacity p₀ ≤ p₀.nSlots * p₀.dpSlot % 2 ^ 32) (acts : List SimAct)
    (hk : KicksOk (simRun ddr acts (simStart p₀ mem))) :
    (simRun ddr acts (simStart p₀ mem)).world.eng.frozen = none :=
  (Laws.simRun (fun _ => Laws.start hp hpool mem) hk).world.frozen

def mebiSlots : Policy where
  nSlots := 2
  dpSlot := 1
  slotBytes := 2 ^ 20
  slots := 2 ^ 20
  ent _ := RingEnt.zero
  nEnq := 0
  nQsub := 0
  nFired := 0
  nReady := 0
  nRel := 0
  fireTail := none
  fireTailPred := none
  fireDepthBoost := false
  failed := false

/-- Four bytes whose doorbell is lost are waited for. -/
def lostDoorbell : Sys Engine :=
  simRun (fun _ => 0) [.loseDoorbell, .call (.enqueue 0 4), .advance 1, .call (.need 0 3 10)]
    (simStart mebiSlots fun _ => 0)

/-- The group is kicked again, with reason, and becomes ready. -/
theorem lostDoorbell_kept : lostDoorbell.rekicks.length = 1 ∧
    (lostDoorbell.pol.ent 0).state = .ready ∧ lostDoorbell.world.eng.frozen = none := by
  have hcreate : ringCreate 2 1 (2 ^ 20) (2 ^ 20) = some mebiSlots := rfl
  have hpool : capacity mebiSlots ≤ mebiSlots.nSlots * mebiSlots.dpSlot % 2 ^ 32 := by decide
  have hkicks : KicksOk lostDoorbell := by decide +kernel
  refine ⟨by decide +kernel, by decide +kernel, ?_⟩
  exact doorbell_laws_kept (fun _ => 0) (fun _ => 0) hcreate hpool _ hkicks

/-- A group that takes longer than the deadline is kicked again while the engine runs. -/
theorem mebiSlots_start_running :
    ringCreate 2 1 (2 ^ 20) (2 ^ 20) = some mebiSlots ∧
      (simRun (fun _ => 0) [.call (.enqueue 0 1000000), .call (.need 0 0 1)]
        (simStart mebiSlots fun _ => 0)).world.eng.frozen = some 1 := by
  constructor
  · rfl
  · decide +kernel

end Gehtp.Analysis.RingLaws
