import Gehtp.Model.BtrackRun

/-!
# Marks beside a boundary

A clear takes away every bit of its snapshot, whether or not the block was marked
again after its bytes had been flushed: such a mark is lost. `Spares` is the
condition on a single mark that excludes it: the blocks of the mark whose bytes have
been flushed are not among the bits that are still to be cleared, and with shard locks
they are in the word that the clear has read. `Inv` says that the recorded late marks are
in the bitmap and in every word that some thread has in hand; each step that meets the
condition keeps it.
-/

set_option autoImplicit false

namespace Gehtp.Analysis.BtrackNoLoss

open Model.Btrack Model.Bflush Model.BtrackRun

/-! ### Bits of words -/

/-- Every bit of `a` is a bit of `b`. -/
def Within (a b : BitVec 64) : Prop := ∀ i, a.getLsbD i = true → b.getLsbD i = true

theorem within_zero (b : BitVec 64) : Within 0 b := by
  intro i h
  simp at h

variable {a b : BitVec 64} {addr size i : ℕ} {late : Words}

theorem Within.or_left {c : BitVec 64} (ha : Within a c) (hb : Within b c) :
    Within (a ||| b) c := by
  intro i h
  rw [BitVec.getLsbD_or, Bool.or_eq_true] at h
  exact h.elim (ha i) (hb i)

theorem Within.or_right (h : Within a b) (m : BitVec 64) : Within a (b ||| m) := by
  intro i hi
  rw [BitVec.getLsbD_or, h i hi, Bool.true_or]

theorem within_or_self (a m : BitVec 64) : Within m (a ||| m) := by
  intro i hi
  rw [BitVec.getLsbD_or, hi, Bool.or_true]

theorem Within.and {c : BitVec 64} (hb : Within a b) (hc : Within a c) : Within a (b &&& c) := by
  intro i hi
  rw [BitVec.getLsbD_and, hb i hi, hc i hi, Bool.true_and]

theorem Within.trans {c : BitVec 64} (hab : Within a b) (hbc : Within b c) : Within a c :=
  fun i hi => hbc i (hab i hi)

/-! ### The condition on a mark -/

/-- A late mark of the bits `mask` of word `w` leaves alone what is still to be cleared, and is in
the word that the clear has in hand. -/
def Spares (w : ℕ) (mask : BitVec 64) : Phase → Prop
  | .flushing _ _ clear => ∀ p ∈ clear, p.1 = w → Within mask p.2
  | .clearing _ todo loaded =>
    (∀ p ∈ todo, p.1 = w → Within mask p.2) ∧
      ∀ v ∈ loaded, ∀ p ∈ todo.head?, p.1 = w → Within mask v
  | _ => True

/-- The word operation `p` of writer `i` spares what is still to be cleared, in the blocks in which
bytes of its write have been flushed. -/
def QuietMark (sys : System) (st : State) (i : ℕ) (p : ℕ × BitVec 64) : Prop :=
  Spares p.1 (lateMask sys.geo st.flushed (st.writers i) p) st.phase

/-- The marks of step `e` spare what is still to be cleared. -/
def Quiet (sys : System) (st : State) : Event → Prop
  | .orWord i | .storeWord i => ∀ p ∈ (st.writers i).todo.head?, QuietMark sys st i p
  | .markLocked i => ∀ p ∈ (st.writers i).todo, QuietMark sys st i p
  | _ => True

/-- Every step of a run meets the condition in the state in which it is taken. -/
def QuietRun (sys : System) : State → List Event → Prop
  | _, [] => True
  | st, e :: es => Quiet sys st e ∧
    match step sys st e with
    | none => True
    | some st' => QuietRun sys st' es

/-! ### The invariant -/

/-- What the flushing thread has in hand. -/
def PhaseOk (sys : System) (flushed : List FlushCall) (late owed : Words) : Phase → Prop
  | .idle => True
  | .reading second todo got =>
    flushed = [] ∧ (second = true → ∀ w < sys.geo.nWords, w ∉ todo → Within (late w) (got w))
  | .taken snap => flushed = [] ∧ (∀ w, late w = 0) ∧ ∀ w, Within (owed w) (snap.words w)
  | .flushing snap _ clear =>
    (∀ p ∈ clear, Within (late p.1) p.2) ∧ ∀ w, Within (owed w) (snap.words w)
  | .clearing snap todo loaded =>
    (∀ p ∈ todo, Within (late p.1) p.2) ∧ (∀ v ∈ loaded, ∀ p ∈ todo.head?, Within (late p.1) v) ∧
      ∀ w, Within (owed w) (snap.words w)

/-- A writer marks words of the map, and the word that it holds under a shard lock
has the late marks. -/
structure WriterOk (sys : System) (slock : ℕ → Option ℕ) (late : Words) (i : ℕ) (wr : Writer) :
    Prop where
  inMap : ∀ p ∈ wr.todo, p.1 < sys.geo.nWords
  held : ∀ v ∈ wr.loaded, sys.mode = .shard ∧
    ∃ p ∈ wr.todo.head?, slock (p.1 % 64) = some i ∧ Within (late p.1) v

structure Inv (sys : System) (st : State) : Prop where
  dirty : ∀ w, Within (st.late w) (st.bits w)
  inMap : ∀ w, sys.geo.nWords ≤ w → st.late w = 0
  phase : PhaseOk sys st.flushed st.late st.owed st.phase
  writers : ∀ i, WriterOk sys st.slock st.late i (st.writers i)

theorem inv_start (sys : System) (bits : Words) : Inv sys (start bits) where
  dirty := fun w => within_zero _
  inMap := fun _ _ => rfl
  phase := trivial
  writers := fun i => ⟨by simp [start], by simp [start]⟩

/-! ### Marks -/

theorem clamp_lt {n : ℕ} (hpos : 0 < n) (hfit : n + 63 < 2 ^ 32) (b : ℕ) :
    (if n ≤ b then (n + 2 ^ 32 - 1) % 2 ^ 32 else b) < n := by
  split <;> omega

theorem mem_setBitsRange (sys : System) {p : ℕ × BitVec 64}
    (h : p ∈ setBitsRange sys.geo addr size) : p.1 < sys.geo.nWords := by
  have hpos := sys.blocks_pos
  have hfit := sys.blocks_fit
  have hwords : sys.geo.nWords = (sys.geo.nBlocks + 63) / 64 := by
    unfold Geometry.nWords
    rw [Nat.mod_eq_of_lt hfit]
  unfold setBitsRange at h
  split at h
  · simp at h
  · rename_i bLo bHi hrange
    unfold blockRange at hrange
    split at hrange
    · simp at hrange
    · rename_i hok
      have hlast : bHi < sys.geo.nBlocks := by
        simp only [Option.some.injEq, Prod.mk.injEq] at hrange
        obtain ⟨-, rfl⟩ := hrange
        exact clamp_lt hpos hfit _
      split at h
      · rename_i hle
        obtain ⟨w, hw, rfl⟩ := List.mem_map.mp h
        rw [List.mem_range'_1] at hw
        simp only
        omega
      · simp at h

theorem mem_markWords (sys : System) {kind : WriteKind} {p : ℕ × BitVec 64}
    (h : p ∈ markWords sys.geo kind addr size) : p.1 < sys.geo.nWords := by
  cases kind with
  | cpu => exact mem_setBitsRange sys h
  | peer => exact mem_setBitsRange sys h
  | dma =>
    unfold markWords at h
    simp only at h
    split at h
    · simp at h
    · exact mem_setBitsRange sys h

/-- Nothing is late before the first flush of a boundary. -/
theorem lateMask_nil (geo : Geometry) (wr : Writer) (p : ℕ × BitVec 64) :
    lateMask geo [] wr p = 0 := by
  have hnone : ∀ blk, flushedIn geo [] wr blk = false := by
    intro blk
    rw [flushedIn, decide_eq_false_iff_not]
    rintro ⟨x, -, -, -, c, hc, -⟩
    cases hc
  have hbits : ((List.range 64).map fun i => flushedIn geo [] wr (64 * p.1 + i)) =
      List.replicate 64 false := by
    rw [List.eq_replicate_iff]
    refine ⟨by simp, fun b hb => ?_⟩
    obtain ⟨i, -, rfl⟩ := List.mem_map.mp hb
    exact hnone _
  have hzero : (BitVec.ofBoolListLE (List.replicate 64 false)).setWidth 64 = 0#64 := by
    decide +kernel
  rw [lateMask, hbits, hzero]
  exact BitVec.and_zero

section Mark

variable {sys : System} {st : State} {wr : Writer} {p : ℕ × BitVec 64}

/-- A late mark is a mark. -/
theorem within_lateMask (geo : Geometry) (flushed : List FlushCall) (wr : Writer)
    (p : ℕ × BitVec 64) : Within (lateMask geo flushed wr p) p.2 := by
  intro i hi
  rw [lateMask, BitVec.getLsbD_and, Bool.and_eq_true] at hi
  exact hi.1

theorem within_recordMark {w : ℕ} (h : Within (st.late w) b)
    (hnew : w = p.1 → Within (lateMask sys.geo st.flushed wr p) b) :
    Within (recordMark sys.geo st wr p w) b := by
  unfold recordMark orWord
  split
  · exact h.or_left (hnew ‹_›)
  · exact h

theorem phaseOk_recordMark (h : PhaseOk sys st.flushed st.late st.owed st.phase)
    (hspare : Spares p.1 (lateMask sys.geo st.flushed wr p) st.phase) :
    PhaseOk sys st.flushed (recordMark sys.geo st wr p) st.owed st.phase := by
  have hsame : st.flushed = [] → recordMark sys.geo st wr p = st.late := by
    intro hnil
    funext w
    simp [recordMark, orWord, hnil, lateMask_nil]
  cases hph : st.phase with
  | idle => trivial
  | reading second todo got =>
    rw [hph] at h
    rw [hsame h.1]
    exact h
  | taken snap =>
    rw [hph] at h
    rw [hsame h.1]
    exact h
  | flushing snap calls clear =>
    rw [hph] at h hspare
    exact ⟨fun q hq => within_recordMark (h.1 q hq) (hspare q hq), h.2⟩
  | clearing snap todo loaded =>
    rw [hph] at h hspare
    exact ⟨fun q hq => within_recordMark (h.1 q hq) (hspare.1 q hq),
      fun v hv q hq => within_recordMark (h.2.1 v hv q hq) (hspare.2 v hv q hq), h.2.2⟩

theorem inMap_recordMark (h : ∀ w, sys.geo.nWords ≤ w → st.late w = 0)
    (hp : p.1 < sys.geo.nWords) (w : ℕ) (hw : sys.geo.nWords ≤ w) :
    recordMark sys.geo st wr p w = 0 := by
  have hne : w ≠ p.1 := by omega
  rw [recordMark, orWord, if_neg hne]
  exact h w hw

/-- One word of a mark, with an atomic or under the global lock. -/
theorem inv_markWord (h : Inv sys st) (hmode : sys.mode ≠ .shard) (hp : p.1 < sys.geo.nWords)
    (hspare : Spares p.1 (lateMask sys.geo st.flushed wr p) st.phase) :
    Inv sys (markWord sys.geo wr st p) where
  dirty := by
    intro w
    refine within_recordMark ?_ fun hw => ?_
    · show Within (st.late w) (orWord st.bits p w)
      unfold orWord
      split
      · exact (h.dirty w).or_right _
      · exact h.dirty w
    · show Within (lateMask sys.geo st.flushed wr p) (orWord st.bits p w)
      simp only [orWord, hw, if_true]
      exact Within.trans (within_lateMask _ _ _ _) (within_or_self _ _)
  inMap := inMap_recordMark h.inMap hp
  phase := by
    show PhaseOk sys st.flushed (recordMark sys.geo st wr p) st.owed st.phase
    exact phaseOk_recordMark h.phase hspare
  writers := by
    intro i
    refine ⟨(h.writers i).inMap, fun v hv => ?_⟩
    exact absurd ((h.writers i).held v hv).1 hmode

end Mark

/-! ### The steps of the writers -/

section Step

variable {sys : System} {st st' : State}

theorem inv_setWriter (h : Inv sys st) (i : ℕ) {wr : Writer}
    (hwr : WriterOk sys st.slock st.late i wr) : Inv sys (setWriter st i wr) where
  dirty := h.dirty
  inMap := h.inMap
  phase := h.phase
  writers := by
    intro j
    show WriterOk sys st.slock st.late j (Function.update st.writers i wr j)
    by_cases hj : j = i
    · rw [hj, Function.update_self]
      exact hwr
    · rw [Function.update_of_ne hj]
      exact h.writers j

theorem inv_mark (h : Inv sys st) {kind : WriteKind}
    (hs : writerStep sys st (.mark i kind addr size) = some st') : Inv sys st' := by
  simp only [writerStep] at hs
  split at hs
  · obtain rfl := Option.some.inj hs
    apply inv_setWriter h
    exact ⟨fun p hp => mem_markWords sys hp, by simp⟩
  · simp at hs

theorem WriterOk.rest {slock : ℕ → Option ℕ} {wr : Writer} {p : ℕ × BitVec 64}
    {rest : List (ℕ × BitVec 64)} (h : WriterOk sys slock late i wr) (htodo : wr.todo = p :: rest)
    (slock' : ℕ → Option ℕ) (late' : Words) :
    WriterOk sys slock' late' i { wr with todo := rest, loaded := none } where
  inMap := by
    intro q hq
    exact h.inMap q (by rw [htodo]; exact List.mem_cons_of_mem _ hq)
  held := by simp

theorem loaded_eq_none (h : Inv sys st) (hmode : sys.mode ≠ .shard) (i : ℕ) :
    (st.writers i).loaded = none := by
  cases hl : (st.writers i).loaded with
  | none => rfl
  | some v => exact absurd ((h.writers i).held v (by rw [hl]; rfl)).1 hmode

theorem inv_orWord (h : Inv sys st) (hq : Quiet sys st (.orWord i))
    (hs : writerStep sys st (.orWord i) = some st') : Inv sys st' := by
  simp only [writerStep] at hs
  split at hs
  · rename_i p rest hmode htodo
    obtain rfl := Option.some.inj hs
    have hm : sys.mode ≠ .shard := by
      rw [hmode]
      decide
    have hnext := inv_markWord h hm ((h.writers i).inMap p (by simp [htodo]))
      (hq p (by simp [htodo]))
    apply inv_setWriter hnext
    have hnone := loaded_eq_none h hm i
    have hrest := (h.writers i).rest htodo st.slock (markWord sys.geo (st.writers i) st p).late
    rw [← hnone] at hrest
    exact hrest
  · simp at hs

theorem inv_foldl_markWord (wr : Writer) (hmode : sys.mode ≠ .shard)
    (l : List (ℕ × BitVec 64)) (h : Inv sys st) (hin : ∀ p ∈ l, p.1 < sys.geo.nWords)
    (hspare : ∀ p ∈ l, Spares p.1 (lateMask sys.geo st.flushed wr p) st.phase) :
    Inv sys (l.foldl (markWord sys.geo wr) st) := by
  induction l generalizing st with
  | nil => exact h
  | cons p l ih =>
    have hnext := inv_markWord h hmode (hin p (by simp)) (hspare p (by simp))
    exact ih hnext (fun q hq => hin q (by simp [hq])) fun q hq => hspare q (by simp [hq])

theorem inv_markLocked (h : Inv sys st) (hq : Quiet sys st (.markLocked i))
    (hs : writerStep sys st (.markLocked i) = some st') : Inv sys st' := by
  simp only [writerStep] at hs
  split at hs
  · rename_i hmode
    obtain rfl := Option.some.inj hs
    have hm : sys.mode ≠ .shard := by
      rw [hmode]
      decide
    have hmarked : Inv sys ((st.writers i).todo.foldl (markWord sys.geo (st.writers i)) st) :=
      inv_foldl_markWord _ hm _ h (h.writers i).inMap hq
    apply inv_setWriter hmarked
    have hnone := loaded_eq_none h hm i
    exact ⟨by simp, by simp [hnone]⟩
  · simp at hs

theorem inv_loadWord (h : Inv sys st) (hs : writerStep sys st (.loadWord i) = some st') :
    Inv sys st' := by
  simp only [writerStep] at hs
  split at hs
  · rename_i p rest hmode htodo
    split at hs
    · rename_i hfree
      obtain rfl := Option.some.inj hs
      -- the shard was free, so no other writer holds a word of it
      have hother : ∀ j, WriterOk sys (Function.update st.slock (p.1 % 64) (some i)) st.late j
          (st.writers j) := by
        intro j
        refine ⟨(h.writers j).inMap, fun v hv => ?_⟩
        obtain ⟨hshard, q, hq, hlock, hin⟩ := (h.writers j).held v hv
        refine ⟨hshard, q, hq, ?_, hin⟩
        have hne : q.1 % 64 ≠ p.1 % 64 := by
          intro he
          rw [he, hfree.1] at hlock
          simp at hlock
        rw [Function.update_of_ne hne]
        exact hlock
      have hlocked : Inv sys { st with slock := Function.update st.slock (p.1 % 64) (some i) } :=
        ⟨h.dirty, h.inMap, h.phase, hother⟩
      apply inv_setWriter hlocked
      refine ⟨(h.writers i).inMap, fun v hv => ⟨hmode, p, ?_, ?_, ?_⟩⟩
      · simp [htodo]
      · exact Function.update_self _ _ _
      · rw [← Option.some.inj hv]
        exact h.dirty p.1
    · simp at hs
  · simp at hs

theorem inv_storeWord (h : Inv sys st) (hq : Quiet sys st (.storeWord i))
    (hs : writerStep sys st (.storeWord i) = some st') : Inv sys st' := by
  simp only [writerStep] at hs
  split at hs
  · rename_i p rest v hmode htodo hload
    obtain rfl := Option.some.inj hs
    have hp : p.1 < sys.geo.nWords := (h.writers i).inMap p (by simp [htodo])
    obtain ⟨-, q, hqmem, hlock, hin⟩ := (h.writers i).held v (by rw [hload]; rfl)
    obtain rfl : p = q := by
      rw [htodo] at hqmem
      simpa using hqmem
    have hphase : PhaseOk sys st.flushed (recordMark sys.geo st (st.writers i) p) st.owed st.phase :=
      phaseOk_recordMark h.phase (hq p (by simp [htodo]))
    refine ⟨?_, inMap_recordMark h.inMap hp, hphase, ?_⟩
    · intro w
      show Within (recordMark sys.geo st (st.writers i) p w)
        (Function.update st.bits p.1 (v ||| p.2) w)
      by_cases hw : w = p.1
      · rw [hw, Function.update_self]
        exact within_recordMark (hin.or_right _) fun _ =>
          Within.trans (within_lateMask _ _ _ _) (within_or_self _ _)
      · rw [Function.update_of_ne hw]
        exact within_recordMark (h.dirty w) fun he => absurd he hw
    · intro j
      show WriterOk sys _ _ j (Function.update st.writers i _ j)
      by_cases hj : j = i
      · rw [hj, Function.update_self]
        exact (h.writers i).rest htodo _ _
      · rw [Function.update_of_ne hj]
        refine ⟨(h.writers j).inMap, fun u hu => ?_⟩
        obtain ⟨hshard, r, hr, hrlock, hrin⟩ := (h.writers j).held u hu
        have hne : r.1 % 64 ≠ p.1 % 64 := by
          intro he
          rw [he, hlock] at hrlock
          exact hj (Option.some.inj hrlock).symm
        refine ⟨hshard, r, hr, ?_, ?_⟩
        · show Function.update st.slock (p.1 % 64) none (r.1 % 64) = some j
          rw [Function.update_of_ne hne]
          exact hrlock
        · refine within_recordMark hrin fun he => ?_
          exact absurd (by rw [he]) hne
  · simp at hs

/-! ### The steps of the flushing thread -/

theorem inv_takeSnapshot (h : Inv sys st) (hflushed : st.flushed = []) {words : Words}
    (hwords : ∀ w, Within (st.late w) (words w)) : Inv sys (takeSnapshot sys st words) where
  dirty := fun w => within_zero _
  inMap := fun _ _ => rfl
  phase := ⟨hflushed, fun _ => rfl, hwords⟩
  writers := by
    intro i
    refine ⟨(h.writers i).inMap, fun v hv => ?_⟩
    obtain ⟨hshard, p, hp, hlock, -⟩ := (h.writers i).held v hv
    exact ⟨hshard, p, hp, hlock, within_zero _⟩

theorem inv_phase (h : Inv sys st) {flushed : List FlushCall} {phase : Phase}
    (hphase : PhaseOk sys flushed st.late st.owed phase) :
    Inv sys { st with flushed := flushed, phase := phase } :=
  ⟨h.dirty, h.inMap, hphase, h.writers⟩

theorem inv_snapshot (h : Inv sys st) (hs : flusherStep sys st .snapshot = some st') :
    Inv sys st' := by
  have hreset : st.phase = .idle → Inv sys { st with flushed := [] } := by
    intro hidle
    refine ⟨h.dirty, h.inMap, ?_, h.writers⟩
    simp only [hidle]
    trivial
  simp only [flusherStep] at hs
  split at hs
  · rename_i hidle hmode
    obtain rfl := Option.some.inj hs
    exact inv_takeSnapshot (hreset hidle) rfl h.dirty
  · rename_i hidle hmode
    split at hs
    · obtain rfl := Option.some.inj hs
      exact inv_takeSnapshot (hreset hidle) rfl h.dirty
    · simp at hs
  · obtain rfl := Option.some.inj hs
    exact inv_phase h ⟨rfl, by simp⟩
  · simp at hs

theorem inv_readWord (h : Inv sys st) (hs : flusherStep sys st .readWord = some st') :
    Inv sys st' := by
  have hphase := h.phase
  simp only [flusherStep] at hs
  split at hs
  · rename_i second w todo got hph
    rw [hph] at hphase
    obtain rfl := Option.some.inj hs
    refine inv_phase h ⟨hphase.1, fun hsecond v hv hnot => ?_⟩
    unfold orWord
    by_cases hvw : v = w
    · rw [if_pos hvw, hvw]
      intro i hi
      rw [BitVec.getLsbD_or, h.dirty w i hi, Bool.or_true]
    · rw [if_neg hvw]
      exact hphase.2 hsecond v hv (by simp [hvw, hnot])
  · rename_i got hph
    rw [hph] at hphase
    obtain rfl := Option.some.inj hs
    refine inv_phase h ⟨hphase.1, fun _ w hw hnot => ?_⟩
    exact absurd (List.mem_range.mpr hw) hnot
  · rename_i got hph
    rw [hph] at hphase
    obtain rfl := Option.some.inj hs
    refine inv_takeSnapshot h hphase.1 fun w => ?_
    by_cases hw : w < sys.geo.nWords
    · exact hphase.2 rfl w hw (by simp)
    · rw [h.inMap w (by omega)]
      exact within_zero _
  · simp at hs

theorem inv_plan (h : Inv sys st) {p : FlushPlan} (hs : flusherStep sys st (.plan p) = some st') :
    Inv sys st' := by
  have hphase := h.phase
  have hnone : (∀ w, st.late w = 0) → ∀ clear : List (ℕ × BitVec 64),
      ∀ p ∈ clear, Within (st.late p.1) p.2 := by
    intro hz clear p _
    rw [hz p.1]
    exact within_zero _
  simp only [flusherStep] at hs
  split at hs
  · rename_i snap arraysOk hph
    rw [hph] at hphase
    obtain rfl := Option.some.inj hs
    exact inv_phase h ⟨hnone hphase.2.1 _, hphase.2.2⟩
  · rename_i snap calls addr size hph
    rw [hph] at hphase
    obtain rfl := Option.some.inj hs
    exact inv_phase h ⟨hnone hphase.2.1 _, hphase.2.2⟩
  · simp at hs

theorem inv_flush (h : Inv sys st) (hs : flusherStep sys st .flush = some st') : Inv sys st' := by
  have hphase := h.phase
  simp only [flusherStep] at hs
  split at hs
  · rename_i snap c calls boundary hph
    rw [hph] at hphase
    obtain rfl := Option.some.inj hs
    exact inv_phase h hphase
  · simp at hs

/-! ### The steps of the clear -/

theorem within_foldl_andWord (l : List (ℕ × BitVec 64)) {bits : Words}
    (h : ∀ w, Within (late w) (bits w)) (hl : ∀ p ∈ l, Within (late p.1) p.2) (w : ℕ) :
    Within (late w) (l.foldl andWord bits w) := by
  induction l generalizing bits with
  | nil => exact h w
  | cons p l ih =>
    apply ih
    · intro v
      unfold andWord
      by_cases hv : v = p.1
      · rw [if_pos hv, hv]
        exact (h p.1).and (hl p (by simp))
      · rw [if_neg hv]
        exact h v
    · exact fun q hq => hl q (by simp [hq])

theorem inv_clearStep (h : Inv sys st) (e : Event) (hs : clearStep sys st e = some st') :
    Inv sys st' := by
  have hphase := h.phase
  cases e with
  | startClear =>
    simp only [clearStep] at hs
    split at hs
    · rename_i snap clear hph
      rw [hph] at hphase
      obtain rfl := Option.some.inj hs
      exact inv_phase h ⟨hphase.1, by simp, hphase.2⟩
    · simp at hs
  | clearWord =>
    simp only [clearStep] at hs
    split at hs
    · rename_i snap p todo hph hmode
      rw [hph] at hphase
      obtain rfl := Option.some.inj hs
      refine ⟨?_, h.inMap, ⟨fun q hq => hphase.1 q (by simp [hq]), by simp, hphase.2.2⟩, h.writers⟩
      exact within_foldl_andWord [p] h.dirty fun q hq => hphase.1 q (by simp_all)
    · simp at hs
  | clearLocked =>
    simp only [clearStep] at hs
    split at hs
    · rename_i snap todo hph hmode
      rw [hph] at hphase
      obtain rfl := Option.some.inj hs
      exact ⟨within_foldl_andWord todo h.dirty hphase.1, h.inMap,
        ⟨by simp, by simp, hphase.2.2⟩, h.writers⟩
    · simp at hs
  | loadClear =>
    simp only [clearStep] at hs
    split at hs
    · rename_i snap p todo hph hmode
      rw [hph] at hphase
      obtain rfl := Option.some.inj hs
      refine inv_phase h ⟨hphase.1, fun v hv q hq => ?_, hphase.2.2⟩
      obtain rfl : p = q := by simpa using hq
      rw [← Option.some.inj hv]
      exact h.dirty p.1
    · simp at hs
  | storeClear =>
    simp only [clearStep] at hs
    split at hs
    · rename_i snap p todo v hph hmode
      rw [hph] at hphase
      obtain rfl := Option.some.inj hs
      refine ⟨fun w => ?_, h.inMap, ⟨fun q hq => hphase.1 q (by simp [hq]), by simp, hphase.2.2⟩,
        h.writers⟩
      show Within (st.late w) (Function.update st.bits p.1 (v &&& p.2) w)
      by_cases hw : w = p.1
      · rw [hw, Function.update_self]
        exact (hphase.2.1 v rfl p (by simp)).and (hphase.1 p (by simp))
      · rw [Function.update_of_ne hw]
        exact h.dirty w
    · simp at hs
  | finish =>
    simp only [clearStep] at hs
    split at hs
    · obtain rfl := Option.some.inj hs
      exact inv_phase h trivial
    · simp at hs
  | _ => simp [clearStep] at hs

/-! ### Runs -/

theorem inv_step (h : Inv sys st) {e : Event} (hq : Quiet sys st e) (hs : step sys st e = some st') :
    Inv sys st' := by
  cases e with
  | mark i kind addr size => exact inv_mark h hs
  | orWord i => exact inv_orWord h hq hs
  | markLocked i => exact inv_markLocked h hq hs
  | loadWord i => exact inv_loadWord h hs
  | storeWord i => exact inv_storeWord h hq hs
  | snapshot => exact inv_snapshot h hs
  | readWord => exact inv_readWord h hs
  | plan p => exact inv_plan h hs
  | flush => exact inv_flush h hs
  | startClear => exact inv_clearStep h .startClear hs
  | clearWord => exact inv_clearStep h .clearWord hs
  | clearLocked => exact inv_clearStep h .clearLocked hs
  | loadClear => exact inv_clearStep h .loadClear hs
  | storeClear => exact inv_clearStep h .storeClear hs
  | finish => exact inv_clearStep h .finish hs

theorem inv_run (es : List Event) (h : Inv sys st) (hq : QuietRun sys st es)
    (hrun : run sys st es = some st') : Inv sys st' := by
  induction es generalizing st with
  | nil =>
    obtain rfl := Option.some.inj hrun
    exact h
  | cons e es ih =>
    obtain ⟨st1, hs, hrest⟩ := Option.bind_eq_some_iff.mp hrun
    have hnext := hq.2
    simp only [hs] at hnext
    exact ih (inv_step h hq.1 hs) hnext hrest

end Step

/-- The snapshot that the flushing thread works on. -/
def snapshotInHand : Phase → Option Snapshot
  | .idle => none
  | .reading .. => none
  | .taken snap => some snap
  | .flushing snap _ _ => some snap
  | .clearing snap _ _ => some snap

/-- No mark is lost: the blocks marked after their bytes were flushed are dirty, and
those of the time before the snapshot in hand are in it. -/
def NoLostMark (st : State) : Prop :=
  (∀ blk, bitOf st.late blk = true → bitOf st.bits blk = true) ∧
  ∀ snap, snapshotInHand st.phase = some snap →
    ∀ blk, bitOf st.owed blk = true → bitOf snap.words blk = true

theorem Inv.noLostMark {sys : System} {st : State} (h : Inv sys st) : NoLostMark st := by
  have hphase := h.phase
  refine ⟨fun blk hblk => h.dirty _ _ hblk, fun snap hsnap blk hblk => ?_⟩
  cases hph : st.phase with
  | idle => simp [hph, snapshotInHand] at hsnap
  | reading second todo got => simp [hph, snapshotInHand] at hsnap
  | taken s =>
    rw [hph] at hphase hsnap
    rw [← Option.some.inj hsnap]
    exact hphase.2.2 _ _ hblk
  | flushing s calls boundary =>
    rw [hph] at hphase hsnap
    rw [← Option.some.inj hsnap]
    exact hphase.2 _ _ hblk
  | clearing s todo loaded =>
    rw [hph] at hphase hsnap
    rw [← Option.some.inj hsnap]
    exact hphase.2.2 _ _ hblk

/-- One word of 64-byte blocks, in the mode with atomics. -/
def oneWordSystem : System :=
  ⟨⟨1024, 64, by decide, by decide, by decide, by decide⟩, bfCreate 1000000 1000, .atomic,
    by decide, by decide⟩

/-- Block 0 is dirty; while it is flushed and cleared, block `blk` is marked after the
flush and before the clear. -/
def remark (blk : ℕ) : List Event :=
  [.snapshot, .readWord, .readWord, .readWord, .readWord, .plan (.boundary true), .flush,
    .mark 0 .cpu (blk * 64) 1, .orWord 0, .startClear, .clearWord, .finish]

def blockZero : Words := fun w => if w = 0 then 1 else 0

end Gehtp.Analysis.BtrackNoLoss
