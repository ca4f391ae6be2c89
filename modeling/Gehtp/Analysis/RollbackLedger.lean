import Gehtp.Model.Rollback

/-!
# The ledger of the rollback

The history of the calls is kept as a ledger: the rounds with their tokens and whether they were
rewound, the memory at the latest snapshot, the processes since then, and whether a restore waits
for its setup. The counters and flags of the module agree with the ledger as long as no round is
rewound twice and nothing is counted past 32 bits.
-/

set_option autoImplicit false

namespace Gehtp.Analysis.RollbackLedger

open Lib.Memory Model.Rollback

/-! ### The ledger -/

/-- A process of the engine. -/
structure Round where
  tokens : ℕ
  rewound : Bool
  deriving DecidableEq, Repr

/-- The tokens of the rounds that were not rewound. -/
def keptTokens : List Round → ℕ
  | [] => 0
  | x :: xs => (if x.rewound then 0 else x.tokens) + keptTokens xs

def rewindLatest : List Round → List Round
  | [] => []
  | x :: xs => { x with rewound := true } :: xs

/-- What a history of calls amounts to. The latest round comes first. -/
structure Ledger where
  rounds : List Round
  snap : Option (ℕ → UInt8)
  since : ℕ
  owed : Bool

def Ledger.empty : Ledger := ⟨[], none, 0, false⟩

/-- Enter a call that found the memory `mem` and was answered. -/
def Ledger.enter (l : Ledger) (mem : ℕ → UInt8) : RbrCall → RbrAnswer → Ledger
  | .noteProcess n, .code .ok =>
    { l with rounds := ⟨n.toNat, false⟩ :: l.rounds, since := l.since + 1 }
  | .rewind _, .code .ok => { l with rounds := rewindLatest l.rounds }
  | .snapshot _, .code .ok => { l with snap := some mem, since := 0 }
  | .restore, .code .ok => { l with owed := true }
  | .setupHook _, _ => { l with owed := false }
  | _, _ => l

/-- A round is rewound at most once, and the counts stay below 2^32. -/
def Allowed (l : Ledger) : RbrCall → RbrAnswer → Prop
  | .noteProcess n, .code .ok =>
    keptTokens l.rounds + n.toNat < 2 ^ 32 ∧ (l.snap.isSome → l.since + 1 < 2 ^ 32)
  | .rewind _, .code .ok => ∀ x ∈ l.rounds.head?, x.rewound = false
  | _, _ => True

/-- What the allowed calls lead to from the start. -/
inductive Reached : World → Ledger → Prop
  | start (mem : ℕ → UInt8) : Reached ⟨rbrInit, mem⟩ Ledger.empty
  | call {w w' : World} {l : Ledger} {ans : RbrAnswer} (c : RbrCall) (h : Reached w l)
      (hcall : rbrCall w c = some (ans, w')) (hallow : Allowed l c ans) :
      Reached w' (l.enter w.mem c ans)

/-! ### Copies of the states -/

/-- The copy is what the state has in `m`. -/
def CopyOf (m : ℕ → UInt8) (e : RecState) : Prop :=
  e.shadow = some (cells m e.inState e.bytes.toNat)

variable {mem m : ℕ → UInt8} {es : List RecState} {w : World}

theorem snapStates_of_ok {granted : ℕ → Bool} {s : ℕ} (h : (snapStates mem granted s es).1 = true) :
    ∀ e ∈ (snapStates mem granted s es).2, CopyOf mem e := by
  induction es generalizing s with
  | nil =>
    intro e he
    cases he
  | cons e es ih =>
    unfold snapStates at h ⊢
    unfold snapState at h ⊢
    split at h
    · cases h
    · rename_i hgrant
      split at hgrant
      · cases hgrant
      · cases hgrant
        intro e' he'
        rcases List.mem_cons.mp he' with rfl | hmem
        · rfl
        · exact ih h e' hmem

theorem snapStates_ok {granted : ℕ → Bool} {s : ℕ} (h : ∀ e ∈ es, CopyOf m e) :
    (snapStates mem granted s es).1 = true := by
  induction es generalizing s with
  | nil => rfl
  | cons e es ih =>
    have he : e.shadow = _ := h e List.mem_cons_self
    unfold snapStates snapState
    simp only [he, Option.isNone_some, Bool.false_and, Bool.false_eq_true, if_false]
    exact ih fun e' he' => h e' (List.mem_cons_of_mem _ he')

theorem snapGroups_of_ok {granted : ℕ → ℕ → Bool} {gs : List ℕ} {grp : ℕ → List RecState}
    (h : (snapGroups mem granted gs grp).1 = true) (g : ℕ)
    (hg : g ∈ gs ∨ ∀ e ∈ grp g, CopyOf mem e) :
    ∀ e ∈ (snapGroups mem granted gs grp).2 g, CopyOf mem e := by
  induction gs generalizing grp with
  | nil =>
    rcases hg with hg | hg
    · cases hg
    · exact hg
  | cons g' gs ih =>
    unfold snapGroups at h ⊢
    split at h
    · rename_i hok
      rw [if_pos hok]
      apply ih h
      by_cases he : g = g'
      · subst he
        right
        rw [Function.update_self]
        exact snapStates_of_ok hok
      · rw [Function.update_of_ne he]
        rcases hg with hg | hg
        · exact .inl ((List.mem_cons.mp hg).resolve_left he)
        · exact .inr hg
    · cases h

theorem snapGroups_ok {granted : ℕ → ℕ → Bool} {gs : List ℕ} (hgs : gs.Nodup)
    {grp : ℕ → List RecState} (h : ∀ g ∈ gs, ∀ e ∈ grp g, CopyOf m e) :
    (snapGroups mem granted gs grp).1 = true := by
  induction gs generalizing grp with
  | nil => rfl
  | cons g gs ih =>
    have hfirst := h g List.mem_cons_self
    unfold snapGroups
    rw [if_pos (snapStates_ok hfirst)]
    apply ih hgs.of_cons
    intro g' hg' e he
    have hne : g' ≠ g := by
      rintro rfl
      exact (List.nodup_cons.mp hgs).1 hg'
    rw [Function.update_of_ne hne] at he
    exact h g' (List.mem_cons_of_mem _ hg') e he

/-- Copying back gives each state what it had. States may share memory, since all copies are of
one memory. -/
theorem restoreStates_eq (h : ∀ e ∈ es, CopyOf m e) (mem : ℕ → UInt8) :
    ∃ mem', restoreStates es mem = some mem' ∧ (∀ x, mem x = m x → mem' x = m x) ∧
      ∀ e ∈ es, ∀ i < e.bytes.toNat, mem' (e.inState + i) = m (e.inState + i) := by
  induction es generalizing mem with
  | nil => exact ⟨mem, rfl, fun _ hx => hx, fun e he => by cases he⟩
  | cons e es ih =>
    have hcopy : e.shadow = _ := h e List.mem_cons_self
    have hread : ∀ i < e.bytes.toNat,
        (cells m e.inState e.bytes.toNat).getD i 0 = m (e.inState + i) := by
      intro i hi
      simp [cells, hi]
    obtain ⟨mem', hrest, hkeep, hes⟩ := ih (fun e' he' => h e' (List.mem_cons_of_mem _ he'))
      (copyTo mem e.inState (fun i => (cells m e.inState e.bytes.toNat).getD i 0) e.bytes.toNat)
    refine ⟨mem', ?_, ?_, ?_⟩
    · unfold restoreStates
      rw [hcopy]
      exact hrest
    · intro x hx
      apply hkeep
      by_cases hin : e.inState ≤ x ∧ x < e.inState + e.bytes.toNat
      · obtain ⟨i, rfl⟩ := Nat.exists_eq_add_of_le hin.1
        have hi : i < e.bytes.toNat := by omega
        rw [copyTo_inside _ _ _ hi, hread i hi]
      · rw [copyTo_outside]
        · exact hx
        · omega
    · intro e' he' i hi
      rcases List.mem_cons.mp he' with rfl | hmem
      · apply hkeep
        rw [copyTo_inside _ _ _ hi, hread i hi]
      · exact hes e' hmem i hi

/-! ### The module agrees with the ledger -/

/-- The counters, the flags and the copies against the ledger. -/
structure Agrees (w : World) (l : Ledger) : Prop where
  past : w.r.nPast.toNat = keptTokens l.rounds
  last : w.r.lastTokens.toNat = (l.rounds.head?.map Round.tokens).getD 0
  skip : w.r.skipNext = l.owed
  has : w.r.hasSnapshot = l.snap.isSome
  frame : l.snap.isSome → l.since < 2 ^ 32 ∧ w.r.frame = w.r.snapFrame + UInt32.ofNat l.since
  copies : ∀ m, l.snap = some m → ∀ g < w.r.nGroups, ∀ e ∈ w.r.grp g, CopyOf m e

theorem agrees_start (mem : ℕ → UInt8) : Agrees ⟨rbrInit, mem⟩ Ledger.empty where
  past := rfl
  last := rfl
  skip := rfl
  has := rfl
  frame := fun h => by cases h
  copies := fun m h => by cases h

variable {l : Ledger}

theorem Agrees.copies_states (h : Agrees w l) (hm : l.snap = some m) :
    ∀ e ∈ w.r.states, CopyOf m e := by
  intro e he
  obtain ⟨g, hg, heg⟩ := List.mem_flatMap.mp he
  exact h.copies m hm g (List.mem_range.mp hg) e heg

theorem agrees_register (h : Agrees w l) (group : UInt32) (inState : ℕ) (bytes : UInt32) :
    Agrees ⟨(rbrRegister w.r group inState bytes).2, w.mem⟩ l := by
  unfold rbrRegister
  split_ifs with _ hhas
  · exact h
  · exact h
  · exact h
  · exact h
  · have hsnap : l.snap = none := by
      have hfalse : l.snap.isSome = false := h.has ▸ Bool.eq_false_of_not_eq_true hhas
      simpa using hfalse
    exact { h with
      copies := by
        intro m hm
        rw [hsnap] at hm
        cases hm }

theorem agrees_snapshot (h : Agrees w l) (granted : ℕ → ℕ → Bool) :
    Agrees ⟨(rbrSnapshot w.r w.mem granted).2, w.mem⟩
      (l.enter w.mem (.snapshot granted) (.code (rbrSnapshot w.r w.mem granted).1)) := by
  unfold rbrSnapshot
  split_ifs with _ hok
  · exact h
  · constructor
    · exact h.past
    · exact h.last
    · exact h.skip
    · rfl
    · intro _
      show 0 < 2 ^ 32 ∧ w.r.frame = w.r.frame + UInt32.ofNat 0
      exact ⟨by decide, (add_zero _).symm⟩
    · intro m hm g hg
      cases hm
      exact snapGroups_of_ok hok g (.inl (List.mem_range.mpr hg))
  · constructor
    · exact h.past
    · exact h.last
    · exact h.skip
    · exact h.has
    · exact h.frame
    · intro m hm
      exfalso
      apply hok
      apply snapGroups_ok List.nodup_range
      intro g hg
      exact h.copies m hm g (List.mem_range.mp hg)

theorem restore_spec (h : Agrees w l) :
    ∃ c w', rbrCall w .restore = some (.code c, w') ∧
      Agrees w' (l.enter w.mem .restore (.code c)) ∧
      (c = .ok → l.since = 0 ∧ ∃ m, l.snap = some m ∧ ∀ e ∈ w'.r.states,
        cells w'.mem e.inState e.bytes.toNat = cells m e.inState e.bytes.toNat) := by
  unfold rbrCall rbrRestore
  split_ifs with hhas hframe
  · exact ⟨.errNosnap, w, rfl, h, fun hc => by cases hc⟩
  · exact ⟨.errStale, w, rfl, h, fun hc => by cases hc⟩
  · have hsome : l.snap.isSome = true := by
      rw [← h.has]
      simpa using hhas
    obtain ⟨m, hm⟩ := Option.isSome_iff_exists.mp hsome
    obtain ⟨mem', hrest, -, hback⟩ := restoreStates_eq (h.copies_states hm) w.mem
    rw [hrest]
    refine ⟨.ok, ⟨{ w.r with skipNext := true }, mem'⟩, rfl, { h with skip := rfl }, ?_⟩
    intro _
    obtain ⟨hlt, heq⟩ := h.frame hsome
    have hsame : w.r.frame = w.r.snapFrame := not_not.mp hframe
    have hzero : UInt32.ofNat l.since = 0 := by
      rw [hsame] at heq
      exact left_eq_add.mp heq
    refine ⟨?_, m, hm, ?_⟩
    · have hnat := congrArg UInt32.toNat hzero
      rw [UInt32.toNat_ofNat_of_lt' hlt] at hnat
      exact hnat
    · intro e he
      rw [cells_eq_iff]
      exact hback e he

theorem agrees_setup (h : Agrees w l) (n : UInt32) :
    Agrees ⟨(rbrSetupHook w.r n).2, w.mem⟩
      (l.enter w.mem (.setupHook n) (.mode (rbrSetupHook w.r n).1)) := by
  unfold rbrSetupHook
  split_ifs with _ hskip
  · exact { h with skip := rfl }
  · exact { h with skip := rfl }
  · exact { h with skip := Bool.eq_false_of_not_eq_true hskip }

theorem agrees_process (h : Agrees w l) (n : UInt32)
    (hallow : Allowed l (.noteProcess n) (.code (rbrNoteProcess w.r n).1)) :
    Agrees ⟨(rbrNoteProcess w.r n).2, w.mem⟩
      (l.enter w.mem (.noteProcess n) (.code (rbrNoteProcess w.r n).1)) := by
  unfold rbrNoteProcess at hallow ⊢
  split_ifs at hallow ⊢ with hn
  · exact h
  · obtain ⟨hsum, hsince⟩ := hallow
    constructor
    · show (w.r.nPast + n).toNat = n.toNat + keptTokens l.rounds
      rw [UInt32.toNat_add, h.past, Nat.mod_eq_of_lt hsum, Nat.add_comm]
    · rfl
    · exact h.skip
    · exact h.has
    · intro hsome
      obtain ⟨-, hframe⟩ := h.frame hsome
      refine ⟨hsince hsome, ?_⟩
      show w.r.frame + 1 = w.r.snapFrame + UInt32.ofNat (l.since + 1)
      rw [hframe, add_assoc, UInt32.ofNat_add]
      rfl
    · exact h.copies

theorem agrees_rewind (h : Agrees w l) (n : UInt32)
    (hallow : Allowed l (.rewind n) (.code (rbrRewind w.r n).1)) :
    Agrees ⟨(rbrRewind w.r n).2, w.mem⟩
      (l.enter w.mem (.rewind n) (.code (rbrRewind w.r n).1)) := by
  unfold rbrRewind at hallow ⊢
  split_ifs at hallow ⊢ with hhas hparam
  · exact h
  · exact h
  · obtain ⟨hzero, hle⟩ := not_or.mp hparam
    have hle' : n.toNat ≤ w.r.lastTokens.toNat := UInt32.not_lt.mp hle
    have hpos : 0 < n.toNat := by
      apply Nat.pos_of_ne_zero
      intro he
      exact hzero (UInt32.toNat_inj.mp he)
    cases hrounds : l.rounds with
    | nil =>
      have hlast := h.last
      simp only [hrounds, List.head?_nil, Option.map_none, Option.getD_none] at hlast
      omega
    | cons x xs =>
      have hx : x.rewound = false := by
        apply hallow
        rw [hrounds]
        rfl
      have hlast : w.r.lastTokens.toNat = x.tokens := by
        simpa [hrounds] using h.last
      have hpast : w.r.nPast.toNat = x.tokens + keptTokens xs := by
        rw [h.past, hrounds, keptTokens, hx]
        rfl
      have hsub : w.r.lastTokens ≤ w.r.nPast := by
        show w.r.lastTokens.toNat ≤ w.r.nPast.toNat
        omega
      constructor
      · show (w.r.nPast - w.r.lastTokens).toNat = keptTokens (rewindLatest l.rounds)
        rw [UInt32.toNat_sub_of_le _ _ hsub, hrounds]
        simp only [rewindLatest, keptTokens, if_true]
        omega
      · show w.r.lastTokens.toNat = ((rewindLatest l.rounds).head?.map Round.tokens).getD 0
        rw [hrounds, hlast]
        rfl
      · exact h.skip
      · exact h.has
      · exact h.frame
      · exact h.copies

theorem agrees_call {w' : World} {ans : RbrAnswer} (h : Agrees w l) (c : RbrCall)
    (hcall : rbrCall w c = some (ans, w')) (hallow : Allowed l c ans) :
    Agrees w' (l.enter w.mem c ans) := by
  cases c with
  | register group inState bytes =>
    cases hcall
    exact agrees_register h group inState bytes
  | snapshot granted =>
    cases hcall
    exact agrees_snapshot h granted
  | restore =>
    obtain ⟨c, w₁, heq, hagree, -⟩ := restore_spec h
    rw [heq] at hcall
    cases hcall
    exact hagree
  | setupHook n =>
    cases hcall
    exact agrees_setup h n
  | noteProcess n =>
    cases hcall
    exact agrees_process h n hallow
  | rewind n =>
    cases hcall
    exact agrees_rewind h n hallow
  | engine mem =>
    cases hcall
    exact { h with }

theorem agrees_of_reached (h : Reached w l) : Agrees w l := by
  induction h with
  | start mem => exact agrees_start mem
  | call c _ hcall hallow ih => exact agrees_call ih c hcall hallow

/-- After any history the count of tokens is that of the rounds that were not rewound. A restore
reads no null pointer, and when it succeeds there was no process since the latest snapshot and
every state has the bytes it had then. A setup is told to skip exactly when its own count is not
zero and a restore succeeded since the setup before. -/
theorem rollback_ledger {w : World} {l : Ledger} (h : Reached w l) :
    w.r.nPast.toNat = keptTokens l.rounds ∧
    (∃ c w', rbrCall w .restore = some (.code c, w') ∧
      (c = .ok → l.since = 0 ∧ ∃ m, l.snap = some m ∧ ∀ e ∈ w'.r.states,
        cells w'.mem e.inState e.bytes.toNat = cells m e.inState e.bytes.toNat)) ∧
    ∀ n, (rbrSetupHook w.r n).1 = .skip ↔ n ≠ 0 ∧ l.owed = true := by
  have hagree := agrees_of_reached h
  refine ⟨hagree.past, ?_, ?_⟩
  · obtain ⟨c, w', hcall, -, hback⟩ := restore_spec hagree
    exact ⟨c, w', hcall, hback⟩
  · intro n
    rw [← hagree.skip]
    unfold rbrSetupHook
    split_ifs with hn hskip
    · simp [hn]
    · simp [hn, hskip]
    · simp [hskip]

/-- A state of four bytes, a process of three tokens, a snapshot, and the engine overwrites the
state. -/
def spoiled : World where
  r := { rbrInit with
    nGroups := 1
    grp := Function.update (fun _ => []) 0 [⟨16, 4, some [7, 7, 7, 7]⟩]
    frame := 1
    snapFrame := 1
    hasSnapshot := true
    nPast := 3
    lastTokens := 3 }
  mem := fun _ => 9

theorem spoiled_reached : Reached spoiled ⟨[⟨3, false⟩], some fun _ => 7, 0, false⟩ := by
  have hstart := Reached.start fun _ => 7
  have hregister := hstart.call (.register 0 16 4) rfl trivial
  have hprocess := hregister.call (.noteProcess 3) rfl ⟨by decide, fun h => by cases h⟩
  have hsnapshot := hprocess.call (.snapshot fun _ _ => true) rfl trivial
  have hengine := hsnapshot.call (.engine fun _ => 9) rfl trivial
  have hgrp : Function.update (Function.update (fun _ => []) 0 [⟨16, 4, none⟩]) 0
      [(⟨16, 4, some [7, 7, 7, 7]⟩ : RecState)] =
      Function.update (fun _ : ℕ => []) 0 [⟨16, 4, some [7, 7, 7, 7]⟩] :=
    Function.update_idem _ _ _
  unfold spoiled
  rw [← hgrp]
  exact hengine

/-- A restore undoes what the engine wrote. -/
theorem spoiled_restored :
    spoiled.r.nPast.toNat = keptTokens [⟨3, false⟩] ∧
    (∃ c w', rbrCall spoiled .restore = some (.code c, w') ∧
      (c = .ok → (0 : ℕ) = 0 ∧ ∃ m, (some fun _ => 7 : Option (ℕ → UInt8)) = some m ∧
        ∀ e ∈ w'.r.states,
          cells w'.mem e.inState e.bytes.toNat = cells m e.inState e.bytes.toNat)) ∧
    ∀ n, (rbrSetupHook spoiled.r n).1 = .skip ↔ n ≠ 0 ∧ false = true :=
  rollback_ledger spoiled_reached

/-- What the calls lead to, with the answer to the last one. -/
def answers (w : World) : List RbrCall → Option (RbrAnswer × World)
  | [] => some (.done, w)
  | [c] => rbrCall w c
  | c :: cs => (rbrCall w c).bind fun x => answers x.2 cs

/-- One state, a process of three tokens and a snapshot. -/
def snapped : List RbrCall := [.register 0 16 4, .noteProcess 3, .snapshot fun _ _ => true]

/-- A setup with a count of zero takes the skip away, and a round can be rewound twice. -/
theorem skip_lost_and_rewound_twice :
    (¬ ∀ (before between : List RbrCall) (n : UInt32) (mem : ℕ → UInt8),
      (answers ⟨rbrInit, mem⟩ (before ++ [.restore])).map Prod.fst = some (.code .ok) →
      (∀ c ∈ between, ∀ k, c = .setupHook k → k = 0) → n ≠ 0 →
        (answers ⟨rbrInit, mem⟩ (before ++ [.restore] ++ between ++ [.setupHook n])).map Prod.fst =
          some (.mode .skip)) ∧
    (answers ⟨rbrInit, fun _ => 0⟩ (snapped ++ [.rewind 3, .rewind 3])).map
      (fun x => (x.1, x.2.r.nPast)) = some (.code .ok, 4294967293) := by
  constructor
  · intro h
    have hskip := h snapped [.setupHook 0] 3 (fun _ => 0) rfl
      (fun c hc k hk => by
        rw [List.mem_singleton.mp hc] at hk
        cases hk
        rfl)
      (by decide)
    have hcopy : (answers ⟨rbrInit, fun _ => 0⟩
        (snapped ++ [.restore] ++ [.setupHook 0] ++ [.setupHook 3])).map Prod.fst =
          some (.mode .copy) := rfl
    rw [hcopy] at hskip
    cases hskip
  · rfl

end Gehtp.Analysis.RollbackLedger
