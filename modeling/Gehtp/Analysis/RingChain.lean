import Gehtp.Lib.RingBuffer
import Gehtp.Model.RingSim

/-!
# The chain that the engine executes

A claimed group has the first descriptors of its slot, linked one to the next. When the engine is
started at a group `h`, the groups that are fired after that are linked to the end of its chain, so
that the chain is `h`, `F`, `F + 1` and so on up to the last group fired: what is before the
descriptor that is executed is done, and what comes after it is not. Each other group that was fired
is done as a whole, or it was not touched, because its doorbell was lost.

A group leaves the chain when its slot is given to another group. This is after it was done, so it
does not concern what is still to be executed. It does concern the way from the head of the chain to
its tail, which may begin anew in a slot that is not fired yet.
-/

set_option autoImplicit false

namespace Gehtp.Analysis.RingChain

open Model.RingPolicy Model.RingSim

/-! ### Spans -/

/-- What the descriptors of a ring are used for. `nd` is the number of descriptors of a group. -/
structure Spans where
  nSlots : ℕ
  dpSlot : ℕ
  nQsub : ℕ
  nFired : ℕ
  nReady : ℕ
  nd : ℕ → ℕ

namespace Spans

def base (L : Spans) (g : ℕ) : ℕ := g % L.nSlots * L.dpSlot

def last (L : Spans) (g : ℕ) : ℕ := L.base g + (L.nd g - 1)

/-- The group is claimed, and its slot was not given to another one since. -/
def Holds (L : Spans) (g : ℕ) : Prop := g < L.nQsub ∧ L.nQsub ≤ g + L.nSlots

structure Ok (L : Spans) : Prop where
  nSlots_pos : 0 < L.nSlots
  ready_le : L.nReady ≤ L.nFired
  fired_le : L.nFired ≤ L.nQsub
  nd_pos : ∀ g, g < L.nQsub → 0 < L.nd g
  nd_le : ∀ g, g < L.nQsub → L.nd g ≤ L.dpSlot

variable {L : Spans} {g g' i j : ℕ}

theorem Holds.of_lt (h : L.Holds g) (hlt : g ≤ g') (hq : g' < L.nQsub) : L.Holds g' := by
  have hw := h.2
  exact ⟨hq, by omega⟩

theorem Ok.node_inj (hL : L.Ok) (hg : L.Holds g) (hg' : L.Holds g') (hi : i < L.nd g)
    (hj : j < L.nd g') (heq : L.base g + i = L.base g' + j) : g = g' ∧ i = j := by
  have hi' := hi.trans_le (hL.nd_le g hg.1)
  have hj' := hj.trans_le (hL.nd_le g' hg'.1)
  have hgg : g = g' := by
    by_contra hne
    have hmod := Lib.RingBuffer.window_mod_ne hg.1 hg.2 hg'.1 hg'.2 hne
    exact Lib.RingBuffer.block_ne hmod hi' hj' heq
  subst hgg
  exact ⟨rfl, by omega⟩

theorem Ok.last_inj (hL : L.Ok) (hg : L.Holds g) (hg' : L.Holds g')
    (heq : L.last g = L.last g') : g = g' := by
  have hpos := hL.nd_pos g hg.1
  have hpos' := hL.nd_pos g' hg'.1
  exact (hL.node_inj hg hg' (by omega) (by omega) heq).1

theorem Ok.node_eq_last (hL : L.Ok) (hg : L.Holds g) (hg' : L.Holds g') (hi : i < L.nd g)
    (heq : L.base g + i = L.last g') : g = g' ∧ i + 1 = L.nd g := by
  have hpos' := hL.nd_pos g' hg'.1
  obtain ⟨rfl, hij⟩ := hL.node_inj hg hg' hi (show L.nd g' - 1 < L.nd g' by omega) heq
  exact ⟨rfl, by omega⟩

end Spans

variable {L : Spans} {D D' : ℕ → EngDesc}

def AllDone (L : Spans) (D : ℕ → EngDesc) (g : ℕ) : Prop :=
  ∀ i, i < L.nd g → (D (L.base g + i)).done = true

def AllUndone (L : Spans) (D : ℕ → EngDesc) (g : ℕ) : Prop :=
  ∀ i, i < L.nd g → (D (L.base g + i)).done = false

/-- The group is done, or not touched and linked to nothing. -/
def Settled (L : Spans) (D : ℕ → EngDesc) (g : ℕ) : Prop :=
  AllDone L D g ∨ (AllUndone L D g ∧ (D (L.last g)).next = none)

/-- What holds of the descriptors whatever the engine does. -/
structure Common (L : Spans) (D : ℕ → EngDesc) : Prop where
  inner : ∀ g i, L.Holds g → i + 1 < L.nd g → (D (L.base g + i)).next = some (L.base g + i + 1)
  fresh : ∀ g, L.nFired ≤ g → g < L.nQsub → AllUndone L D g
  fresh_next : ∀ g, L.nFired ≤ g → g < L.nQsub → (D (L.last g)).next = none
  ready : ∀ g, L.Holds g → g < L.nReady → AllDone L D g

/-- While the engine does not run. -/
def Parked (L : Spans) (D : ℕ → EngDesc) : Prop :=
  ∀ g, L.Holds g → g < L.nFired → Settled L D g

/-! ### The chain -/

/-- The group that comes after `g`. -/
def succ (h F g : ℕ) : ℕ := if g = h then F else g + 1

def tailGroup (h F n : ℕ) : ℕ := if F = n then h else n - 1

def prevGroup (h F n : ℕ) : ℕ := if F + 1 = n then h else n - 2

/-- The chain begins with `h` and goes on with `F`. The engine executes descriptor `i` of group
`a`. -/
structure Chain (L : Spans) (D : ℕ → EngDesc) (tail pred head : Option ℕ) (cur h F a i : ℕ) :
    Prop where
  start_lt : h < F
  linked_le : F ≤ L.nFired
  head_eq : head = some (L.base h)
  holds : L.Holds a
  lt : a < L.nFired
  mem : a = h ∨ F ≤ a
  cur_eq : cur = L.base a + i
  idx_lt : i < L.nd a
  before : ∀ j, j < i → (D (L.base a + j)).done = true
  after : ∀ j, i ≤ j → j < L.nd a → (D (L.base a + j)).done = false
  past : ∀ g, L.Holds g → g = h ∨ F ≤ g → g < a → AllDone L D g
  ahead : ∀ g, F ≤ g → a < g → g < L.nFired → AllUndone L D g
  other : ∀ g, L.Holds g → g < F → g ≠ h → Settled L D g
  link : ∀ g, L.Holds g → g = h ∨ F ≤ g → succ h F g < L.nFired →
    (D (L.last g)).next = some (L.base (succ h F g))
  tail_eq : tail = some (L.last (tailGroup h F L.nFired))
  tail_next : (D (L.last (tailGroup h F L.nFired))).next = none
  pred_span : 1 < L.nd (tailGroup h F L.nFired) →
    pred = some (L.last (tailGroup h F L.nFired) - 1)
  pred_link : L.nd (tailGroup h F L.nFired) = 1 → F < L.nFired →
    pred = some (L.last (prevGroup h F L.nFired))
  slot : ∀ g, L.Holds g → g % L.nSlots = h % L.nSlots → g = h ∨ F ≤ g

variable {tail pred head : Option ℕ} {cur h F a i g n : ℕ}

theorem lt_succ (hF : h < F) : g < succ h F g := by
  unfold succ
  split <;> omega

theorem succ_mem (hg : g = h ∨ F ≤ g) : F ≤ succ h F g := by
  unfold succ
  split <;> omega

theorem le_of_lt_succ {g' : ℕ} (hg' : g' = h ∨ F ≤ g')
    (hlt : g' < succ h F g) : g' ≤ g := by
  unfold succ at hlt
  split at hlt <;> omega

theorem tailGroup_mem (hF : F ≤ n) : tailGroup h F n = h ∨ F ≤ tailGroup h F n := by
  unfold tailGroup
  split <;> omega

theorem tailGroup_lt (hF : h < F) (hn : F ≤ n) : tailGroup h F n < n := by
  unfold tailGroup
  split <;> omega

theorem le_tailGroup (hg : g = h ∨ F ≤ g) (hn : g < n) :
    g ≤ tailGroup h F n := by
  unfold tailGroup
  split <;> omega

theorem eq_tailGroup (hF : h < F) (hg : g = h ∨ F ≤ g) (hn : g < n) (hF' : F ≤ n)
    (hs : ¬ succ h F g < n) : g = tailGroup h F n := by
  unfold succ at hs
  unfold tailGroup
  split at hs <;> split <;> omega

theorem succ_tailGroup (hF : h < F) (hn : F ≤ n) : succ h F (tailGroup h F n) = n := by
  unfold succ tailGroup
  split <;> split <;> omega

theorem prevGroup_succ : prevGroup h F (n + 1) = tailGroup h F n := by
  unfold prevGroup tailGroup
  split <;> split <;> omega

theorem succ_eq_tailGroup (hF : h < F) (hg : g = h ∨ F ≤ g) (hn : F ≤ n)
    (hs : succ h F g = tailGroup h F n) : F < n ∧ g = prevGroup h F n := by
  unfold succ tailGroup at hs
  unfold prevGroup
  split at hs <;> split at hs <;> split <;> omega

namespace Chain

variable (hc : Chain L D tail pred head cur h F a i)

include hc

theorem holds_of_le (hL : L.Ok) (hg : a ≤ g) (hlt : g < L.nFired) : L.Holds g :=
  hc.holds.of_lt hg (hlt.trans_le hL.fired_le)

theorem tail_holds (hL : L.Ok) : L.Holds (tailGroup h F L.nFired) :=
  hc.holds_of_le hL (le_tailGroup hc.mem hc.lt)
    (tailGroup_lt hc.start_lt hc.linked_le)

theorem holds_of_lt_fired (hL : L.Ok) (hg : L.nFired ≤ g) (hq : g < L.nQsub) : L.Holds g := by
  have hlt := hc.lt
  have hle := hL.fired_le
  exact hc.holds.of_lt (by omega) hq

end Chain

/-! ### A descriptor is done -/

/-- The descriptors after the one at `cur` was marked as done. -/
structure Completed (D D' : ℕ → EngDesc) (cur : ℕ) : Prop where
  next : ∀ d, (D' d).next = (D d).next
  self : (D' cur).done = true
  done : ∀ d, d ≠ cur → (D' d).done = (D d).done

section Complete

variable (hL : L.Ok) (hd : Completed D D' cur) (hc : Chain L D tail pred head cur h F a i)

include hd in
theorem AllDone.complete (hg : AllDone L D g) : AllDone L D' g := by
  intro j hj
  by_cases heq : L.base g + j = cur
  · rw [heq]
    exact hd.self
  · rw [hd.done _ heq]
    exact hg j hj

include hL hd hc in
theorem AllUndone.complete (hh : L.Holds g) (hne : g ≠ a) (hg : AllUndone L D g) :
    AllUndone L D' g := by
  intro j hj
  have hneq : L.base g + j ≠ cur := by
    intro heq
    rw [hc.cur_eq] at heq
    exact hne (hL.node_inj hh hc.holds hj hc.idx_lt heq).1
  rw [hd.done _ hneq]
  exact hg j hj

include hL hd hc in
theorem Settled.complete (hh : L.Holds g) (hne : g ≠ a) (hg : Settled L D g) :
    Settled L D' g := by
  cases hg with
  | inl hdone => exact .inl (hdone.complete hd)
  | inr hun =>
    refine .inr ⟨hun.1.complete hL hd hc hh hne, ?_⟩
    rw [hd.next]
    exact hun.2

include hL hd hc in
theorem Common.complete (hcom : Common L D) : Common L D' where
  inner g j hg hj := (hd.next _).trans (hcom.inner g j hg hj)
  fresh g hg hq := by
    have hlt := hc.lt
    have hh := hc.holds_of_lt_fired hL hg hq
    exact (hcom.fresh g hg hq).complete hL hd hc hh (by omega)
  fresh_next g hg hq := (hd.next _).trans (hcom.fresh_next g hg hq)
  ready g hh hg := (hcom.ready g hh hg).complete hd

include hd hc in
theorem Chain.done_upto {j : ℕ} (hj : j ≤ i) : (D' (L.base a + j)).done = true := by
  by_cases heq : j = i
  · rw [heq, ← hc.cur_eq]
    exact hd.self
  · have hneq : L.base a + j ≠ cur := by
      rw [hc.cur_eq]
      omega
    rw [hd.done _ hneq]
    exact hc.before j (by omega)

include hd hc in
theorem Chain.undone_after {j : ℕ} (hj : i < j) (hlt : j < L.nd a) :
    (D' (L.base a + j)).done = false := by
  have hneq : L.base a + j ≠ cur := by
    rw [hc.cur_eq]
    omega
  rw [hd.done _ hneq]
  exact hc.after j (by omega) hlt

include hc in
theorem Chain.last_next (hlast : i + 1 = L.nd a) : cur = L.last a ∧
    ((succ h F a < L.nFired ∧ (D cur).next = some (L.base (succ h F a))) ∨
      (a = tailGroup h F L.nFired ∧ (D cur).next = none)) := by
  have hcur : cur = L.last a := by
    rw [hc.cur_eq]
    unfold Spans.last
    omega
  refine ⟨hcur, ?_⟩
  rw [hcur]
  by_cases hs : succ h F a < L.nFired
  · exact .inl ⟨hs, hc.link a hc.holds hc.mem hs⟩
  · have hat := eq_tailGroup hc.start_lt hc.mem hc.lt hc.linked_le hs
    refine .inr ⟨hat, ?_⟩
    rw [hat]
    exact hc.tail_next

include hL hd hc in
theorem Chain.complete_some (hcom : Common L D) {nx : ℕ} (hnx : (D cur).next = some nx) :
    ∃ a' i', Chain L D' tail pred head nx h F a' i' := by
  have hother : ∀ g, L.Holds g → g < F → g ≠ h → Settled L D' g := by
    intro g hg hlt hne
    apply (hc.other g hg hlt hne).complete hL hd hc hg
    have hmem := hc.mem
    omega
  have hlink : ∀ g, L.Holds g → g = h ∨ F ≤ g → succ h F g < L.nFired →
      (D' (L.last g)).next = some (L.base (succ h F g)) := by
    intro g hg hm hs
    rw [hd.next]
    exact hc.link g hg hm hs
  have htail : (D' (L.last (tailGroup h F L.nFired))).next = none := by
    rw [hd.next]
    exact hc.tail_next
  by_cases hlast : i + 1 < L.nd a
  · -- Within the group.
    have hnext := hcom.inner a i hc.holds hlast
    rw [← hc.cur_eq, hnx] at hnext
    refine ⟨a, i + 1, { hc with
      cur_eq := ?_, idx_lt := hlast, before := ?_, after := ?_, past := ?_, ahead := ?_
      other := hother, link := hlink, tail_next := htail }⟩
    · rw [Option.some.inj hnext, hc.cur_eq, Nat.add_assoc]
    · exact fun j hj => hc.done_upto hd (by omega)
    · exact fun j hj hlt => hc.undone_after hd (by omega) hlt
    · exact fun g hg hm hlt => (hc.past g hg hm hlt).complete hd
    · intro g hF hlt hn
      apply (hc.ahead g hF hlt hn).complete hL hd hc _ (by omega)
      exact hc.holds_of_le hL hlt.le hn
  · -- On to the next group, which is not the tail's successor as there is one.
    have hidx := hc.idx_lt
    obtain ⟨-, ⟨hs, hnext⟩ | ⟨-, hnone⟩⟩ := hc.last_next (by omega)
    · rw [hnx] at hnext
      have hlt := lt_succ (g := a) hc.start_lt
      have hh := hc.holds_of_le hL hlt.le hs
      have hun := (hc.ahead _ (succ_mem hc.mem) hlt hs).complete hL hd hc hh (by omega)
      refine ⟨succ h F a, 0, { hc with
        holds := hh, lt := hs, mem := .inr (succ_mem hc.mem), cur_eq := ?_, idx_lt := ?_
        before := ?_, after := ?_, past := ?_, ahead := ?_
        other := hother, link := hlink, tail_next := htail }⟩
      · rw [Option.some.inj hnext, Nat.add_zero]
      · exact hL.nd_pos _ hh.1
      · exact fun j hj => absurd hj (Nat.not_lt_zero j)
      · exact fun j _ hj => hun j hj
      · intro g hg hm hgs
        have hle := le_of_lt_succ hm hgs
        by_cases hga : g = a
        · rw [hga]
          exact fun j hj => hc.done_upto hd (by omega)
        · exact (hc.past g hg hm (by omega)).complete hd
      · intro g hF hg hn
        apply (hc.ahead g hF (by omega) hn).complete hL hd hc _ (by omega)
        exact hc.holds_of_le hL (by omega) hn
    · rw [hnone] at hnx
      cases hnx

include hL hd hc in
theorem Chain.complete_none (hcom : Common L D) (hnone : (D cur).next = none) : Parked L D' := by
  have hlast : i + 1 = L.nd a := by
    by_contra hne
    have hidx := hc.idx_lt
    have hnext := hcom.inner a i hc.holds (by omega)
    rw [← hc.cur_eq, hnone] at hnext
    cases hnext
  have htail : a = tailGroup h F L.nFired := by
    obtain ⟨-, ⟨-, hnext⟩ | ⟨hat, -⟩⟩ := hc.last_next hlast
    · rw [hnone] at hnext
      cases hnext
    · exact hat
  intro g hg hlt
  by_cases hm : g = h ∨ F ≤ g
  · left
    have hle := le_tailGroup hm hlt
    rw [← htail] at hle
    by_cases hga : g = a
    · rw [hga]
      exact fun j hj => hc.done_upto hd (by omega)
    · exact (hc.past g hg hm (by omega)).complete hd
  · have hmem := hc.mem
    exact (hc.other g hg (by omega) (by omega)).complete hL hd hc hg (by omega)

end Complete

/-! ### Doorbells -/

theorem Chain.start (hL : L.Ok) {k : ℕ} (hk : L.Holds k) (hlt : k < L.nFired)
    (hun : AllUndone L D k) (hnone : (D (L.last k)).next = none)
    (hother : ∀ g, L.Holds g → g < L.nFired → g ≠ k → Settled L D g)
    (hpred : 1 < L.nd k → pred = some (L.last k - 1)) :
    Chain L D (some (L.last k)) pred (some (L.base k)) (L.base k) k L.nFired k 0 := by
  have htail : tailGroup k L.nFired L.nFired = k := if_pos rfl
  constructor
  case start_lt => exact hlt
  case linked_le => exact le_rfl
  case head_eq => rfl
  case holds => exact hk
  case lt => exact hlt
  case mem => exact .inl rfl
  case cur_eq => rfl
  case idx_lt => exact hL.nd_pos k hk.1
  case before => exact fun j hj => absurd hj (Nat.not_lt_zero j)
  case after => exact fun j _ hj => hun j hj
  case past =>
    intro g _ hm hg
    omega
  case ahead =>
    intro g hF _ hg
    omega
  case other => exact fun g hg hlt' hne => hother g hg hlt' hne
  case link =>
    intro g _ hm hs
    have hF := succ_mem hm
    omega
  case tail_eq => rw [htail]
  case tail_next =>
    rw [htail]
    exact hnone
  case pred_span =>
    rw [htail]
    exact hpred
  case pred_link => exact fun _ hF => absurd hF (Nat.lt_irrefl _)
  case slot =>
    intro g hg hmod
    left
    by_contra hne
    exact Lib.RingBuffer.window_mod_ne hg.1 hg.2 hk.1 hk.2 hne hmod

/-- The spans when one more group is fired. -/
def Spans.fire (L : Spans) : Spans := { L with nFired := L.nFired + 1 }

theorem Spans.Ok.fire (hL : L.Ok) (hq : L.nFired < L.nQsub) : L.fire.Ok :=
  { hL with
    ready_le := hL.ready_le.trans (Nat.le_succ _)
    fired_le := hq }

theorem Common.fire (hcom : Common L D) : Common L.fire D :=
  { hcom with
    fresh := fun g hg hq => hcom.fresh g (Nat.le_of_succ_le hg) hq
    fresh_next := fun g hg hq => hcom.fresh_next g (Nat.le_of_succ_le hg) hq }

section Link

/-- The descriptors after the one at `t` was linked to the one at `nx`. -/
structure Linked (D D' : ℕ → EngDesc) (t nx : ℕ) : Prop where
  done : ∀ d, (D' d).done = (D d).done
  self : (D' t).next = some nx
  next : ∀ d, d ≠ t → (D' d).next = (D d).next

variable {t nx : ℕ} (hd : Linked D D' t nx)

include hd in
theorem AllDone.linked (hg : AllDone L D g) : AllDone L D' g :=
  fun j hj => (hd.done _).trans (hg j hj)

include hd in
theorem AllUndone.linked (hg : AllUndone L D g) : AllUndone L D' g :=
  fun j hj => (hd.done _).trans (hg j hj)

include hd in
theorem Settled.linked (hne : L.last g ≠ t) (hg : Settled L D g) : Settled L D' g := by
  cases hg with
  | inl hdone => exact .inl (hdone.linked hd)
  | inr hun => exact .inr ⟨hun.1.linked hd, (hd.next _ hne).trans hun.2⟩

theorem Common.linked (hL : L.Ok) {f : ℕ} (hf : L.Holds f) (hlt : f < L.nFired)
    (hd : Linked D D' (L.last f) nx) (hcom : Common L D) : Common L D' where
  inner g j hg hj := by
    rw [hd.next]
    · exact hcom.inner g j hg hj
    · intro heq
      have hlast := hL.node_eq_last hg hf (by omega) heq
      omega
  fresh g hg hq := (hcom.fresh g hg hq).linked hd
  fresh_next g hg hq := by
    rw [hd.next]
    · exact hcom.fresh_next g hg hq
    · intro heq
      have hgf := hL.last_inj (hf.of_lt (by omega) hq) hf heq
      omega
  ready g hh hg := (hcom.ready g hh hg).linked hd

theorem Chain.link_next (hL : L.Ok) (hc : Chain L D tail pred head cur h F a i)
    (hcom : Common L D) (hq : L.nFired < L.nQsub)
    (hd : Linked D D' (L.last (tailGroup h F L.nFired)) (L.base L.nFired)) :
    Chain L.fire D' (some (L.last L.nFired))
      (if 1 < L.nd L.nFired then some (L.last L.nFired - 1) else tail) head cur h F a i := by
  have hle := hc.linked_le
  have htlt := tailGroup_lt hc.start_lt hle
  have hth := hc.tail_holds hL
  have hkh : L.Holds L.nFired := hth.of_lt htlt.le hq
  have htail : tailGroup h F (L.nFired + 1) = L.nFired := by
    unfold tailGroup
    rw [if_neg (by omega)]
    rfl
  constructor
  case start_lt => exact hc.start_lt
  case linked_le => exact hle.trans (Nat.le_succ _)
  case head_eq => exact hc.head_eq
  case holds => exact hc.holds
  case lt => exact hc.lt.trans (Nat.lt_succ_self _)
  case mem => exact hc.mem
  case cur_eq => exact hc.cur_eq
  case idx_lt => exact hc.idx_lt
  case before => exact fun j hj => (hd.done _).trans (hc.before j hj)
  case after => exact fun j hj hlt => (hd.done _).trans (hc.after j hj hlt)
  case past => exact fun g hg hm hlt => AllDone.linked hd (hc.past g hg hm hlt)
  case ahead =>
    intro g hF hg hlt
    have hlt' : g < L.nFired + 1 := hlt
    by_cases hgk : g = L.nFired
    · rw [hgk]
      exact AllUndone.linked hd (hcom.fresh _ le_rfl hq)
    · exact AllUndone.linked hd (hc.ahead g hF hg (by omega))
  case other =>
    intro g hg hlt hne
    have hset := hc.other g hg hlt hne
    apply Settled.linked (L := L) hd _ hset
    intro heq
    have hgt := hL.last_inj hg hth heq
    have hm := tailGroup_mem (h := h) hle
    omega
  case link =>
    intro g hg hm hs
    have hs' : succ h F g < L.nFired + 1 := hs
    by_cases hsk : succ h F g < L.nFired
    · show (D' (L.last g)).next = _
      rw [hd.next]
      · exact hc.link g hg hm hsk
      · intro heq
        have hgt := hL.last_inj hg hth heq
        rw [hgt, succ_tailGroup hc.start_lt hle] at hsk
        exact Nat.lt_irrefl _ hsk
    · have hgt : g < L.nFired := by
        have hgs := lt_succ (g := g) hc.start_lt
        omega
      have hgtail := eq_tailGroup hc.start_lt hm hgt hle hsk
      have hsucc : succ h F g = L.nFired := by omega
      show (D' (L.last g)).next = some (L.base (succ h F g))
      rw [hsucc, hgtail]
      exact hd.self
  case tail_eq =>
    show some (L.last L.nFired) = some (L.last (tailGroup h F (L.nFired + 1)))
    rw [htail]
  case tail_next =>
    show (D' (L.last (tailGroup h F (L.nFired + 1)))).next = none
    rw [htail, hd.next]
    · exact hcom.fresh_next _ le_rfl hq
    · intro heq
      have hkt := hL.last_inj hkh hth heq
      omega
  case pred_span =>
    show 1 < L.nd (tailGroup h F (L.nFired + 1)) → _ = some (L.last (tailGroup h F (L.nFired + 1)) - 1)
    rw [htail]
    exact fun hnd => if_pos hnd
  case pred_link =>
    show L.nd (tailGroup h F (L.nFired + 1)) = 1 → F < L.nFired + 1 →
      _ = some (L.last (prevGroup h F (L.nFired + 1)))
    rw [htail, prevGroup_succ]
    intro hnd _
    rw [if_neg (by omega)]
    exact hc.tail_eq
  case slot => exact hc.slot

end Link

/-! ### The next group is claimed -/

/-- The spans when one more group is claimed. -/
def Spans.claim (L : Spans) (nd : ℕ) : Spans :=
  { L with nQsub := L.nQsub + 1, nd := Function.update L.nd L.nQsub nd }

section Claim

variable {nd : ℕ}

/-- The descriptors after those of the next group were filled. -/
structure Refilled (L : Spans) (D D' : ℕ → EngDesc) (nd : ℕ) : Prop where
  next : ∀ j, j < nd → (D' (L.base L.nQsub + j)).next
    = if j + 1 < nd then some (L.base L.nQsub + j + 1) else none
  done : ∀ j, j < nd → (D' (L.base L.nQsub + j)).done = false
  other : ∀ d, (∀ j, j < nd → d ≠ L.base L.nQsub + j) → D' d = D d

theorem Spans.nd_claim (hne : g ≠ L.nQsub) : (L.claim nd).nd g = L.nd g :=
  Function.update_of_ne hne _ _

theorem Spans.nd_claim_self : (L.claim nd).nd L.nQsub = nd :=
  Function.update_self _ _ _

theorem Spans.last_claim (hne : g ≠ L.nQsub) : (L.claim nd).last g = L.last g := by
  unfold Spans.last
  rw [Spans.nd_claim hne]
  rfl

theorem Spans.holds_of_claim (hg : (L.claim nd).Holds g) (hne : g ≠ L.nQsub) : L.Holds g := by
  have hlt : g < L.nQsub + 1 := hg.1
  have hle : L.nQsub + 1 ≤ g + L.nSlots := hg.2
  exact ⟨by omega, by omega⟩

theorem Spans.Ok.claim (hL : L.Ok) (hpos : 0 < nd) (hle : nd ≤ L.dpSlot) : (L.claim nd).Ok where
  nSlots_pos := hL.nSlots_pos
  ready_le := hL.ready_le
  fired_le := hL.fired_le.trans (Nat.le_succ _)
  nd_pos g hg := by
    by_cases hgq : g = L.nQsub
    · rw [hgq, Spans.nd_claim_self]
      exact hpos
    · rw [Spans.nd_claim hgq]
      have hlt : g < L.nQsub + 1 := hg
      exact hL.nd_pos g (by omega)
  nd_le g hg := by
    by_cases hgq : g = L.nQsub
    · rw [hgq, Spans.nd_claim_self]
      exact hle
    · rw [Spans.nd_claim hgq]
      have hlt : g < L.nQsub + 1 := hg
      exact hL.nd_le g (by omega)

theorem Spans.holds_claim (hw : L.nQsub < L.nReady + L.nSlots) (hg : L.nReady ≤ g)
    (hq : g < L.nQsub + 1) : (L.claim nd).Holds g :=
  ⟨hq, show L.nQsub + 1 ≤ g + L.nSlots by omega⟩

variable (hL : L.Ok) (hle : nd ≤ L.dpSlot) (hr : Refilled L D D' nd)

include hL hle hr

theorem Refilled.same (hg : (L.claim nd).Holds g) (hne : g ≠ L.nQsub) {j : ℕ} (hj : j < L.nd g) :
    D' (L.base g + j) = D (L.base g + j) := by
  have hlt : g < L.nQsub + 1 := hg.1
  have hwin : L.nQsub + 1 ≤ g + L.nSlots := hg.2
  have hmod : g % L.nSlots ≠ L.nQsub % L.nSlots :=
    Lib.RingBuffer.window_mod_ne hlt hwin (Nat.lt_succ_self _)
      (by have := hL.nSlots_pos; omega) hne
  have hjd := hj.trans_le (hL.nd_le g (by omega))
  apply hr.other
  intro k hk
  exact Lib.RingBuffer.block_ne hmod hjd (hk.trans_le hle)

theorem Refilled.same_last (hg : (L.claim nd).Holds g) (hne : g ≠ L.nQsub) :
    D' (L.last g) = D (L.last g) := by
  have hpos := hL.nd_pos g (Spans.holds_of_claim hg hne).1
  exact hr.same hL hle hg hne (show L.nd g - 1 < L.nd g by omega)

theorem AllDone.claim (hg : (L.claim nd).Holds g) (hne : g ≠ L.nQsub) (hd : AllDone L D g) :
    AllDone (L.claim nd) D' g := by
  intro j hj
  rw [Spans.nd_claim hne] at hj
  exact (congrArg EngDesc.done (hr.same hL hle hg hne hj)).trans (hd j hj)

theorem AllUndone.claim (hg : (L.claim nd).Holds g) (hne : g ≠ L.nQsub) (hd : AllUndone L D g) :
    AllUndone (L.claim nd) D' g := by
  intro j hj
  rw [Spans.nd_claim hne] at hj
  exact (congrArg EngDesc.done (hr.same hL hle hg hne hj)).trans (hd j hj)

theorem next_claim (hg : (L.claim nd).Holds g) (hne : g ≠ L.nQsub) :
    (D' ((L.claim nd).last g)).next = (D (L.last g)).next := by
  rw [Spans.last_claim hne, hr.same_last hL hle hg hne]

theorem Settled.claim (hg : (L.claim nd).Holds g) (hne : g ≠ L.nQsub) (hd : Settled L D g) :
    Settled (L.claim nd) D' g := by
  cases hd with
  | inl hdone => exact .inl (hdone.claim hL hle hr hg hne)
  | inr hun =>
    refine .inr ⟨hun.1.claim hL hle hr hg hne, ?_⟩
    rw [next_claim hL hle hr hg hne]
    exact hun.2

theorem Parked.claim (hp : Parked L D) : Parked (L.claim nd) D' := by
  intro g hg hlt
  have hlt' : g < L.nFired := hlt
  have hfired := hL.fired_le
  have hne : g ≠ L.nQsub := by omega
  exact (hp g (Spans.holds_of_claim hg hne) hlt).claim hL hle hr hg hne

theorem Common.claim (hw : L.nQsub < L.nReady + L.nSlots) (hpos : 0 < nd) (hcom : Common L D) :
    Common (L.claim nd) D' := by
  have hready := hL.ready_le
  have hfired := hL.fired_le
  constructor
  · intro g j hg hj
    by_cases hne : g = L.nQsub
    · cases hne
      rw [Spans.nd_claim_self] at hj
      exact (hr.next j (by omega)).trans (if_pos hj)
    · rw [Spans.nd_claim hne] at hj
      have hsame := hr.same hL hle hg hne (show j < L.nd g by omega)
      exact (congrArg EngDesc.next hsame).trans
        (hcom.inner g j (Spans.holds_of_claim hg hne) hj)
  · intro g hg hq
    have hg' : L.nFired ≤ g := hg
    have hq' : g < L.nQsub + 1 := hq
    by_cases hne : g = L.nQsub
    · cases hne
      intro j hj
      rw [Spans.nd_claim_self] at hj
      exact hr.done j hj
    · apply (hcom.fresh g hg (by omega)).claim hL hle hr _ hne
      exact Spans.holds_claim hw (hready.trans hg) hq
  · intro g hg hq
    have hg' : L.nFired ≤ g := hg
    have hq' : g < L.nQsub + 1 := hq
    by_cases hne : g = L.nQsub
    · cases hne
      have hlast : (L.claim nd).last L.nQsub = L.base L.nQsub + (nd - 1) := by
        unfold Spans.last
        rw [Spans.nd_claim_self]
        rfl
      rw [hlast, hr.next (nd - 1) (by omega), if_neg (by omega)]
    · rw [next_claim hL hle hr (Spans.holds_claim hw (hready.trans hg) hq) hne]
      exact hcom.fresh_next g hg (by omega)
  · intro g hg hlt
    have hlt' : g < L.nReady := hlt
    have hne : g ≠ L.nQsub := by omega
    exact (hcom.ready g (Spans.holds_of_claim hg hne) hlt).claim hL hle hr hg hne

theorem Chain.claim (hw : L.nQsub < L.nReady + L.nSlots) (hcom : Common L D)
    (hc : Chain L D tail pred head cur h F a i) :
    Chain (L.claim nd) D' tail pred head cur h F a i := by
  have hfired := hL.fired_le
  have hF := hc.linked_le
  have halt := hc.lt
  -- The group that is executed is not done, so it is not ready.
  have haready : L.nReady ≤ a := by
    by_contra hlt
    have hdone := hcom.ready a hc.holds (Nat.lt_of_not_le hlt) i hc.idx_lt
    rw [hc.after i le_rfl hc.idx_lt] at hdone
    cases hdone
  have hah : (L.claim nd).Holds a := Spans.holds_claim hw haready (by omega)
  have hge : ∀ g, a ≤ g → g < L.nFired → (L.claim nd).Holds g := by
    intro g hg hlt
    exact hah.of_lt hg (show g < L.nQsub + 1 by omega)
  have htlt := tailGroup_lt hc.start_lt hF
  have hth := hge _ (le_tailGroup hc.mem hc.lt) htlt
  constructor
  case start_lt => exact hc.start_lt
  case linked_le => exact hF
  case head_eq => exact hc.head_eq
  case holds => exact hah
  case lt => exact hc.lt
  case mem => exact hc.mem
  case cur_eq => exact hc.cur_eq
  case idx_lt =>
    rw [Spans.nd_claim (by omega)]
    exact hc.idx_lt
  case before =>
    intro j hj
    have hsame := hr.same hL hle hah (by omega) (hj.trans hc.idx_lt)
    exact (congrArg EngDesc.done hsame).trans (hc.before j hj)
  case after =>
    intro j hj hlt
    rw [Spans.nd_claim (by omega)] at hlt
    have hsame := hr.same hL hle hah (by omega) hlt
    exact (congrArg EngDesc.done hsame).trans (hc.after j hj hlt)
  case past =>
    intro g hg hm hlt
    have hne : g ≠ L.nQsub := by omega
    exact (hc.past g (Spans.holds_of_claim hg hne) hm hlt).claim hL hle hr hg hne
  case ahead =>
    intro g hFg hg hlt
    have hlt' : g < L.nFired := hlt
    exact (hc.ahead g hFg hg hlt).claim hL hle hr (hge g hg.le hlt) (by omega)
  case other =>
    intro g hg hlt hne
    have hne' : g ≠ L.nQsub := by omega
    exact (hc.other g (Spans.holds_of_claim hg hne') hlt hne).claim hL hle hr hg hne'
  case link =>
    intro g hg hm hs
    have hs' : succ h F g < L.nFired := hs
    have hgs := lt_succ (g := g) hc.start_lt
    have hne : g ≠ L.nQsub := by omega
    rw [next_claim hL hle hr hg hne]
    exact hc.link g (Spans.holds_of_claim hg hne) hm hs
  case tail_eq =>
    show tail = some ((L.claim nd).last (tailGroup h F L.nFired))
    rw [Spans.last_claim (by omega)]
    exact hc.tail_eq
  case tail_next =>
    show (D' ((L.claim nd).last (tailGroup h F L.nFired))).next = none
    rw [next_claim hL hle hr hth (by omega)]
    exact hc.tail_next
  case pred_span =>
    show 1 < (L.claim nd).nd (tailGroup h F L.nFired) →
      pred = some ((L.claim nd).last (tailGroup h F L.nFired) - 1)
    rw [Spans.nd_claim (by omega), Spans.last_claim (by omega)]
    exact hc.pred_span
  case pred_link =>
    intro hone hFlt
    have hFlt' : F < L.nFired := hFlt
    have hprev : prevGroup h F L.nFired < L.nFired := by
      have hstart := hc.start_lt
      unfold prevGroup
      split <;> omega
    show pred = some ((L.claim nd).last (prevGroup h F L.nFired))
    rw [Spans.last_claim (by omega)]
    apply hc.pred_link _ hFlt
    rw [← hone]
    exact (Spans.nd_claim (by omega)).symm
  case slot =>
    intro g hg hmod
    by_cases hne : g = L.nQsub
    · right
      omega
    · exact hc.slot g (Spans.holds_of_claim hg hne) hmod

end Claim

/-! ### The way to the tail -/

/-- A descriptor, if it is one, that is not done. -/
def Undone (D : ℕ → EngDesc) (p : Option ℕ) : Prop := ∀ q, p = some q → (D q).done = false

section Walk

variable {sh : Shared}

theorem predWalk_fresh (hL : L.Ok) (hcom : Common L sh.descs) {f : ℕ} (hf : L.Holds f)
    (hfl : f < L.nFired) (hg : L.Holds g) (hgl : L.nFired ≤ g) (n j : ℕ) (p : Option ℕ)
    (hj : j < L.nd g) (hn : L.nd g < n + j) (hp : Undone sh.descs p) :
    ∃ p', predWalk sh (L.last f) n (some (L.base g + j)) p = some p' ∧ Undone sh.descs p' := by
  induction n generalizing j p with
  | zero => omega
  | succ n ih =>
    have hne : L.base g + j ≠ L.last f := by
      intro heq
      have hgf := hL.node_eq_last hg hf hj heq
      omega
    have hnode : Undone sh.descs (some (L.base g + j)) := by
      rintro q ⟨⟩
      exact hcom.fresh g hgl hg.1 j hj
    unfold predWalk
    rw [if_neg hne]
    by_cases hlast : j + 1 < L.nd g
    · rw [hcom.inner g j hg hlast]
      exact ih (j + 1) _ hlast (by omega) hnode
    · have hend : L.base g + j = L.last g := by
        unfold Spans.last
        omega
      rw [hend, hcom.fresh_next g hgl hg.1, ← hend]
      cases n with
      | zero => omega
      | succ n => exact ⟨_, rfl, hnode⟩

variable (hL : L.Ok) (hcom : Common L sh.descs) (hpred : Undone sh.descs pred)
  (hc : Chain L sh.descs tail pred head cur h F a i)

include hL hcom hpred hc

theorem predWalk_chain (n g j : ℕ) (p : Option ℕ) (hg : L.Holds g) (hm : g = h ∨ F ≤ g)
    (hlt : g < L.nFired) (hj : j < L.nd g) (hn : (L.nQsub - g) * L.dpSlot < n + j)
    (hp : L.base g + j = L.last (tailGroup h F L.nFired) → Undone sh.descs p) :
    ∃ p', predWalk sh (L.last (tailGroup h F L.nFired)) n (some (L.base g + j)) p = some p' ∧
      Undone sh.descs p' := by
  have hth := hc.tail_holds hL
  induction n generalizing g j p with
  | zero =>
    have hjd := hj.trans_le (hL.nd_le g hg.1)
    have hone : 1 * L.dpSlot ≤ (L.nQsub - g) * L.dpSlot :=
      Nat.mul_le_mul_right _ (by have := hg.1; omega)
    omega
  | succ n ih =>
    unfold predWalk
    by_cases hend : L.base g + j = L.last (tailGroup h F L.nFired)
    · rw [if_pos hend]
      exact ⟨p, rfl, hp hend⟩
    rw [if_neg hend]
    by_cases hlast : j + 1 < L.nd g
    · rw [hcom.inner g j hg hlast]
      apply ih g (j + 1) _ hg hm hlt hlast (by omega)
      intro heq
      obtain ⟨hgt, hidx⟩ := hL.node_eq_last hg hth hlast heq
      have hnoted := hc.pred_span (by rw [← hgt]; omega)
      rw [← heq] at hnoted
      rw [hnoted] at hpred
      exact hpred
    · have hnode : L.base g + j = L.last g := by
        unfold Spans.last
        omega
      have hs : succ h F g < L.nFired := by
        by_contra hs
        have hgt := eq_tailGroup hc.start_lt hm hlt hc.linked_le hs
        rw [hnode, hgt] at hend
        exact hend rfl
      have hgs := lt_succ (g := g) hc.start_lt
      have hsh : L.Holds (succ h F g) := hg.of_lt hgs.le (hs.trans_le hL.fired_le)
      rw [hnode, hc.link g hg hm hs]
      apply ih (succ h F g) 0 _ hsh (.inr (succ_mem hm)) hs (hL.nd_pos _ hsh.1)
      · have hjd := hj.trans_le (hL.nd_le g hg.1)
        have hle : (L.nQsub - succ h F g + 1) * L.dpSlot ≤ (L.nQsub - g) * L.dpSlot :=
          Nat.mul_le_mul_right _ (by have := hsh.1; omega)
        rw [Nat.succ_mul] at hle
        omega
      · intro heq
        obtain ⟨hst, hone⟩ := hL.node_eq_last hsh hth (hL.nd_pos _ hsh.1) heq
        obtain ⟨hF, hprev⟩ := succ_eq_tailGroup hc.start_lt hm hc.linked_le hst
        have hnoted := hc.pred_link (by rw [← hst]; omega) hF
        rw [← hprev] at hnoted
        rw [hnoted] at hpred
        exact hpred

omit hL hcom hpred in
/-- The slot of the head is held by `h`, or by a later group of the chain, or by one that is not
fired. -/
theorem Chain.head_owner (hN : 0 < L.nSlots) (hh : h < L.nQsub) :
    ∃ g, L.Holds g ∧ L.base g = L.base h ∧ (g = h ∨ F ≤ g) := by
  by_cases hold : L.Holds h
  · exact ⟨h, hold, rfl, .inl rfl⟩
  have hfar : h + L.nSlots < L.nQsub := by
    by_contra hle
    exact hold ⟨hh, by omega⟩
  -- The last number below `nQsub` that falls on the slot.
  let x := L.nQsub - 1 - h
  have hx := Nat.div_add_mod x L.nSlots
  have hlt := Nat.mod_lt x hN
  have hmod : (h + L.nSlots * (x / L.nSlots)) % L.nSlots = h % L.nSlots :=
    Nat.add_mul_mod_self_left h _ _
  have hsum : x + h + 1 = L.nQsub := by
    show L.nQsub - 1 - h + h + 1 = L.nQsub
    omega
  have hg : L.Holds (h + L.nSlots * (x / L.nSlots)) := ⟨by omega, by omega⟩
  refine ⟨_, hg, ?_, hc.slot _ hg hmod⟩
  unfold Spans.base
  rw [hmod]

/-- On the way from the head to the tail, the descriptor before the tail is not done; and if the way
does not lead there, the last one is not done. -/
theorem Chain.walk {n : ℕ} (hn : ∀ g, L.Holds g → (L.nQsub - g) * L.dpSlot < n) :
    ∃ p', predWalk sh (L.last (tailGroup h F L.nFired)) n head none = some p' ∧
      Undone sh.descs p' := by
  have hF := hc.linked_le
  have hstart := hc.start_lt
  have hfired := hL.fired_le
  have hnone : Undone sh.descs none := by
    intro q hq
    cases hq
  obtain ⟨g, hg, hbase, hm⟩ := hc.head_owner hL.nSlots_pos (by omega)
  rw [hc.head_eq, ← hbase]
  by_cases hlt : g < L.nFired
  · exact predWalk_chain hL hcom hpred hc n g 0 none hg hm hlt (hL.nd_pos g hg.1) (hn g hg)
      fun _ => hnone
  · apply predWalk_fresh hL hcom (hc.tail_holds hL) (tailGroup_lt hstart hF) hg (by omega) n 0 none
      (hL.nd_pos g hg.1) _ hnone
    have hone : 1 * L.dpSlot ≤ (L.nQsub - g) * L.dpSlot :=
      Nat.mul_le_mul_right _ (by have := hg.1; omega)
    have hle := hL.nd_le g hg.1
    have hfuel := hn g hg
    omega

end Walk

end Gehtp.Analysis.RingChain
