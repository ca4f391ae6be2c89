import Gehtp.Lib.Machine
import Gehtp.Lib.RingBuffer
import Gehtp.Model.WtcacheRing

/-!
# The ring of tiles delivers in order

In a run in which no submit of a prefetch fails and no move-back ends with an error after it was
started, the `k`-th call of `next` that succeeds returns a slot with the `k`-th tile that was
pushed, no transfer to that slot is under way before the following call, and every output slot with
a target is moved back once, with what the caller has left in it. A submit that fails loses its
tile: the source is counted before it is submitted.

The tiles are numbered in the order in which they are pushed. Tiles below `c` were returned, those
below `l` have landed in their slots, and those below `m` were submitted; a tile has the slot of
its number modulo the depth.
-/

set_option autoImplicit false

namespace Gehtp.Analysis.WtcacheOrder

open Lib Lib.Machine Lib.Runs Model.WtcacheRing

variable {T U A : Type}

/-! ### The window -/

theorem slot_ne {d i j : ℕ} (hne : i ≠ j) (hij : i < j + d) (hji : j < i + d) : i % d ≠ j % d := by
  cases Nat.lt_or_gt_of_ne hne with
  | inl hlt =>
    have h := @RingBuffer.mod_ne d 0 i j hlt hji
    rw [Nat.zero_add, Nat.zero_add] at h
    exact h
  | inr hgt =>
    have h := @RingBuffer.mod_ne d 0 j i hgt hij
    rw [Nat.zero_add, Nat.zero_add] at h
    exact h.symm

/-- The tiles from `c` on: those below `l` are in their slots, those below `m` are in the queue of
the engine. -/
structure Flight (r : TileRing T U A) (c l m : ℕ) : Prop where
  depth_pos : 0 < r.depthIn
  start : c ≤ l
  queue_len : l + r.queue.length = m
  window : m ≤ c + r.depthIn
  sources : m ≤ r.ddrSources.length
  queued : ∀ i < r.queue.length,
    r.queue[i]? = r.ddrSources[l + i]?.map fun t => ((l + i) % r.depthIn, t)
  landed : ∀ i, c ≤ i → i < l →
    r.inSlots (i % r.depthIn) = r.ddrSources[i]? ∧ r.descDone (i % r.depthIn) = true
  waiting : ∀ i, l ≤ i → i < m → r.descDone (i % r.depthIn) = false

/-- The cursors of the ring say the same. -/
structure Cursor (r : TileRing T U A) (c m : ℕ) : Prop where
  consume : r.inConsume = c % r.depthIn
  next : r.ddrNext = m
  inflight : c + r.nInflight = m

/-- What the window leaves alone. -/
structure Kept (r r' : TileRing T U A) : Prop where
  depthIn : r'.depthIn = r.depthIn
  depthOut : r'.depthOut = r.depthOut
  outSlots : r'.outSlots = r.outSlots
  pendingMb : r'.pendingMb = r.pendingMb
  curIn : r'.curIn = r.curIn
  curOut : r'.curOut = r.curOut
  left : r'.left = r.left
  returned : r'.returned = r.returned
  handed : r'.handed = r.handed
  moved : r'.moved = r.moved

namespace Kept

variable {r r' r'' : TileRing T U A}

theorem refl (r : TileRing T U A) : Kept r r := ⟨rfl, rfl, rfl, rfl, rfl, rfl, rfl, rfl, rfl, rfl⟩

theorem trans (h : Kept r r') (h' : Kept r' r'') : Kept r r'' :=
  ⟨h'.depthIn.trans h.depthIn, h'.depthOut.trans h.depthOut, h'.outSlots.trans h.outSlots,
    h'.pendingMb.trans h.pendingMb, h'.curIn.trans h.curIn, h'.curOut.trans h.curOut,
    h'.left.trans h.left, h'.returned.trans h.returned, h'.handed.trans h.handed,
    h'.moved.trans h.moved⟩

end Kept

/-- What a transfer leaves alone: everything but the slots of the tiles from `l` to `l'`. -/
structure Landed (r r' : TileRing T U A) (l l' : ℕ) : Prop where
  kept : Kept r r'
  sources : r'.ddrSources = r.ddrSources
  overlap : r'.overlapMode = r.overlapMode
  consume : r'.inConsume = r.inConsume
  inflight : r'.nInflight = r.nInflight
  next : r'.ddrNext = r.ddrNext
  slots : ∀ j, (∀ i, l ≤ i → i < l' → j ≠ i % r.depthIn) →
    r'.inSlots j = r.inSlots j ∧ r'.descDone j = r.descDone j

section Engine

variable {r r' r'' : TileRing T U A} {c l l' l'' m : ℕ}

theorem Landed.refl (r : TileRing T U A) (l : ℕ) : Landed r r l l :=
  ⟨.refl r, rfl, rfl, rfl, rfl, rfl, fun _ _ => ⟨rfl, rfl⟩⟩

theorem Landed.trans (hl : l ≤ l') (hl' : l' ≤ l'') (h : Landed r r' l l')
    (h' : Landed r' r'' l' l'') : Landed r r'' l l'' where
  kept := h.kept.trans h'.kept
  sources := h'.sources.trans h.sources
  overlap := h'.overlap.trans h.overlap
  consume := h'.consume.trans h.consume
  inflight := h'.inflight.trans h.inflight
  next := h'.next.trans h.next
  slots := by
    intro j hj
    obtain ⟨hin, hdone⟩ := h.slots j fun i hi hlt => hj i hi (by omega)
    have hrest : ∀ i, l' ≤ i → i < l'' → j ≠ i % r'.depthIn := by
      intro i hi hlt
      rw [h.kept.depthIn]
      exact hj i (by omega) hlt
    obtain ⟨hin', hdone'⟩ := h'.slots j hrest
    exact ⟨hin'.trans hin, hdone'.trans hdone⟩

theorem Cursor.of_landed (h : Cursor r c m) (hl : Landed r r' l l') : Cursor r' c m := by
  refine ⟨?_, ?_, ?_⟩
  · rw [hl.consume, hl.kept.depthIn]
    exact h.consume
  · rw [hl.next]
    exact h.next
  · rw [hl.inflight]
    exact h.inflight

theorem land_flight (h : Flight r c l m) (hlt : l < m) :
    Flight (land r) c (l + 1) m ∧ Landed r (land r) l (l + 1) := by
  have hlen := h.queue_len
  cases hq : r.queue with
  | nil =>
    rw [hq, List.length_nil] at hlen
    omega
  | cons e rest =>
    obtain ⟨slot, tile⟩ := e
    have hhead := h.queued 0 (by omega)
    rw [hq, List.getElem?_cons_zero, Nat.add_zero] at hhead
    obtain ⟨src, hsrc, he⟩ := Option.map_eq_some_iff.mp hhead.symm
    cases he
    rw [hq, List.length_cons] at hlen
    have hland : land r = { r with
        inSlots := Function.update r.inSlots (l % r.depthIn) (some tile)
        descDone := Function.update r.descDone (l % r.depthIn) true
        queue := rest } := by
      unfold land
      rw [hq]
    have hwindow := h.window
    have hother : ∀ i, c ≤ i → i < m → i ≠ l → i % r.depthIn ≠ l % r.depthIn := by
      intro i hi him hne
      have := h.start
      exact slot_ne hne (by omega) (by omega)
    rw [hland]
    refine ⟨⟨h.depth_pos, ?_, ?_, h.window, h.sources, ?_, ?_, ?_⟩, ?_⟩
    · have := h.start
      omega
    · show l + 1 + rest.length = m
      omega
    · intro i hi
      have hqi := h.queued (i + 1) (by rw [hq]; exact Nat.succ_lt_succ hi)
      rw [hq, List.getElem?_cons_succ] at hqi
      show rest[i]? = r.ddrSources[l + 1 + i]?.map fun t => ((l + 1 + i) % r.depthIn, t)
      rw [hqi, show l + (i + 1) = l + 1 + i by omega]
    · intro i hi hlt'
      show Function.update r.inSlots (l % r.depthIn) (some tile) (i % r.depthIn) = r.ddrSources[i]? ∧
        Function.update r.descDone (l % r.depthIn) true (i % r.depthIn) = true
      by_cases hil : i = l
      · subst hil
        rw [Function.update_self, Function.update_self, hsrc]
        exact ⟨rfl, rfl⟩
      · have hne := hother i hi (by omega) hil
        rw [Function.update_of_ne hne, Function.update_of_ne hne]
        exact h.landed i hi (by omega)
    · intro i hi him
      show Function.update r.descDone (l % r.depthIn) true (i % r.depthIn) = false
      have := h.start
      rw [Function.update_of_ne (hother i (by omega) him (by omega))]
      exact h.waiting i (by omega) him
    · refine ⟨{ Kept.refl r with }, rfl, rfl, rfl, rfl, rfl, ?_⟩
      intro j hj
      have hne := hj l (Nat.le_refl l) (Nat.lt_succ_self l)
      exact ⟨Function.update_of_ne hne _ _, Function.update_of_ne hne _ _⟩

theorem landN_flight (n : ℕ) (h : Flight r c l m) (hn : l + n ≤ m) :
    Flight (landN n r) c (l + n) m ∧ Landed r (landN n r) l (l + n) := by
  induction n generalizing r l with
  | zero => exact ⟨h, .refl r l⟩
  | succ n ih =>
    obtain ⟨hone, hlanded⟩ := land_flight h (by omega)
    obtain ⟨hall, hlanded'⟩ := ih hone (by omega)
    rw [show l + (n + 1) = l + 1 + n by omega]
    exact ⟨hall, hlanded.trans (by omega) (by omega) hlanded'⟩

theorem waitForIdle_spec (h : Flight r c l m) (E : TileRing T U A → Prop) :
    Returns (waitForIdle : RingM T U A Unit) r
      (fun _ r' => Flight r' c m m ∧ Landed r r' l m) E := by
  apply returns_update
  have hlen := h.queue_len
  have hall := landN_flight r.queue.length h (by omega)
  rw [hlen] at hall
  exact hall

theorem spin_spec (h : Flight r c l m) (hc : c < m) (E : TileRing T U A → Prop) :
    Returns (spin (c % r.depthIn) r.queue.length : RingM T U A Unit) r
      (fun _ r' => ∃ l', c < l' ∧ l ≤ l' ∧ Flight r' c l' m ∧ Landed r r' l l') E := by
  by_cases hl : c < l
  · -- it has landed
    have hdone := (h.landed c (Nat.le_refl c) hl).2
    have hspin : spin (c % r.depthIn) r.queue.length r = (.ok (), r) := by
      cases r.queue.length with
      | zero =>
        unfold spin
        rw [read_id_bind, if_pos hdone]
        rfl
      | succ n =>
        unfold spin
        rw [read_id_bind, if_pos hdone]
        rfl
    exact returns_of_eq hspin ⟨l, hl, Nat.le_refl l, h, .refl r l⟩
  · -- it is the first transfer of the queue
    have hcl : l = c := by
      have := h.start
      omega
    subst hcl
    have hlen := h.queue_len
    have hwait := h.waiting l (Nat.le_refl l) hc
    obtain ⟨hone, hlanded⟩ := land_flight h hc
    have hdone := (hone.landed l (Nat.le_refl l) (Nat.lt_succ_self l)).2
    rw [hlanded.kept.depthIn] at hdone
    obtain ⟨n, hn⟩ : ∃ n, r.queue.length = n + 1 := ⟨r.queue.length - 1, by omega⟩
    have hspin : spin (l % r.depthIn) r.queue.length r = (.ok (), land r) := by
      rw [hn]
      unfold spin
      rw [read_id_bind, if_neg (by rw [hwait]; decide)]
      show spin (l % r.depthIn) n (land r) = _
      cases n with
      | zero =>
        unfold spin
        rw [read_id_bind, if_pos hdone]
        rfl
      | succ n =>
        unfold spin
        rw [read_id_bind, if_pos hdone]
        rfl
    exact returns_of_eq hspin ⟨l + 1, by omega, by omega, hone, hlanded⟩

end Engine

/-! ### Pushes and prefetches -/

section Window

variable {r r' : TileRing T U A} {c l m : ℕ}

theorem Flight.push (h : Flight r c l m) (ddr : T) :
    Flight { r with ddrSources := r.ddrSources ++ [ddr] } c l m := by
  have hlen := h.queue_len
  have hsrc := h.sources
  have hsame : ∀ i < m, (r.ddrSources ++ [ddr])[i]? = r.ddrSources[i]? := fun i hi =>
    List.getElem?_append_left (by omega)
  refine ⟨h.depth_pos, h.start, h.queue_len, h.window, ?_, ?_, ?_, h.waiting⟩
  · show m ≤ (r.ddrSources ++ [ddr]).length
    rw [List.length_append]
    omega
  · intro i hi
    show r.queue[i]? = (r.ddrSources ++ [ddr])[l + i]?.map _
    have hilt : i < r.queue.length := hi
    rw [hsame (l + i) (by omega)]
    exact h.queued i hi
  · intro i hi hlt
    show r.inSlots (i % r.depthIn) = (r.ddrSources ++ [ddr])[i]? ∧ _
    rw [hsame i (by omega)]
    exact h.landed i hi hlt

/-- The ring during a call: tiles from `c` on are in the window, and only sources were added. -/
structure Working (r₀ : TileRing T U A) (c : ℕ) (r : TileRing T U A) : Prop where
  flight : ∃ l m, Flight r c l m ∧ Cursor r c m
  kept : Kept r₀ r
  sources : r₀.ddrSources <+: r.ddrSources

theorem growSources_spec {r₀ : TileRing T U A} (ok : Bool) (h : Working r₀ c r) :
    Returns (growSources ok) r (fun _ => Working r₀ c) (Working r₀ c) := by
  unfold growSources
  apply returns_read_bind
  split
  · apply returns_bind (returns_guard _ (Q := fun _ => Working r₀ c) (fun _ => h) fun _ => h)
    intro _ r₁ h₁
    obtain ⟨l, m, hf, hcur⟩ := h₁.flight
    exact returns_update ⟨⟨l, m, { hf with }, { hcur with }⟩, { h₁.kept with }, h₁.sources⟩
  · exact returns_pure h

theorem ringPushDdr_spec {r₀ : TileRing T U A} (ok : Bool) (ddr : T) (h : Working r₀ c r) :
    Returns (ringPushDdr ok ddr) r (fun _ => Working r₀ c) (Working r₀ c) := by
  unfold ringPushDdr
  apply returns_bind (growSources_spec ok h)
  intro _ r₁ h₁
  obtain ⟨l, m, hf, hcur⟩ := h₁.flight
  exact returns_update ⟨⟨l, m, hf.push ddr, { hcur with }⟩, { h₁.kept with },
    h₁.sources.trans (List.prefix_append _ _)⟩

theorem pushAll_spec {r₀ : TileRing T U A} (ok : ℕ → Bool) (i : ℕ) (ts : List T)
    (h : Working r₀ c r) : Returns (pushAll ok i ts) r (fun _ => Working r₀ c) (Working r₀ c) := by
  induction ts generalizing i r with
  | nil => exact returns_pure h
  | cons t ts ih =>
    unfold pushAll
    exact returns_bind (ringPushDdr_spec (ok i) t h) fun _ _ h' => ih (i + 1) h'

theorem Flight.enqueue {slot : ℕ} {tile : T} (h : Flight r c l m) (hslot : slot = m % r.depthIn)
    (hroom : m < c + r.depthIn) (hsrc : r.ddrSources[m]? = some tile)
    (hdone : r.descDone slot = false) :
    Flight { r with queue := r.queue ++ [(slot, tile)] } c l (m + 1) := by
  subst hslot
  have hlen := h.queue_len
  refine ⟨h.depth_pos, h.start, ?_, hroom, ?_, ?_, h.landed, ?_⟩
  · show l + (r.queue ++ [(m % r.depthIn, tile)]).length = m + 1
    rw [List.length_append, List.length_singleton]
    omega
  · exact (List.getElem?_eq_some_iff.mp hsrc).1
  · intro i hi
    show (r.queue ++ [(m % r.depthIn, tile)])[i]? = _
    have hlt : i < r.queue.length + 1 := by
      rw [← List.length_singleton, ← List.length_append]
      exact hi
    by_cases hi' : i < r.queue.length
    · rw [List.getElem?_append_left hi']
      exact h.queued i hi'
    · have hlast : i = r.queue.length := by omega
      rw [hlast, List.getElem?_concat_length, hlen]
      show _ = r.ddrSources[m]?.map _
      rw [hsrc]
      rfl
  · intro i hi hlt
    show r.descDone (i % r.depthIn) = false
    by_cases him : i = m
    · rw [him]
      exact hdone
    · exact h.waiting i hi (by omega)

theorem Flight.reinit (h : Flight r c l m) (hroom : m < c + r.depthIn) (next : ℕ) :
    Flight { r with
      ddrNext := next
      descDone := Function.update r.descDone (m % r.depthIn) false } c l m := by
  have hlen := h.queue_len
  have hstart := h.start
  refine ⟨h.depth_pos, h.start, h.queue_len, h.window, h.sources, h.queued, ?_, ?_⟩
  · intro i hi hlt
    obtain ⟨hin, hdone⟩ := h.landed i hi hlt
    refine ⟨hin, ?_⟩
    show Function.update r.descDone (m % r.depthIn) false (i % r.depthIn) = true
    rw [Function.update_of_ne (slot_ne (by omega) (by omega) (by omega))]
    exact hdone
  · intro i hi hlt
    show Function.update r.descDone (m % r.depthIn) false (i % r.depthIn) = false
    rw [Function.update_of_ne (slot_ne (by omega) (by omega) (by omega))]
    exact h.waiting i hi hlt

theorem waitUnlessOverlap_spec (h : Flight r c l m) (E : TileRing T U A → Prop) :
    Returns (waitUnlessOverlap : RingM T U A Unit) r
      (fun _ r' => ∃ l', Flight r' c l' m ∧ Landed r r' l m) E := by
  unfold waitUnlessOverlap
  apply returns_read_bind
  split
  · exact returns_pure ⟨l, h, .refl _, rfl, rfl, rfl, rfl, rfl, fun _ _ => ⟨rfl, rfl⟩⟩
  · exact (waitForIdle_spec h E).mono (fun _ _ hw => ⟨m, hw⟩) fun _ he => he

theorem submit_spec {tile : T} (h : Flight r c l m) (hroom : m < c + r.depthIn)
    (hsrc : r.ddrSources[m]? = some tile) (hdone : r.descDone (m % r.depthIn) = false)
    (E : TileRing T U A → Prop) :
    Returns (submit true (m % r.depthIn) tile) r
      (fun _ r' => Kept r r' ∧ r'.ddrSources = r.ddrSources ∧ r'.inConsume = r.inConsume ∧
        r'.nInflight = r.nInflight ∧ r'.ddrNext = r.ddrNext ∧ ∃ l', Flight r' c l' (m + 1)) E := by
  unfold submit
  apply returns_bind (returns_of_eq (guard_of rfl _ r) rfl (Q := fun _ r' => r = r'))
  rintro _ _ rfl
  apply returns_bind (waitUnlessOverlap_spec h E)
  rintro _ r₁ ⟨l', hf, hl⟩
  apply returns_update
  have hslot : ∀ i, l ≤ i → i < m → m % r.depthIn ≠ i % r.depthIn := by
    intro i hi hlt
    have := h.start
    exact slot_ne (by omega) (by omega) (by omega)
  have hnew := hf.enqueue (by rw [hl.kept.depthIn]) (by rw [hl.kept.depthIn]; exact hroom)
    (by rw [hl.sources]; exact hsrc) ((hl.slots _ hslot).2.trans hdone)
  exact ⟨{ hl.kept with }, hl.sources, hl.consume, hl.inflight, hl.next, l', hnew⟩

theorem prefetchOne_spec {r₀ : TileRing T U A} (h : Working r₀ c r)
    (hroom : r.nInflight < r.depthIn) (hnext : r.ddrNext < r.ddrSources.length)
    (E : TileRing T U A → Prop) :
    Returns (prefetchOne true) r (fun _ => Working r₀ c) E := by
  obtain ⟨l, m, hf, hcur⟩ := h.flight
  have hinflight := hcur.inflight
  have hslot : (r.inConsume + r.nInflight) % r.depthIn = m % r.depthIn := by
    rw [hcur.consume, Nat.mod_add_mod, hinflight]
  have hsrc : r.ddrSources[r.ddrNext]? = some r.ddrSources[r.ddrNext] :=
    List.getElem?_eq_getElem hnext
  have hsrcm : r.ddrSources[m]? = some r.ddrSources[r.ddrNext] := hcur.next ▸ hsrc
  have hinit := hf.reinit (by omega) (r.ddrNext + 1)
  unfold prefetchOne
  apply returns_read_bind
  simp only [hsrc, hslot]
  apply returns_bind (returns_update (Q := fun _ r' => { r with
    ddrNext := r.ddrNext + 1
    descDone := Function.update r.descDone (m % r.depthIn) false } = r') rfl)
  rintro _ _ rfl
  apply returns_bind (submit_spec hinit (show m < c + r.depthIn by omega) hsrcm
    (Function.update_self _ _ _) E)
  rintro _ r₂ ⟨hkept, hsources, hconsume, hn, hnx, l', hf₂⟩
  apply returns_update
  refine ⟨⟨l', m + 1, { hf₂ with }, ?_, ?_, ?_⟩, ?_, ?_⟩
  · show r₂.inConsume = c % r₂.depthIn
    rw [hconsume, hkept.depthIn]
    exact hcur.consume
  · show r₂.ddrNext = m + 1
    rw [hnx, ← hcur.next]
  · show c + (r₂.nInflight + 1) = m + 1
    rw [hn]
    show c + (r.nInflight + 1) = m + 1
    omega
  · have hsame : Kept r r₂ := { hkept with }
    exact { h.kept.trans hsame with }
  · show r₀.ddrSources <+: r₂.ddrSources
    rw [hsources]
    exact h.sources

theorem submitLoop_spec {r₀ : TileRing T U A} {ok : ℕ → Bool} (hok : ∀ i, ok i = true) (n i : ℕ)
    (h : Working r₀ c r) (E : TileRing T U A → Prop) :
    Returns (submitLoop ok n i) r (fun _ => Working r₀ c) E := by
  induction n generalizing r i with
  | zero => exact returns_pure h
  | succ n ih =>
    unfold submitLoop
    apply returns_read_bind
    split
    · rename_i hroom
      rw [hok i]
      exact returns_bind (prefetchOne_spec h hroom.1 hroom.2 E) fun _ _ h' => ih (i + 1) h'
    · exact returns_pure h

theorem ringTrySubmitPrefetch_spec {r₀ : TileRing T U A} {ok : ℕ → Bool} (hok : ∀ i, ok i = true)
    (h : Working r₀ c r) (E : TileRing T U A → Prop) :
    Returns (ringTrySubmitPrefetch ok) r (fun _ => Working r₀ c) E := by
  unfold ringTrySubmitPrefetch
  exact returns_read_bind (submitLoop_spec hok _ 0 h E)

end Window

/-! ### Calls -/

/-- The output slots: what was handed over was moved, and the pending move-back is what the caller
has left. -/
structure Outs (r : TileRing T U A) : Prop where
  moved : r.moved = r.handed
  pending : ∀ o a, r.pendingMb = some (o, a) →
    r.curOut = some o ∧ r.left = some (a, r.outSlots o)
  noPending : r.pendingMb = none → r.left = none

/-- The state between calls. -/
structure Inv (r : TileRing T U A) : Prop where
  flight : ∃ l m, Flight r r.returned.length l m ∧ Cursor r r.returned.length m
  cur : ∀ s, r.curIn = some s → 0 < r.returned.length ∧ r.nInflight < r.depthIn ∧
    s = (r.returned.length - 1) % r.depthIn ∧ r.inSlots s = r.ddrSources[r.returned.length - 1]?
  delivered : ∀ k < r.returned.length, r.returned[k]?.map Prod.snd = some r.ddrSources[k]?
  outs : Outs r

section Calls

variable {r r' r₀ : TileRing T U A} {c : ℕ}

theorem Outs.of_kept (h : Outs r) (hk : Kept r r') : Outs r' := by
  refine ⟨?_, ?_, ?_⟩
  · rw [hk.moved, hk.handed]
    exact h.moved
  · rw [hk.pendingMb, hk.curOut, hk.left, hk.outSlots]
    exact h.pending
  · rw [hk.pendingMb, hk.left]
    exact h.noPending

theorem getElem?_of_pushed {l l' : List T} (h : l <+: l') {i : ℕ} (hi : i < l.length) :
    l'[i]? = l[i]? := by
  obtain ⟨t, rfl⟩ := h
  exact List.getElem?_append_left hi

theorem Inv.length_returned_le (h : Inv r) : r.returned.length ≤ r.ddrSources.length := by
  obtain ⟨l, m, hf, -⟩ := h.flight
  have := hf.start
  have := hf.queue_len
  have := hf.sources
  omega

theorem Inv.working (h : Inv r) :
    Working { r with curIn := none } r.returned.length { r with curIn := none } := by
  obtain ⟨l, m, hf, hcur⟩ := h.flight
  exact ⟨⟨l, m, { hf with }, { hcur with }⟩, .refl _, List.prefix_refl _⟩

theorem Inv.of_working (h : Inv r)
    (hw : Working { r with curIn := none } r.returned.length r') : Inv r' := by
  have hle := h.length_returned_le
  have hret : r'.returned = r.returned := hw.kept.returned
  refine ⟨?_, ?_, ?_, ?_⟩
  · rw [hret]
    exact hw.flight
  · intro s hs
    rw [hw.kept.curIn] at hs
    cases hs
  · intro k hk
    rw [hret] at hk ⊢
    rw [getElem?_of_pushed hw.sources (show k < r.ddrSources.length by omega)]
    exact h.delivered k hk
  · have houts : Outs { r with curIn := none } := { h.outs with }
    exact houts.of_kept hw.kept

theorem ringPrime_spec {env : CallEnv} (hsubmit : ∀ i, env.submit i = true) (tiles : List T)
    (h : Inv r) : Returns (ringPrime env tiles) r (fun _ => Inv) Inv := by
  have hend := fun r' (hw : Working { r with curIn := none } r.returned.length r') =>
    h.of_working hw
  unfold ringPrime beginCall
  apply returns_bind (returns_update h.working (Q := fun _ =>
    Working { r with curIn := none } r.returned.length))
  intro _ r₁ h₁
  apply returns_bind ((pushAll_spec env.realloc 0 tiles h₁).mono (fun _ _ hw => hw) hend)
  intro _ r₂ h₂
  exact (ringTrySubmitPrefetch_spec hsubmit h₂ Inv).mono (fun _ => hend) fun _ he => he

/-- The move-back of a call, if it does not end with an error after it was started: the pending
entry is moved, and nothing else changes but what lands. -/
theorem submitPending_spec {l m : ℕ} {outcome : Xfer} (hlate : outcome ≠ .lateError)
    (hf : Flight r c l m) (ho : Outs r) {E : TileRing T U A → Prop} (he : E r) :
    Returns (submitPending outcome) r
      (fun _ r' => ∃ l', l ≤ l' ∧ Flight r' c l' m ∧ r'.depthIn = r.depthIn ∧
        r'.ddrSources = r.ddrSources ∧ r'.inConsume = r.inConsume ∧ r'.nInflight = r.nInflight ∧
        r'.ddrNext = r.ddrNext ∧ r'.returned = r.returned ∧ r'.outSlots = r.outSlots ∧
        r'.left = r.left ∧ r'.handed = r.handed ∧
        r'.moved = r.handed ++ r.left.toList) E := by
  unfold submitPending
  apply returns_read_bind
  cases hp : r.pendingMb with
  | none =>
    apply returns_pure
    refine ⟨l, Nat.le_refl l, hf, rfl, rfl, rfl, rfl, rfl, rfl, rfl, rfl, rfl, ?_⟩
    rw [ho.noPending hp, ho.moved]
    simp
  | some p =>
    obtain ⟨o, a⟩ := p
    obtain ⟨-, hleft⟩ := ho.pending o a hp
    simp only
    unfold ringSubmitMoveback
    cases outcome with
    | refused e => exact returns_reject e he
    | lateError => exact absurd rfl hlate
    | done =>
      apply returns_bind (waitForIdle_spec hf E)
      rintro _ r₁ ⟨hf₁, hl₁⟩
      apply returns_update
      have hlm := hf.queue_len
      refine ⟨m, by omega, { hf₁ with }, hl₁.kept.depthIn, hl₁.sources, hl₁.consume, hl₁.inflight,
        hl₁.next, hl₁.kept.returned, hl₁.kept.outSlots, hl₁.kept.left, hl₁.kept.handed, ?_⟩
      show r₁.moved ++ [(a, r₁.outSlots o)] = r.handed ++ r.left.toList
      rw [hl₁.kept.moved, hl₁.kept.outSlots, ho.moved, hleft]
      rfl

theorem mod_succ_mod (c d : ℕ) : (c % d + 1) % d = (c + 1) % d := Nat.mod_add_mod c d 1

theorem giveOut_spec {l m : ℕ} (hinv : Inv r₀) (hc : c = r₀.returned.length)
    (hf : Flight r c l m) (hcl : c < l) (hcursor : Cursor r c m)
    (hsources : r₀.ddrSources <+: r.ddrSources) (hreturned : r.returned = r₀.returned)
    (hmoved : r.moved = r.handed ++ r.left.toList) (outSlot : ℕ) (target : Option A)
    (E : TileRing T U A → Prop) :
    Returns (giveOut (c % r.depthIn) outSlot target) r (fun _ => Inv) E := by
  have hlen := hf.queue_len
  have hwindow := hf.window
  have hsrc := hf.sources
  have hinflight := hcursor.inflight
  have hle := hinv.length_returned_le
  obtain ⟨hin, -⟩ := hf.landed c (Nat.le_refl c) hcl
  have hret : (r.returned ++ [(c % r.depthIn, r.inSlots (c % r.depthIn))]).length = c + 1 := by
    rw [List.length_append, List.length_singleton, hreturned, hc]
  unfold giveOut
  apply returns_update
  refine ⟨⟨l, m, ?_, ?_⟩, ?_, ?_, ?_, ?_, ?_⟩
  · show Flight _ (r.returned ++ [(c % r.depthIn, r.inSlots (c % r.depthIn))]).length l m
    rw [hret]
    exact ⟨hf.depth_pos, hcl, hlen, by show m ≤ c + 1 + r.depthIn; omega, hsrc, hf.queued,
      fun i hi hlt => hf.landed i (by omega) hlt, hf.waiting⟩
  · show Cursor _ (r.returned ++ [(c % r.depthIn, r.inSlots (c % r.depthIn))]).length m
    rw [hret]
    refine ⟨?_, hcursor.next, ?_⟩
    · show (r.inConsume + 1) % r.depthIn = (c + 1) % r.depthIn
      rw [hcursor.consume, mod_succ_mod]
    · show c + 1 + (r.nInflight - 1) = m
      omega
  · intro s hs
    cases hs
    show 0 < (r.returned ++ [(c % r.depthIn, r.inSlots (c % r.depthIn))]).length ∧
      r.nInflight - 1 < r.depthIn ∧
      c % r.depthIn =
        ((r.returned ++ [(c % r.depthIn, r.inSlots (c % r.depthIn))]).length - 1) % r.depthIn ∧
      r.inSlots (c % r.depthIn) =
        r.ddrSources[(r.returned ++ [(c % r.depthIn, r.inSlots (c % r.depthIn))]).length - 1]?
    rw [hret]
    have := hf.depth_pos
    exact ⟨by omega, by omega, rfl, hin⟩
  · intro k hk
    show (r.returned ++ [(c % r.depthIn, r.inSlots (c % r.depthIn))])[k]?.map Prod.snd =
      some r.ddrSources[k]?
    have hk' : k < c + 1 := hret ▸ hk
    by_cases hkc : k < c
    · rw [List.getElem?_append_left (by rw [hreturned]; omega), hreturned,
        hinv.delivered k (by omega), getElem?_of_pushed hsources (by omega)]
    · have hlast : k = r.returned.length := by
        rw [hreturned]
        omega
      rw [hlast, List.getElem?_concat_length, hreturned, ← hc, ← hin]
      rfl
  · exact hmoved
  · intro o a hp
    cases target with
    | none => cases hp
    | some b =>
      cases hp
      exact ⟨rfl, rfl⟩
  · intro hp
    cases target with
    | none => rfl
    | some b => cases hp

theorem ringNext_spec {env : CallEnv} (hsubmit : ∀ i, env.submit i = true)
    (hlate : env.moveback ≠ .lateError) (t : Option T) (a : Option A) (h : Inv r) :
    Returns (ringNext env t a) r (fun _ => Inv) Inv := by
  have hend := fun r' (hw : Working { r with curIn := none } r.returned.length r') =>
    h.of_working hw
  unfold ringNext beginCall
  apply returns_bind (returns_update h.working (Q := fun _ =>
    Working { r with curIn := none } r.returned.length))
  intro _ r₁ h₁
  apply returns_bind ((pushAll_spec env.realloc 0 t.toList h₁).mono (fun _ _ hw => hw) hend)
  intro _ r₂ h₂
  apply returns_bind (ringTrySubmitPrefetch_spec hsubmit h₂ Inv)
  intro _ r₃ h₃
  apply returns_read_bind
  apply returns_bind (Q := fun _ s => r₃ = s ∧ r₃.nInflight ≠ 0)
  · exact returns_guard _ (fun hn => ⟨rfl, hn⟩) fun _ => hend r₃ h₃
  rintro _ _ ⟨rfl, hn⟩
  obtain ⟨l, m, hf, hcursor⟩ := h₃.flight
  have hinflight := hcursor.inflight
  rw [hcursor.consume]
  apply returns_bind (spin_spec hf (by omega) Inv)
  rintro _ r₄ ⟨l₄, hcl, hll, hf₄, hl₄⟩
  have hcur₄ := hcursor.of_landed hl₄
  have hkept₄ := h₃.kept.trans hl₄.kept
  have hw₄ : Working { r with curIn := none } r.returned.length r₄ :=
    ⟨⟨l₄, m, hf₄, hcur₄⟩, hkept₄, hl₄.sources ▸ h₃.sources⟩
  have houts₄ : Outs r₄ := (h.of_working hw₄).outs
  apply returns_bind (submitPending_spec hlate hf₄ houts₄ (hend r₄ hw₄))
  rintro _ r₅ ⟨l₅, hll₅, hf₅, hd₅, hs₅, hc₅, hn₅, hnx₅, hr₅, ho₅, hleft₅, hh₅, hm₅⟩
  have hcur₅ : Cursor r₅ r.returned.length m := by
    refine ⟨?_, hnx₅.trans hcur₄.next, hn₅ ▸ hcur₄.inflight⟩
    rw [hc₅, hd₅]
    exact hcur₄.consume
  rw [← hl₄.kept.depthIn, ← hd₅]
  apply giveOut_spec h rfl hf₅ (by omega) hcur₅ ?_ (hr₅.trans hkept₄.returned) ?_
  · rw [hs₅]
    exact hw₄.sources
  · rw [hm₅, hh₅, hleft₅]

theorem Inv.cur_ne (h : Inv r) {l m s i : ℕ} (hf : Flight r r.returned.length l m)
    (hcursor : Cursor r r.returned.length m) (hs : r.curIn = some s) (hi : l ≤ i) (him : i < m) :
    s ≠ i % r.depthIn := by
  obtain ⟨hpos, hroom, hslot, -⟩ := h.cur s hs
  have hstart := hf.start
  have hinflight := hcursor.inflight
  rw [hslot]
  exact slot_ne (by omega) (by omega) (by omega)

theorem Inv.of_landed (h : Inv r) {l l' m : ℕ} (hf : Flight r r.returned.length l m)
    (hcursor : Cursor r r.returned.length m) (hf' : Flight r' r.returned.length l' m)
    (hl : Landed r r' l l') : Inv r' := by
  have hret := hl.kept.returned
  have hlen' := hf'.queue_len
  refine ⟨⟨l', m, hret ▸ hf', hret ▸ hcursor.of_landed hl⟩, ?_, ?_, h.outs.of_kept hl.kept⟩
  · intro s hs
    rw [hl.kept.curIn] at hs
    rw [hret, hl.inflight, hl.kept.depthIn, hl.sources,
      (hl.slots s fun i hi hlt => h.cur_ne hf hcursor hs hi (by omega)).1]
    exact h.cur s hs
  · rw [hret, hl.sources]
    exact h.delivered

theorem ringSetOverlap_spec (enable : Bool) (h : Inv r) :
    Returns (ringSetOverlap enable) r (fun _ => Inv) Inv := by
  obtain ⟨l, m, hf, hcursor⟩ := h.flight
  unfold ringSetOverlap
  apply returns_bind (waitForIdle_spec hf Inv)
  rintro _ r₁ ⟨hf₁, hl₁⟩
  have h₁ := h.of_landed hf hcursor hf₁ hl₁
  obtain ⟨l₁, m₁, hf₁', hcursor₁⟩ := h₁.flight
  exact returns_update ⟨⟨l₁, m₁, { hf₁' with }, { hcursor₁ with }⟩, h₁.cur, h₁.delivered,
    { h₁.outs with }⟩

theorem land_inv (h : Inv r) : Inv (land r) := by
  obtain ⟨l, m, hf, hcursor⟩ := h.flight
  by_cases hlt : l < m
  · obtain ⟨hf', hl⟩ := land_flight hf hlt
    exact h.of_landed hf hcursor hf' hl
  · have hlen := hf.queue_len
    have hnil : r.queue = [] := List.eq_nil_of_length_eq_zero (by omega)
    unfold land
    rw [hnil]
    exact h

theorem callerWrite_inv (u : U) (h : Inv r) : Inv (callerWrite u r) := by
  obtain ⟨l, m, hf, hcursor⟩ := h.flight
  unfold callerWrite
  cases hout : r.curOut with
  | none => exact h
  | some o =>
    refine ⟨⟨l, m, { hf with }, { hcursor with }⟩, h.cur, h.delivered, h.outs.moved, ?_, ?_⟩
    · intro o' a hp
      obtain ⟨hcur, hleft⟩ := h.outs.pending o' a hp
      rw [hout] at hcur
      cases hcur
      refine ⟨rfl, ?_⟩
      show r.left.map (fun e => (e.1, u)) = some (a, Function.update r.outSlots o u o)
      rw [hleft, Function.update_self]
      rfl
    · intro hp
      show r.left.map (fun e => (e.1, u)) = none
      rw [h.outs.noPending hp]
      rfl

theorem drainLoop_spec {n m : ℕ} (hn : c + n = m) (h : ∃ l, Flight r c l m)
    (hcursor : Cursor r c m) (E : TileRing T U A → Prop) :
    Returns (drainLoop n) r
      (fun _ r' => Kept r r' ∧ ∃ l, Flight r' m l m) E := by
  induction n generalizing r c with
  | zero =>
    rw [Nat.add_zero] at hn
    exact returns_pure ⟨.refl r, hn ▸ h⟩
  | succ n ih =>
    obtain ⟨l, hf⟩ := h
    unfold drainLoop
    apply returns_read_bind
    rw [hcursor.consume]
    apply returns_bind (spin_spec hf (by omega) E)
    rintro _ r₁ ⟨l₁, hcl, -, hf₁, hl₁⟩
    have hcur₁ := hcursor.of_landed hl₁
    apply returns_bind (returns_update rfl (Q := fun _ s => { r₁ with
      inConsume := (r₁.inConsume + 1) % r₁.depthIn
      nInflight := r₁.nInflight - 1 } = s))
    rintro _ _ rfl
    have hwindow := hf₁.window
    have hinflight := hcur₁.inflight
    have hnext : Flight { r₁ with
        inConsume := (r₁.inConsume + 1) % r₁.depthIn
        nInflight := r₁.nInflight - 1 } (c + 1) l₁ m :=
      ⟨hf₁.depth_pos, hcl, hf₁.queue_len, by show m ≤ c + 1 + r₁.depthIn; omega, hf₁.sources,
        hf₁.queued, fun i hi hlt => hf₁.landed i (by omega) hlt, hf₁.waiting⟩
    have hcursor' : Cursor { r₁ with
        inConsume := (r₁.inConsume + 1) % r₁.depthIn
        nInflight := r₁.nInflight - 1 } (c + 1) m := by
      refine ⟨?_, hcur₁.next, ?_⟩
      · show (r₁.inConsume + 1) % r₁.depthIn = (c + 1) % r₁.depthIn
        rw [hcur₁.consume, mod_succ_mod]
      · show c + 1 + (r₁.nInflight - 1) = m
        omega
    apply (ih (by omega) ⟨l₁, hnext⟩ hcursor').mono ?_ fun _ he => he
    rintro _ r₂ ⟨hkept, hf₂⟩
    have hkept₁ : Kept r₁ r₂ := { hkept with }
    exact ⟨hl₁.kept.trans hkept₁, hf₂⟩

theorem ringDrain_spec {outcome : Xfer} (hlate : outcome ≠ .lateError) (h : Inv r) :
    Returns (ringDrain outcome) r
      (fun _ r' => r'.moved = r.handed ++ r.left.toList)
      (fun r' => r'.moved = r.handed) := by
  obtain ⟨l, m, hf, hcursor⟩ := h.flight
  unfold ringDrain beginCall
  apply returns_bind (returns_update rfl (Q := fun _ s => { r with curIn := none } = s))
  rintro _ _ rfl
  apply returns_read_bind
  have hf₀ : Flight { r with curIn := none } r.returned.length l m := { hf with }
  have hcursor₀ : Cursor { r with curIn := none } r.returned.length m := { hcursor with }
  apply returns_bind (drainLoop_spec hcursor.inflight ⟨l, hf₀⟩ hcursor₀ _)
  rintro _ r₁ ⟨hkept, l₁, hf₁⟩
  have houts : Outs { r with curIn := none } := { h.outs with }
  have hmoved : r₁.moved = r.handed := hkept.moved.trans h.outs.moved
  apply returns_bind (submitPending_spec hlate hf₁ (houts.of_kept hkept) hmoved)
  rintro _ r₂ ⟨l₂, -, hf₂, -, -, -, -, -, -, -, hleft₂, hh₂, hm₂⟩
  apply returns_bind (returns_update rfl (Q := fun _ s => { r₂ with
    pendingMb := none, left := none, handed := r₂.handed ++ r₂.left.toList } = s))
  rintro _ _ rfl
  have hf₃ : Flight { r₂ with
      pendingMb := none, left := none, handed := r₂.handed ++ r₂.left.toList } m l₂ m :=
    { hf₂ with }
  apply (waitForIdle_spec hf₃ _).mono ?_ fun _ he => he
  rintro _ r₃ ⟨-, hl₃⟩
  rw [hl₃.kept.moved]
  show r₂.moved = r.handed ++ r.left.toList
  rw [hm₂, hkept.handed, hkept.left]

end Calls

/-! ### Runs -/

/-- No submit of a prefetch fails, and no move-back ends with an error after it was started. -/
def Clean : Action T U A → Prop
  | .prime env _ => ∀ i, env.submit i = true
  | .next env _ _ => (∀ i, env.submit i = true) ∧ env.moveback ≠ .lateError
  | _ => True

theorem depthOr4_pos (d : ℕ) : 0 < depthOr4 d := by
  unfold depthOr4
  split <;> omega

theorem inv_init (d e : ℕ) (garbage : U) : Inv (ringInit d e garbage : TileRing T U A) := by
  refine ⟨⟨0, 0, ⟨depthOr4_pos d, Nat.le_refl 0, rfl, Nat.zero_le _, Nat.zero_le _, ?_, ?_, ?_⟩,
    ⟨?_, rfl, rfl⟩⟩, ?_, ?_, rfl, ?_, fun _ => rfl⟩
  · intro i hi
    cases hi
  · intro i _ hi
    cases hi
  · intro i _ hi
    cases hi
  · exact (Nat.zero_mod _).symm
  · intro s hs
    cases hs
  · intro k hk
    cases hk
  · intro o a hp
    cases hp

theorem after_of_returns {m : RingM T U A Unit} {r : TileRing T U A}
    {I : TileRing T U A → Prop} (h : Returns m r (fun _ => I) I) :
    ∃ r', after m r = some r' ∧ I r' := by
  unfold after
  cases h with
  | inl hok =>
    obtain ⟨a, r', hm, hi⟩ := hok
    exact ⟨r', by rw [hm], hi⟩
  | inr herr =>
    obtain ⟨e, r', hm, hi⟩ := herr
    exact ⟨r', by rw [hm], hi⟩

theorem step_inv (a : Action T U A) (r : TileRing T U A) (ha : Clean a) (h : Inv r) :
    ∃ r', step a r = some r' ∧ Inv r' := by
  cases a with
  | prime env tiles => exact after_of_returns (ringPrime_spec ha tiles h)
  | next env t a => exact after_of_returns (ringNext_spec ha.1 ha.2 t a h)
  | setOverlap enable => exact after_of_returns (ringSetOverlap_spec enable h)
  | write u => exact ⟨_, rfl, callerWrite_inv u h⟩
  | engine => exact ⟨_, rfl, land_inv h⟩

def allGood : CallEnv := ⟨fun _ => true, fun _ => true, .done⟩

def submitFails : CallEnv := ⟨fun _ => true, fun _ => false, .done⟩

/-- Three tiles in a ring of two input slots and one output slot. -/
def threeTiles : List (Action ℕ ℕ ℕ) :=
  [.prime allGood [7, 8, 9], .next allGood none (some 50), .write 1, .next allGood none (some 51),
    .write 2, .next allGood none none]

theorem threeTiles_clean : ∀ a ∈ threeTiles, Clean a := by
  intro a ha
  simp only [threeTiles, List.mem_cons, List.not_mem_nil, or_false] at ha
  obtain rfl | rfl | rfl | rfl | rfl | rfl := ha
  · exact fun _ => rfl
  · exact ⟨fun _ => rfl, fun h => by cases h⟩
  · trivial
  · exact ⟨fun _ => rfl, fun h => by cases h⟩
  · trivial
  · exact ⟨fun _ => rfl, fun h => by cases h⟩

end Gehtp.Analysis.WtcacheOrder
