import Gehtp.Model.BufferLedger

/-!
# What the buffer ledger remembers

The ledger keeps one record for each row, the history all calls that were accepted. The record tells
the latest write, canary or release of the row, the current expectation, and whether a write has not
been looked at since: that is all the history that the verdict and the count of double writes depend
on. A canary or a release makes an unread write harmless, so the write after it is not counted.
-/

set_option autoImplicit false

namespace Gehtp.Analysis.LedgerHistory

open Model.BufferLedger

/-! ### Histories -/

section History

/-- What happened to the rows. -/
inductive Event where
  | wrote (slot row : ℕ) (writer qtag : UInt16)
  | canaried (slot : ℕ)
  | released (slot : ℕ)
  | expected (slot row : ℕ) (writer qtag : UInt16)
  | verified (slot row : ℕ)
  deriving DecidableEq, Repr

/-- The latest write, canary or release of a row. -/
inductive Last where
  | wrote (writer qtag : UInt16)
  | canaried
  | released
  deriving DecidableEq, Repr

/-- What an event says about the content of a row. -/
def Event.last (slot row : ℕ) : Event → Option Last
  | .wrote s r writer qtag => if s = slot ∧ r = row then some (.wrote writer qtag) else none
  | .canaried s => if s = slot then some .canaried else none
  | .released s => if s = slot then some .released else none
  | _ => none

/-- What an event says about the expectation of a row. -/
def Event.expectation (slot row : ℕ) : Event → Option (UInt16 × UInt16)
  | .expected s r writer qtag => if s = slot ∧ r = row then some (writer, qtag) else none
  | _ => none

/-- What an event says about whether a write of the row is still unread. -/
def Event.unread (slot row : ℕ) : Event → Option (Option UInt16)
  | .wrote s r writer _ => if s = slot ∧ r = row then some (some writer) else none
  | .canaried s => if s = slot then some none else none
  | .released s => if s = slot then some none else none
  | .verified s r => if s = slot ∧ r = row then some none else none
  | _ => none

/-- The same if only a check ends it. -/
def Event.unverified (slot row : ℕ) : Event → Option (Option UInt16)
  | .wrote s r writer _ => if s = slot ∧ r = row then some (some writer) else none
  | .verified s r => if s = slot ∧ r = row then some none else none
  | _ => none

/-- The latest write, canary or release of a row; histories have the newest event in front. -/
def latest (es : List Event) (slot row : ℕ) : Option Last := es.findSome? (Event.last slot row)

/-- The current expectation of a row. -/
def expectation (es : List Event) (slot row : ℕ) : Option (UInt16 × UInt16) :=
  es.findSome? (Event.expectation slot row)

/-- The writer of a row that was neither checked nor filled nor given back since. -/
def unread (es : List Event) (slot row : ℕ) : Option UInt16 :=
  (es.findSome? (Event.unread slot row)).join

/-- The writer of a row that was not checked since. -/
def unverified (es : List Event) (slot row : ℕ) : Option UInt16 :=
  (es.findSome? (Event.unverified slot row)).join

/-- A write of a row that has a different writer by then. -/
def doubleWrite (writerOf : List Event → ℕ → ℕ → Option UInt16) (es : List Event) : Event → Bool
  | .wrote slot row writer _ => (writerOf es slot row).any (· ≠ writer)
  | _ => false

/-- The number of writes of rows that had a different writer by then. -/
def doubleWrites (writerOf : List Event → ℕ → ℕ → Option UInt16) : List Event → ℕ
  | [] => 0
  | e :: es => (if doubleWrite writerOf es e then 1 else 0) + doubleWrites writerOf es

/-- A write matches an expectation: writer and tag are the expected ones; 0 stands for any writer that
is expected, and for any tag on either side. SOURCE: bledger.h:38-39 -/
def Matches (exp : Option (UInt16 × UInt16)) (writer qtag : UInt16) : Prop :=
  ∀ e, exp = some e → (e.1 = blAnyWriter ∨ writer = e.1) ∧
    (e.2 = blNoQtag ∨ qtag = blNoQtag ∨ qtag = e.2)

/-- The latest write of a row has a tag, unless no tag is expected. -/
def TagGiven (es : List Event) (slot row : ℕ) : Prop :=
  ∀ writer e, latest es slot row = some (.wrote writer blNoQtag) →
    expectation es slot row = some e → e.2 = blNoQtag

/-- The tests that a write passes in a check. -/
def Tested (exp : Option (UInt16 × UInt16)) (writer qtag : UInt16) : Prop :=
  ∀ e, exp = some e → (e.1 = blAnyWriter ∨ writer = e.1) ∧ (e.2 = blNoQtag ∨ qtag = e.2)

/-- The events of an accepted call, the newest one in front. -/
def eventsOf : Call → List Event
  | .register .. => []
  | .write slot writer row0 nrows qtag =>
    (List.range' row0 nrows).reverse.map fun row => .wrote slot row writer qtag
  | .canary slot => [.canaried slot]
  | .release slot => [.released slot]
  | .expect slot row writerFilter qtag => [.expected slot row writerFilter qtag]
  | .verify slot row => [.verified slot row]

/-- A call on a ledger, with its history kept. -/
def track (s : Bledger × List Event) (c : Call) : Bledger × List Event :=
  ((step c s.1).1, if (step c s.1).2 = .ok then eventsOf c ++ s.2 else s.2)

/-- A ledger and its history after some calls. -/
def runCalls (calls : List Call) : Bledger × List Event := calls.foldl track (blInit, [])

end History

/-! ### One row -/

section Row

variable {es : List Event} {slot row : ℕ} {r : BlRow}

/-- What a record says about the latest write, canary or release. -/
def lastOf (r : BlRow) : Option Last :=
  match r.state with
  | .unwritten => none
  | .canary => some .canaried
  | .released => some .released
  | .written | .read => some (.wrote r.writer r.qtag)

/-- What a record says about the expectation. -/
def expectOf (r : BlRow) : Option (UInt16 × UInt16) :=
  if r.hasExpect then some (r.expWriter, r.expQtag) else none

/-- What a record says about an unread write. -/
def unreadOf (r : BlRow) : Option UInt16 := if r.state = .written then some r.writer else none

/-- The record of a row agrees with the history. -/
structure RowAgrees (es : List Event) (slot row : ℕ) (r : BlRow) : Prop where
  last : latest es slot row = lastOf r
  expect : expectation es slot row = expectOf r
  unread : unread es slot row = unreadOf r

theorem verdict_eq_ok (r : BlRow) : verdict r = .ok ↔
    ∃ writer qtag, lastOf r = some (.wrote writer qtag) ∧ Tested (expectOf r) writer qtag := by
  have hmatch : Tested (expectOf r) r.writer r.qtag ↔
      (if r.hasExpect ∧ r.expWriter ≠ blAnyWriter ∧ r.writer ≠ r.expWriter then BlCode.writer
        else if r.hasExpect ∧ r.expQtag ≠ blNoQtag ∧ r.qtag ≠ r.expQtag then .qtag else .ok) =
          .ok := by
    unfold Tested expectOf
    cases r.hasExpect with
    | false =>
      refine iff_of_true (fun e he => ?_) rfl
      cases he
    | true =>
      simp only [if_true, true_and, Option.some.injEq, forall_eq']
      by_cases hw : r.expWriter ≠ blAnyWriter ∧ r.writer ≠ r.expWriter
      · rw [if_pos hw]
        refine iff_of_false (fun h => ?_) (fun h => by cases h)
        rcases h.1 with hany | heq
        · exact hw.1 hany
        · exact hw.2 heq
      · rw [if_neg hw]
        have hw' : r.expWriter = blAnyWriter ∨ r.writer = r.expWriter := by
          rw [not_and_or, not_not, not_not] at hw
          exact hw
        rw [and_iff_right hw']
        by_cases hq : r.expQtag ≠ blNoQtag ∧ r.qtag ≠ r.expQtag
        · rw [if_pos hq]
          refine iff_of_false (fun h => ?_) (fun h => by cases h)
          rcases h with hany | heq
          · exact hq.1 hany
          · exact hq.2 heq
        · rw [if_neg hq]
          rw [not_and_or, not_not, not_not] at hq
          exact iff_of_true hq rfl
  have hwrote : (∃ writer qtag, some (Last.wrote r.writer r.qtag) = some (.wrote writer qtag) ∧
      Tested (expectOf r) writer qtag) ↔ Tested (expectOf r) r.writer r.qtag := by
    constructor
    · rintro ⟨writer, qtag, heq, h⟩
      cases heq
      exact h
    · exact fun h => ⟨_, _, rfl, h⟩
  have hnot (o : Option Last) (ho : ∀ writer qtag, o ≠ some (.wrote writer qtag)) :
      ¬∃ writer qtag, o = some (.wrote writer qtag) ∧ Tested (expectOf r) writer qtag := by
    rintro ⟨writer, qtag, heq, -⟩
    exact ho writer qtag heq
  unfold verdict lastOf
  cases r.state with
  | unwritten => exact iff_of_false (fun h => by cases h) (hnot _ fun _ _ h => by cases h)
  | written => rw [hwrote, hmatch]
  | read => rw [hwrote, hmatch]
  | canary => exact iff_of_false (fun h => by cases h) (hnot _ fun _ _ h => by cases h)
  | released => exact iff_of_false (fun h => by cases h) (hnot _ fun _ _ h => by cases h)

theorem RowAgrees.cons_other (h : RowAgrees es slot row r) {e : Event}
    (hlast : e.last slot row = none) (hexp : e.expectation slot row = none)
    (hunread : e.unread slot row = none) : RowAgrees (e :: es) slot row r := by
  refine ⟨?_, ?_, ?_⟩
  · rw [latest, List.findSome?_cons, hlast]
    exact h.last
  · rw [expectation, List.findSome?_cons, hexp]
    exact h.expect
  · rw [LedgerHistory.unread, List.findSome?_cons, hunread]
    exact h.unread

theorem RowAgrees.cons_wrote (h : RowAgrees es slot row r) (seq : ℕ) (writer qtag : UInt16) :
    RowAgrees (.wrote slot row writer qtag :: es) slot row (writeRow seq writer qtag r).1 := by
  refine ⟨?_, ?_, ?_⟩
  · rw [latest, List.findSome?_cons]
    simp only [Event.last, and_self, if_true]
    rfl
  · rw [expectation, List.findSome?_cons]
    exact h.expect
  · rw [LedgerHistory.unread, List.findSome?_cons]
    simp only [Event.unread, and_self, if_true]
    rfl

theorem RowAgrees.double (h : RowAgrees es slot row r) (seq : ℕ) (writer qtag : UInt16) :
    (writeRow seq writer qtag r).2 =
      doubleWrite LedgerHistory.unread es (.wrote slot row writer qtag) := by
  unfold writeRow doubleWrite
  simp only
  rw [h.unread, unreadOf]
  by_cases hst : r.state = .written
  · rw [if_pos hst]
    simp [hst]
  · rw [if_neg hst]
    simp [hst]

end Row

/-! ### The whole ledger -/

section Ledger

variable {b : Bledger} {es : List Event} {slot : ℕ}

/-- The ledger agrees with the history. -/
structure Agrees (b : Bledger) (es : List Event) : Prop where
  counted : b.nDoubleWrite = doubleWrites unread es % 2 ^ 32
  known : ∀ slot, (b.buf slot).registered = true → slot < b.nBufs
  rows : ∀ slot row, (b.buf slot).registered = true → row < (b.buf slot).nRows →
    RowAgrees es slot row ((b.buf slot).rows row)
  fresh : ∀ slot row, (b.buf slot).registered = false → RowAgrees es slot row .zero

theorem agrees_init : Agrees blInit [] where
  counted := rfl
  known := fun _ h => absurd h Bool.false_ne_true
  rows := fun _ _ h => absurd h Bool.false_ne_true
  fresh := fun _ _ _ => ⟨rfl, rfl, rfl⟩

theorem doubleWrites_cons {e : Event} (h : doubleWrite unread es e = false) :
    doubleWrites unread (e :: es) = doubleWrites unread es := by
  rw [doubleWrites, h]
  exact Nat.zero_add _

theorem writeRows_spec (seq : ℕ) (writer qtag : UInt16) (n : ℕ) (todo : List ℕ)
    (htodo : ∀ row ∈ todo, row < n) {rows : ℕ → BlRow} {doubles : ℕ}
    (hrows : ∀ row < n, RowAgrees es slot row (rows row))
    (hdoubles : doubles = doubleWrites unread es % 2 ^ 32) :
    (writeRows seq writer qtag todo (rows, doubles)).2 =
        doubleWrites unread (todo.reverse.map (fun row => .wrote slot row writer qtag) ++ es) %
          2 ^ 32 ∧
      ∀ row < n, RowAgrees (todo.reverse.map (fun row => .wrote slot row writer qtag) ++ es) slot row
        ((writeRows seq writer qtag todo (rows, doubles)).1 row) := by
  induction todo generalizing es rows doubles with
  | nil => exact ⟨hdoubles, hrows⟩
  | cons r todo ih =>
    have hr := hrows r (htodo r List.mem_cons_self)
    rw [writeRows, List.reverse_cons, List.map_append, List.append_assoc, List.map_singleton,
      List.singleton_append]
    apply ih fun row hrow => htodo row (List.mem_cons_of_mem r hrow)
    · intro row hrow
      by_cases heq : row = r
      · rw [heq, Function.update_self]
        exact hr.cons_wrote seq writer qtag
      · rw [Function.update_of_ne heq]
        apply (hrows row hrow).cons_other
        · exact if_neg fun hand => heq hand.2.symm
        · rfl
        · exact if_neg fun hand => heq hand.2.symm
    · rw [hr.double seq writer qtag, doubleWrites]
      unfold inc
      split
      · rw [hdoubles]
        omega
      · rw [hdoubles, Nat.zero_add]

theorem RowAgrees.append_other {row : ℕ} {r : BlRow} (h : RowAgrees es slot row r)
    {evs : List Event} (hevs : ∀ e ∈ evs, e.last slot row = none ∧ e.expectation slot row = none ∧
      e.unread slot row = none) : RowAgrees (evs ++ es) slot row r := by
  induction evs with
  | nil => exact h
  | cons e evs ih =>
    obtain ⟨hlast, hexp, hunread⟩ := hevs e List.mem_cons_self
    exact (ih fun e' he' => hevs e' (List.mem_cons_of_mem e he')).cons_other hlast hexp hunread

theorem Agrees.set (h : Agrees b es) {f : BlBuf} (evs : List Event) (seq doubles : ℕ)
    (hreg : (b.buf slot).registered = true) (hf : f.registered = true)
    (hn : f.nRows = (b.buf slot).nRows)
    (hcount : doubles = doubleWrites unread (evs ++ es) % 2 ^ 32)
    (hown : ∀ row < f.nRows, RowAgrees (evs ++ es) slot row (f.rows row))
    (hother : ∀ slot' row, slot' ≠ slot → ∀ e ∈ evs, e.last slot' row = none ∧
      e.expectation slot' row = none ∧ e.unread slot' row = none) :
    Agrees { b.set slot f with seq := seq, nDoubleWrite := doubles } (evs ++ es) where
  counted := hcount
  known := fun slot' hreg' => by
    by_cases heq : slot' = slot
    · rw [heq]
      exact h.known slot hreg
    · replace hreg' : (Function.update b.buf slot f slot').registered = true := hreg'
      rw [Function.update_of_ne heq] at hreg'
      exact h.known slot' hreg'
  rows := fun slot' row hreg' hrow => by
    replace hreg' : (Function.update b.buf slot f slot').registered = true := hreg'
    replace hrow : row < (Function.update b.buf slot f slot').nRows := hrow
    show RowAgrees _ _ _ ((Function.update b.buf slot f slot').rows row)
    by_cases heq : slot' = slot
    · subst heq
      rw [Function.update_self] at hrow ⊢
      exact hown row hrow
    · rw [Function.update_of_ne heq] at hreg' hrow ⊢
      exact (h.rows slot' row hreg' hrow).append_other (hother slot' row heq)
  fresh := fun slot' row hreg' => by
    replace hreg' : (Function.update b.buf slot f slot').registered = false := hreg'
    by_cases heq : slot' = slot
    · rw [heq, Function.update_self, hf] at hreg'
      cases hreg'
    · rw [Function.update_of_ne heq] at hreg'
      exact (h.fresh slot' row hreg').append_other (hother slot' row heq)

theorem Agrees.register (h : Agrees b es) {nRows : ℕ} (hreg : (b.buf slot).registered = false) :
    Agrees { b.set slot ⟨true, nRows, fun _ => .zero, 0, 0, 0⟩ with
      nBufs := if b.nBufs < slot + 1 then slot + 1 else b.nBufs } es where
  counted := h.counted
  known := fun slot' hreg' => by
    replace hreg' : (Function.update b.buf slot _ slot').registered = true := hreg'
    show slot' < if b.nBufs < slot + 1 then slot + 1 else b.nBufs
    by_cases heq : slot' = slot
    · split
      · omega
      · omega
    · rw [Function.update_of_ne heq] at hreg'
      have := h.known slot' hreg'
      split
      · omega
      · exact this
  rows := fun slot' row hreg' hrow => by
    replace hreg' : (Function.update b.buf slot _ slot').registered = true := hreg'
    replace hrow : row < (Function.update b.buf slot _ slot').nRows := hrow
    show RowAgrees _ _ _ ((Function.update b.buf slot _ slot').rows row)
    by_cases heq : slot' = slot
    · subst heq
      rw [Function.update_self]
      exact h.fresh slot' row hreg
    · rw [Function.update_of_ne heq] at hreg' hrow ⊢
      exact h.rows slot' row hreg' hrow
  fresh := fun slot' row hreg' => by
    replace hreg' : (Function.update b.buf slot _ slot').registered = false := hreg'
    by_cases heq : slot' = slot
    · rw [heq, Function.update_self] at hreg'
      cases hreg'
    · rw [Function.update_of_ne heq] at hreg'
      exact h.fresh slot' row hreg'

theorem agrees_register (h : Agrees b es) (slot base bytes rowBytes : ℕ) :
    Agrees (blRegister b slot base bytes rowBytes).1 es := by
  unfold blRegister
  split
  · exact h
  · split
    · exact h
    · split
      · exact h
      · split
        · exact h
        · exact h.register (eq_false_of_ne_true ‹_›)

theorem agrees_write (h : Agrees b es) (slot : ℕ) (writer : UInt16) (row0 nrows : ℕ)
    (qtag : UInt16) : Agrees (blWrite b slot writer row0 nrows qtag).1
      (if (blWrite b slot writer row0 nrows qtag).2 = .ok then
        eventsOf (.write slot writer row0 nrows qtag) ++ es else es) := by
  unfold blWrite
  by_cases hany : writer = blAnyWriter
  · rw [if_pos hany]
    exact h
  · rw [if_neg hany]
    by_cases hslot : hasSlot b slot
    · rw [if_neg (not_not.mpr hslot)]
      dsimp only
      by_cases hrange : nrows = 0 ∨ (b.buf slot).nRows ≤ row0 ∨ (b.buf slot).nRows - row0 < nrows
      · rw [if_pos hrange]
        exact h
      · rw [if_neg hrange, if_pos rfl]
        obtain ⟨hcount, hrows⟩ := writeRows_spec (inc b.seq) writer qtag (b.buf slot).nRows
          (List.range' row0 nrows) (fun row hrow => by
            rw [List.mem_range'_1] at hrow
            omega) (fun row hrow => h.rows slot row hslot.2 hrow) h.counted
        refine h.set _ _ _ hslot.2 ?_ rfl hcount hrows ?_
        · exact hslot.2
        intro slot' row hne e he
        obtain ⟨row', -, rfl⟩ := List.mem_map.mp he
        exact ⟨if_neg fun hand => hne hand.1.symm, rfl, if_neg fun hand => hne hand.1.symm⟩
    · rw [if_pos hslot]
      exact h

theorem agrees_fill (h : Agrees b es) (slot : ℕ) (state : BlState) (e : Event) (last : Last)
    (hwhat : ∀ slot' row, e.last slot' row = (if slot = slot' then some last else none) ∧
      e.expectation slot' row = none ∧ e.unread slot' row = if slot = slot' then some none else none)
    (hlast : ∀ r : BlRow, lastOf { r with state := state } = some last) (hstate : state ≠ .written)
    (hdouble : doubleWrite unread es e = false) :
    Agrees (fillRows b slot state).1
      (if (fillRows b slot state).2 = .ok then [e] ++ es else es) := by
  unfold fillRows
  by_cases hslot : hasSlot b slot
  · rw [if_neg (not_not.mpr hslot)]
    dsimp only
    rw [if_pos rfl]
    refine h.set _ b.seq b.nDoubleWrite hslot.2 ?_ rfl ?_ ?_ ?_
    · exact hslot.2
    · rw [List.singleton_append, doubleWrites_cons hdouble]
      exact h.counted
    · intro row hrow
      obtain ⟨hl, he, hu⟩ := hwhat slot row
      have hold := h.rows slot row hslot.2 hrow
      dsimp only at hrow ⊢
      rw [if_pos hrow]
      rw [if_pos rfl] at hl hu
      refine ⟨?_, ?_, ?_⟩
      · rw [List.singleton_append, latest, List.findSome?_cons, hl, hlast]
      · rw [List.singleton_append, expectation, List.findSome?_cons, he]
        exact hold.expect
      · rw [List.singleton_append, unread, List.findSome?_cons, hu, unreadOf, if_neg hstate]
        rfl
    · intro slot' row hne e' he'
      rw [List.mem_singleton] at he'
      subst he'
      obtain ⟨hl, he, hu⟩ := hwhat slot' row
      rw [if_neg (Ne.symm hne)] at hl hu
      exact ⟨hl, he, hu⟩
  · rw [if_pos hslot]
    exact h

theorem agrees_expect (h : Agrees b es) (slot row : ℕ) (writerFilter qtag : UInt16) :
    Agrees (blExpect b slot row writerFilter qtag).1
      (if (blExpect b slot row writerFilter qtag).2 = .ok then
        eventsOf (.expect slot row writerFilter qtag) ++ es else es) := by
  unfold blExpect
  by_cases hslot : hasSlot b slot
  · rw [if_neg (not_not.mpr hslot)]
    dsimp only
    by_cases hrow : (b.buf slot).nRows ≤ row
    · rw [if_pos hrow]
      exact h
    · rw [if_neg hrow, if_pos rfl]
      refine h.set _ b.seq b.nDoubleWrite hslot.2 ?_ rfl ?_ ?_ ?_
      · exact hslot.2
      · rw [eventsOf, List.singleton_append, doubleWrites_cons rfl]
        exact h.counted
      · intro row' hrow'
        have hold := h.rows slot row' hslot.2 hrow'
        dsimp only
        by_cases heq : row' = row
        · subst heq
          rw [Function.update_self]
          refine ⟨hold.last, ?_, hold.unread⟩
          rw [eventsOf, List.singleton_append, expectation, List.findSome?_cons]
          simp only [Event.expectation, and_self, if_true]
          rfl
        · rw [Function.update_of_ne heq]
          exact hold.cons_other rfl (if_neg fun hand => heq hand.2.symm) rfl
      · intro slot' row' hne e he
        rw [eventsOf, List.mem_singleton] at he
        subst he
        exact ⟨rfl, if_neg fun hand => hne hand.1.symm, rfl⟩
  · rw [if_pos hslot]
    exact h

theorem agrees_verify (h : Agrees b es) (slot row : ℕ) : Agrees (blVerify b slot row).1
    (if (blVerify b slot row).2 = .ok then eventsOf (.verify slot row) ++ es else es) := by
  unfold blVerify
  by_cases hslot : hasSlot b slot
  · rw [if_neg (not_not.mpr hslot)]
    dsimp only
    by_cases hrow : (b.buf slot).nRows ≤ row
    · rw [if_pos hrow]
      exact h
    · rw [if_neg hrow]
      have hthis := h.rows slot row hslot.2 (by omega)
      by_cases hok : verdict ((b.buf slot).rows row) = .ok
      · rw [if_neg (not_not.mpr hok), if_pos rfl]
        refine h.set _ b.seq b.nDoubleWrite hslot.2 ?_ rfl ?_ ?_ ?_
        · exact hslot.2
        · rw [eventsOf, List.singleton_append, doubleWrites_cons rfl]
          exact h.counted
        · intro row' hrow'
          have hold := h.rows slot row' hslot.2 hrow'
          dsimp only
          by_cases heq : row' = row
          · subst heq
            rw [Function.update_self]
            -- a row that passes was written, so its record still says what was written
            obtain ⟨writer, tag, hwrote, -⟩ := (verdict_eq_ok _).mp hok
            refine ⟨?_, hold.expect, ?_⟩
            · rw [eventsOf, List.singleton_append, latest, List.findSome?_cons]
              show latest es slot row' = _
              rw [hold.last]
              unfold lastOf at hwrote ⊢
              cases hst : ((b.buf slot).rows row').state with
              | unwritten =>
                rw [hst] at hwrote
                cases hwrote
              | written => rfl
              | read => rfl
              | canary =>
                rw [hst] at hwrote
                cases hwrote
              | released =>
                rw [hst] at hwrote
                cases hwrote
            · rw [eventsOf, List.singleton_append, unread, List.findSome?_cons]
              simp only [Event.unread, and_self, if_true]
              rfl
          · rw [Function.update_of_ne heq]
            exact hold.cons_other rfl rfl (if_neg fun hand => heq hand.2.symm)
        · intro slot' row' hne e he
          rw [eventsOf, List.mem_singleton] at he
          subst he
          exact ⟨rfl, rfl, if_neg fun hand => hne hand.1.symm⟩
      · rw [if_pos hok, if_neg hok]
        exact h.set [] b.seq b.nDoubleWrite hslot.2 hslot.2 rfl
          h.counted (fun row' hrow' => h.rows slot row' hslot.2 hrow')
          (fun _ _ _ e he => absurd he List.not_mem_nil)
  · rw [if_pos hslot]
    exact h

theorem agrees_track {s : Bledger × List Event} (h : Agrees s.1 s.2) (c : Call) :
    Agrees (track s c).1 (track s c).2 := by
  unfold track
  cases c with
  | register slot base bytes rowBytes =>
    have hsame : (if (step (.register slot base bytes rowBytes) s.1).2 = .ok then
        eventsOf (.register slot base bytes rowBytes) ++ s.2 else s.2) = s.2 := ite_self s.2
    dsimp only
    rw [hsame]
    exact agrees_register h slot base bytes rowBytes
  | write slot writer row0 nrows qtag => exact agrees_write h slot writer row0 nrows qtag
  | canary slot =>
    exact agrees_fill h slot .canary (.canaried slot) .canaried (fun _ _ => ⟨rfl, rfl, rfl⟩)
      (fun _ => rfl) (by decide) rfl
  | release slot =>
    exact agrees_fill h slot .released (.released slot) .released (fun _ _ => ⟨rfl, rfl, rfl⟩)
      (fun _ => rfl) (by decide) rfl
  | expect slot row writerFilter qtag => exact agrees_expect h slot row writerFilter qtag
  | verify slot row => exact agrees_verify h slot row

theorem agrees_run (calls : List Call) : Agrees (runCalls calls).1 (runCalls calls).2 := by
  have hfold (s : Bledger × List Event) (hs : Agrees s.1 s.2) :
      Agrees (calls.foldl track s).1 (calls.foldl track s).2 := by
    induction calls generalizing s with
    | nil => exact hs
    | cons c calls ih => exact ih _ (agrees_track hs c)
  exact hfold _ agrees_init

/-- For every sequence of calls: a check of a row of a registered buffer, the latest write of which has
a tag if one is expected, succeeds exactly if the latest write, canary or release of the row was a
write that matches the row's expectation; and the double writes counted are, modulo `2 ^ 32`, the
writes of rows whose last writer was a different one and that were neither checked with success nor
filled nor given back since. -/
theorem verdicts_of_history (calls : List Call) :
    (∀ slot row, ((runCalls calls).1.buf slot).registered = true →
      row < ((runCalls calls).1.buf slot).nRows → TagGiven (runCalls calls).2 slot row →
        ((blVerify (runCalls calls).1 slot row).2 = .ok ↔
          ∃ writer qtag, latest (runCalls calls).2 slot row = some (.wrote writer qtag) ∧
            Matches (expectation (runCalls calls).2 slot row) writer qtag)) ∧
      (runCalls calls).1.nDoubleWrite = doubleWrites unread (runCalls calls).2 % 2 ^ 32 := by
  have h := agrees_run calls
  refine ⟨fun slot row hreg hrow htag => ?_, h.counted⟩
  have hslot : hasSlot (runCalls calls).1 slot := ⟨h.known slot hreg, hreg⟩
  have hthis := h.rows slot row hreg hrow
  have htests : (∃ writer qtag, latest (runCalls calls).2 slot row = some (.wrote writer qtag) ∧
      Matches (expectation (runCalls calls).2 slot row) writer qtag) ↔
        ∃ writer qtag, latest (runCalls calls).2 slot row = some (.wrote writer qtag) ∧
          Tested (expectation (runCalls calls).2 slot row) writer qtag := by
    refine exists_congr fun writer => exists_congr fun qtag => and_congr_right fun hlast => ?_
    refine forall_congr' fun e => imp_congr_right fun hexp => and_congr_right fun _ => ?_
    constructor
    · rintro (hnone | hzero | heq)
      · exact .inl hnone
      · exact .inl (htag writer e (hzero ▸ hlast) hexp)
      · exact .inr heq
    · exact Or.imp_right .inr
  rw [htests, hthis.last, hthis.expect, ← verdict_eq_ok]
  unfold blVerify
  rw [if_neg (not_not.mpr hslot)]
  dsimp only
  rw [if_neg (Nat.not_le.mpr hrow)]
  split
  · exact iff_of_false ‹_› ‹_›
  · exact iff_of_true rfl (not_not.mp ‹_›)

/-- Row 0 is filled with the canary and then written by 1 with tag 5, as expected: it passes. -/
theorem writtenRow_passes :
    (blVerify (runCalls [.register 0 4096 8 4, .canary 0, .write 0 1 0 1 5, .expect 0 0 1 5]).1 0
      0).2 = .ok ∧
    ∃ writer qtag, latest (runCalls
        [.register 0 4096 8 4, .canary 0, .write 0 1 0 1 5, .expect 0 0 1 5]).2 0 0 =
          some (.wrote writer qtag) ∧
      Matches (expectation (runCalls
        [.register 0 4096 8 4, .canary 0, .write 0 1 0 1 5, .expect 0 0 1 5]).2 0 0) writer qtag := by
  have hall := (verdicts_of_history
    [.register 0 4096 8 4, .canary 0, .write 0 1 0 1 5, .expect 0 0 1 5]).1 0 0 (by decide)
      (by decide) (by intro writer e hlast; cases hlast)
  have hok : (blVerify (runCalls
      [.register 0 4096 8 4, .canary 0, .write 0 1 0 1 5, .expect 0 0 1 5]).1 0 0).2 = .ok := by
    decide
  exact ⟨hok, hall.mp hok⟩

/-- A write by a second writer after a canary is not counted, though the first write was not checked. -/
theorem canary_not_counted :
    ¬∀ calls, (runCalls calls).1.nDoubleWrite = doubleWrites unverified (runCalls calls).2 := by
  intro h
  have hthis := h [.register 0 4096 4 4, .write 0 1 0 1 0, .canary 0, .write 0 2 0 1 0]
  revert hthis
  decide

end Ledger

end Gehtp.Analysis.LedgerHistory
