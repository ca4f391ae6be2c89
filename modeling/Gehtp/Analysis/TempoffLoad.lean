import Gehtp.Model.TempoffSlot
import Gehtp.Analysis.TempDisjoint

/-!
# What the device takes from a table of temp offsets

The loop over the entries accepts a table exactly if every entry passes its check, and then
stores the offsets one after the other. What the loader leaves behind is said once here: the
pool, its static area, and the two arrays of offsets.
-/

set_option autoImplicit false

namespace Gehtp.Analysis.TempoffLoad

open Lib Lib.Machine Model.OplistParse Model.OplistExec Model.TempRun Model.TempoffSlot
  Analysis.TempDisjoint

/-! ### The entries -/

def entryTemp (e : UInt32 × UInt32 × UInt32) : ℕ := (e.1 &&& 0x3FFF).toNat

/-- The check of the device. SOURCE: oplist_exec.c:2035-2057 -/
def EntryOk (cap vtcmCap : UInt32) (e : UInt32 × UInt32 × UInt32) : Prop :=
  entryTemp e < maxTemps ∧
    if e.1 &&& 0x4000 ≠ 0 then vtcmCap ≠ 0 ∧ e.2.1 + e.2.2 ≤ vtcmCap else e.2.1 + e.2.2 ≤ cap

/-- The offset goes to the array of VTCM or to the one of the pool. -/
def store (s : ExecState) (e : UInt32 × UInt32 × UInt32) : ExecState :=
  if e.1 &&& 0x4000 ≠ 0 then
    { s with vtcmOffArr := Function.update s.vtcmOffArr (entryTemp e) e.2.1 }
  else { s with staticOffArr := Function.update s.staticOffArr (entryTemp e) e.2.1 }

variable {e : UInt32 × UInt32 × UInt32} {s' : ExecState} {es : List (UInt32 × UInt32 × UInt32)}

theorem loadEntry_eq_ok {cap vtcmCap : UInt32} {s : ExecState} :
    loadEntry cap vtcmCap e s = (.ok (), s') ↔ EntryOk cap vtcmCap e ∧ s' = store s e := by
  have hok : ∀ t : ExecState, ((.ok (), t) : Checked String Unit × ExecState) = (.ok (), s') ↔
      s' = t := fun t => by
    rw [Prod.mk.injEq]
    exact ⟨fun h => h.2.symm, fun h => ⟨rfl, h.symm⟩⟩
  unfold loadEntry EntryOk store
  simp only [entryTemp]
  by_cases hid : maxTemps ≤ (e.1 &&& 0x3FFF).toNat
  · rw [if_pos hid]
    constructor
    · intro h
      cases h
    · intro h
      omega
  · rw [if_neg hid]
    by_cases hflag : e.1 &&& 0x4000 ≠ 0
    · simp only [if_pos hflag]
      by_cases hbad : vtcmCap = 0 ∨ vtcmCap < e.2.1 + e.2.2
      · rw [if_pos hbad]
        constructor
        · intro h
          cases h
        · rintro ⟨⟨-, hne, hle⟩, -⟩
          rcases hbad with hz | hlt
          · exact absurd hz hne
          · exact absurd hle (UInt32.not_le.mpr hlt)
      · rw [if_neg hbad]
        rw [not_or, UInt32.not_lt] at hbad
        exact (hok _).trans ⟨fun h => ⟨⟨by omega, hbad⟩, h⟩, fun h => h.2⟩
    · simp only [if_neg hflag]
      by_cases hbad : cap < e.2.1 + e.2.2
      · rw [if_pos hbad]
        constructor
        · intro h
          cases h
        · rintro ⟨⟨-, hle⟩, -⟩
          exact absurd hle (UInt32.not_le.mpr hbad)
      · rw [if_neg hbad]
        rw [UInt32.not_lt] at hbad
        exact (hok _).trans ⟨fun h => ⟨⟨by omega, hbad⟩, h⟩, fun h => h.2⟩

theorem loadEntries_eq_ok {cap vtcmCap : UInt32} {s : ExecState} :
    loadEntries cap vtcmCap es s = (.ok (), s') ↔
      (∀ e ∈ es, EntryOk cap vtcmCap e) ∧ s' = es.foldl store s := by
  induction es generalizing s with
  | nil =>
    constructor
    · intro h
      obtain ⟨-, rfl⟩ := Prod.mk.inj h
      exact ⟨by simp, rfl⟩
    · rintro ⟨-, rfl⟩
      rfl
  | cons e es ih =>
    rw [List.foldl_cons, List.forall_mem_cons]
    constructor
    · intro h
      obtain ⟨_, t, hentry, hrest⟩ := bind_eq_ok h
      obtain ⟨hok, rfl⟩ := loadEntry_eq_ok.mp hentry
      obtain ⟨hall, hs⟩ := ih.mp hrest
      exact ⟨⟨hok, hall⟩, hs⟩
    · rintro ⟨⟨hok, hall⟩, hs⟩
      have hentry : loadEntry cap vtcmCap e s = (.ok (), store s e) :=
        loadEntry_eq_ok.mpr ⟨hok, rfl⟩
      show (loadEntry cap vtcmCap e >>= fun _ => loadEntries cap vtcmCap es) s = _
      rw [bind_apply_ok hentry]
      exact ih.mpr ⟨hall, hs⟩

/-! ### The stored offsets -/

theorem foldl_store_frame (es : List (UInt32 × UInt32 × UInt32)) (s : ExecState) :
    ∃ sa va, es.foldl store s = { s with staticOffArr := sa, vtcmOffArr := va } := by
  induction es generalizing s with
  | nil => exact ⟨_, _, rfl⟩
  | cons e es ih =>
    obtain ⟨sa, va, h⟩ := ih (store s e)
    refine ⟨sa, va, ?_⟩
    rw [List.foldl_cons, h]
    unfold store
    split <;> rfl

theorem foldl_store_other {t : ℕ} (h : ∀ e ∈ es, entryTemp e ≠ t) (s : ExecState) :
    (es.foldl store s).staticOffArr t = s.staticOffArr t ∧
      (es.foldl store s).vtcmOffArr t = s.vtcmOffArr t := by
  induction es generalizing s with
  | nil => exact ⟨rfl, rfl⟩
  | cons e es ih =>
    rw [List.forall_mem_cons] at h
    rw [List.foldl_cons]
    obtain ⟨hs, hv⟩ := ih h.2 (store s e)
    rw [hs, hv]
    unfold store
    split
    · exact ⟨rfl, Function.update_of_ne (Ne.symm h.1) ..⟩
    · exact ⟨Function.update_of_ne (Ne.symm h.1) .., rfl⟩

theorem foldl_store_self {fs : List (UInt32 × UInt32 × UInt32)}
    (hes : ∀ e' ∈ es, entryTemp e' ≠ entryTemp e) (hfs : ∀ e' ∈ fs, entryTemp e' ≠ entryTemp e)
    (s : ExecState) :
    ((es ++ e :: fs).foldl store s).staticOffArr (entryTemp e) =
        (if e.1 &&& 0x4000 ≠ 0 then s.staticOffArr (entryTemp e) else e.2.1) ∧
      ((es ++ e :: fs).foldl store s).vtcmOffArr (entryTemp e) =
        if e.1 &&& 0x4000 ≠ 0 then e.2.1 else s.vtcmOffArr (entryTemp e) := by
  obtain ⟨hs, hv⟩ := foldl_store_other hes s
  rw [List.foldl_append, List.foldl_cons]
  obtain ⟨hs', hv'⟩ := foldl_store_other hfs (store (es.foldl store s) e)
  rw [hs', hv']
  unfold store
  split
  · exact ⟨hs, Function.update_self ..⟩
  · exact ⟨Function.update_self .., hv⟩

/-! ### The loader -/

theorem word_eq_ok {mem : List UInt8} {p : ℕ} {x : UInt32} {s : ExecState}
    (h : word mem p s = (.ok x, s')) : x = le32 mem p ∧ s' = s := by
  unfold word inTable at h
  split at h
  · obtain ⟨hval, rfl⟩ := Prod.mk.inj h
    exact ⟨(Except.ok.inj hval).symm, rfl⟩
  · cases h

/-- The entry at `p`. -/
def entryAt (mem : List UInt8) (p : ℕ) : UInt32 × UInt32 × UInt32 :=
  (le32 mem p, le32 mem (p + 4), le32 mem (p + 8))

/-- The `k` entries from number `i` on of the table at `p`. -/
def entriesAt (mem : List UInt8) (p : ℕ) : ℕ → UInt32 → List (UInt32 × UInt32 × UInt32)
  | 0, _ => []
  | k + 1, i => entryAt mem (p + 12 + (i * 12).toNat) :: entriesAt mem p k (i + 1)

theorem readEntry_eq_ok {mem : List UInt8} {p : ℕ} {s : ExecState}
    (h : readEntry mem p s = (.ok e, s')) : e = entryAt mem p ∧ s' = s := by
  obtain ⟨_, t₁, htid, h₁⟩ := bind_eq_ok h
  obtain ⟨_, t₂, hoff, h₂⟩ := bind_eq_ok h₁
  obtain ⟨_, t₃, hsz, h₃⟩ := bind_eq_ok h₂
  obtain ⟨rfl, rfl⟩ := word_eq_ok htid
  obtain ⟨rfl, rfl⟩ := word_eq_ok hoff
  obtain ⟨rfl, rfl⟩ := word_eq_ok hsz
  obtain ⟨hval, rfl⟩ := Prod.mk.inj h₃
  exact ⟨(Except.ok.inj hval).symm, rfl⟩

theorem loadTable_eq_ok {cap vtcmCap : UInt32} {mem : List UInt8} {p k : ℕ} {i : UInt32}
    {s : ExecState} (h : loadTable cap vtcmCap mem p k i s = (.ok (), s')) :
    (∀ e ∈ entriesAt mem p k i, EntryOk cap vtcmCap e) ∧
      s' = (entriesAt mem p k i).foldl store s := by
  induction k generalizing i s with
  | zero =>
    obtain ⟨-, rfl⟩ := Prod.mk.inj h
    exact ⟨by simp [entriesAt], rfl⟩
  | succ k ih =>
    obtain ⟨e, t₁, hread, h₁⟩ := bind_eq_ok h
    obtain ⟨_, t₂, hentry, h₂⟩ := bind_eq_ok h₁
    obtain ⟨rfl, rfl⟩ := readEntry_eq_ok hread
    obtain ⟨hok, rfl⟩ := loadEntry_eq_ok.mp hentry
    obtain ⟨hall, hs⟩ := ih h₂
    exact ⟨List.forall_mem_cons.mpr ⟨hok, hall⟩, hs⟩

def loadedState (base : ℕ) (cap reserve : UInt32) (es : List (UInt32 × UInt32 × UInt32))
    (s : ExecState) : ExecState :=
  poolInit base (cap + (reserve &&& 0xFFFF) * 1024) cap ((reserve >>> 16) * 1024)
    (es.foldl store { clearOffsets s with tick := s.tick + 1 })

theorem ask_apply {α : Type} (f : ℕ → α) (s : ExecState) :
    ask f s = (.ok (f s.tick), { s with tick := s.tick + 1 }) := rfl

theorem loadSlot_eq_ok {env : Env} {mem : List UInt8} {p : ℕ} {len : UInt32} {s : ExecState}
    (h : loadSlot env mem p len (clearOffsets s) = (.ok (), s')) :
    ∃ base, le32 mem p ≠ 0 ∧ le32 mem p ≤ 0x80000000 ∧
      s' = loadedState base (le32 mem p) (le32 mem (p + 4))
        (entriesAt mem p (le32 mem (p + 8)).toNat 0) s := by
  unfold loadSlot at h
  split at h
  · cases h
  · obtain ⟨cap, t₁, hcap, h₁⟩ := bind_eq_ok h
    obtain ⟨reserve, t₂, hres, h₂⟩ := bind_eq_ok h₁
    obtain ⟨n, t₃, hn, h₃⟩ := bind_eq_ok h₂
    obtain ⟨rfl, rfl⟩ := word_eq_ok hcap
    obtain ⟨rfl, rfl⟩ := word_eq_ok hres
    obtain ⟨rfl, rfl⟩ := word_eq_ok hn
    split at h₃
    · cases h₃
    split at h₃
    · cases h₃
    · rename_i hcap
      rw [not_or, UInt32.not_lt] at hcap
      obtain ⟨pool, t₄, hask, h₄⟩ := bind_eq_ok h₃
      rw [ask_apply] at hask
      obtain ⟨-, rfl⟩ := Prod.mk.inj hask
      cases pool with
      | none => cases h₄
      | some base =>
        obtain ⟨_, t₅, htable, h₅⟩ := bind_eq_ok h₄
        obtain ⟨-, rfl⟩ := loadTable_eq_ok htable
        obtain ⟨-, rfl⟩ := Prod.mk.inj h₅
        exact ⟨base, hcap.1, hcap.2, rfl⟩

def tempoffSlot (slots : List WtSlot) : Option WtSlot :=
  slots.find? fun slot => decide (slot.addr = wtSlotTempoff)

theorem loadFirst_cases (env : Env) (mem : List UInt8) (slots : List WtSlot) :
    tempoffSlot slots = none ∧ loadFirst env mem slots = pure () ∨
      ∃ slot, tempoffSlot slots = some slot ∧
        loadFirst env mem slots = loadSlot env mem slot.offset.toNat slot.len := by
  induction slots with
  | nil => exact .inl ⟨rfl, rfl⟩
  | cons slot slots ih =>
    by_cases haddr : slot.addr = wtSlotTempoff
    · refine .inr ⟨slot, ?_, ?_⟩
      · exact List.find?_cons_of_pos (decide_eq_true haddr)
      · exact if_neg (not_not.mpr haddr)
    · have hstep : loadFirst env mem (slot :: slots) = loadFirst env mem slots := if_pos haddr
      have hfind : tempoffSlot (slot :: slots) = tempoffSlot slots :=
        List.find?_cons_of_neg (by simpa using haddr)
      rw [hstep, hfind]
      exact ih

theorem loadTempoff_cold {env : Env} {b : WtBlob} {s : ExecState}
    (hcold : s.staticOffsets = false) :
    wtExecLoadTempoff env b s = loadFirst env b.weight b.slots (clearOffsets s) := by
  show (if s.staticOffsets then pure () else _ : Exec Unit) s = _
  rw [hcold]
  rfl

theorem loadTempoff_warm {env : Env} {b : WtBlob} {s : ExecState}
    (hwarm : s.staticOffsets = true) : wtExecLoadTempoff env b s = (.ok (), s) := by
  show (if s.staticOffsets then pure () else _ : Exec Unit) s = _
  rw [hwarm]
  rfl

/-! ### A slot of any content -/

section Slots

variable {mem : List UInt8} {p q k m i : ℕ} {cap vtcmCap : UInt32} {s t : ExecState}

theorem word_inside (h : q + 4 ≤ mem.length) (s : ExecState) :
    word mem q s = (.ok (le32 mem q), s) := by
  unfold word inTable
  rw [if_pos (by omega)]
  rfl

theorem word_outside (h : mem.length < q + 4) (s : ExecState) :
    word mem q s = (.error .fault, s) := by
  unfold word inTable
  rw [if_neg (by omega)]
  rfl

theorem readEntry_inside (mem : List UInt8) (q : ℕ) (h : q + 12 ≤ mem.length) (s : ExecState) :
    readEntry mem q s = (.ok (entryAt mem q), s) := by
  unfold readEntry
  rw [bind_apply_ok (word_inside (by omega) s), bind_apply_ok (word_inside (by omega) s),
    bind_apply_ok (word_inside (by omega) s)]
  rfl

theorem readEntry_outside (h : mem.length < q + 12) (s : ExecState) :
    readEntry mem q s = (.error .fault, s) := by
  unfold readEntry
  by_cases h₀ : mem.length < q + 4
  · exact bind_apply_error (word_outside h₀ s)
  rw [bind_apply_ok (word_inside (by omega) s)]
  by_cases h₁ : mem.length < q + 4 + 4
  · exact bind_apply_error (word_outside h₁ s)
  rw [bind_apply_ok (word_inside (by omega) s)]
  exact bind_apply_error (word_outside (by omega) s)

theorem place_toNat (h : 12 * i < 2 ^ 32) : (UInt32.ofNat i * 12).toNat = 12 * i := by
  rw [UInt32.toNat_mul, UInt32.toNat_ofNat', show (12 : UInt32).toNat = 12 from rfl]
  omega

theorem ofNat_succ (i : ℕ) : UInt32.ofNat i + 1 = UInt32.ofNat (i + 1) :=
  (UInt32.ofNat_add i 1).symm

/-- `k` entries from number `i` on, where they stand in the slot at `p`. -/
def slotEntries (mem : List UInt8) (p i k : ℕ) : List (UInt32 × UInt32 × UInt32) :=
  (List.range' i k).map fun j => entryAt mem (p + 12 + 12 * j)

theorem slotEntries_succ (mem : List UInt8) (p i k : ℕ) : slotEntries mem p i (k + 1) =
    entryAt mem (p + 12 + 12 * i) :: slotEntries mem p (i + 1) k := by
  rw [slotEntries, List.range'_succ, List.map_cons]
  rfl

theorem loadEntry_refused (h : ¬ EntryOk cap vtcmCap e) (s : ExecState) :
    ∃ err, loadEntry cap vtcmCap e s = (.error (.reject err), s) := by
  unfold EntryOk at h
  show ∃ err, (if maxTemps ≤ entryTemp e then reject "tempoff tid bad" else _ : Exec Unit) s = _
  by_cases hid : maxTemps ≤ entryTemp e
  · rw [if_pos hid]
    exact ⟨_, rfl⟩
  rw [if_neg hid]
  by_cases hflag : e.1 &&& 0x4000 ≠ 0
  · have hbad : vtcmCap = 0 ∨ vtcmCap < e.2.1 + e.2.2 := by
      by_contra hno
      rw [not_or, UInt32.not_lt] at hno
      exact h ⟨by omega, by rwa [if_pos hflag]⟩
    rw [if_pos hflag, if_pos hbad]
    exact ⟨_, rfl⟩
  · have hbad : cap < e.2.1 + e.2.2 := by
      by_contra hno
      rw [UInt32.not_lt] at hno
      exact h ⟨by omega, by rwa [if_neg hflag]⟩
    rw [if_neg hflag, if_pos hbad]
    exact ⟨_, rfl⟩

theorem loadTable_succ (cap vtcmCap : UInt32) (mem : List UInt8) (p k : ℕ) (j : UInt32) :
    loadTable cap vtcmCap mem p (k + 1) j =
      (readEntry mem (p + 12 + (j * 12).toNat) >>= fun e =>
        loadEntry cap vtcmCap e >>= fun _ => loadTable cap vtcmCap mem p k (j + 1)) := rfl

theorem loadTable_inside (mem : List UInt8) (p i k : ℕ) (cap vtcmCap : UInt32) (s : ExecState)
    (hin : p + 12 + 12 * (i + k) ≤ mem.length) (hsmall : 12 * (i + k) < 2 ^ 32) :
    (∀ e ∈ slotEntries mem p i k, EntryOk cap vtcmCap e) ∧
        loadTable cap vtcmCap mem p k (UInt32.ofNat i) s =
          (.ok (), (slotEntries mem p i k).foldl store s) ∨
      (∃ e ∈ slotEntries mem p i k, ¬ EntryOk cap vtcmCap e) ∧
        ∃ err u, loadTable cap vtcmCap mem p k (UInt32.ofNat i) s = (.error (.reject err), u) := by
  induction k generalizing i s with
  | zero => exact .inl ⟨by simp [slotEntries], rfl⟩
  | succ k ih =>
    have hread := readEntry_inside mem (p + 12 + 12 * i) (by omega) s
    have hround : loadTable cap vtcmCap mem p (k + 1) (UInt32.ofNat i) s =
        (loadEntry cap vtcmCap (entryAt mem (p + 12 + 12 * i)) >>= fun _ =>
          loadTable cap vtcmCap mem p k (UInt32.ofNat (i + 1))) s := by
      rw [loadTable_succ, place_toNat (by omega), bind_apply_ok hread, ofNat_succ]
    rw [hround, slotEntries_succ]
    by_cases hok : EntryOk cap vtcmCap (entryAt mem (p + 12 + 12 * i))
    · rw [bind_apply_ok (loadEntry_eq_ok.mpr ⟨hok, rfl⟩)]
      rcases ih (i := i + 1) (store s (entryAt mem (p + 12 + 12 * i))) (by omega) (by omega) with
        ⟨hall, hrun⟩ | ⟨⟨e, he, hbad⟩, hrun⟩
      · exact .inl ⟨List.forall_mem_cons.mpr ⟨hok, hall⟩, hrun⟩
      · exact .inr ⟨⟨e, List.mem_cons_of_mem _ he, hbad⟩, hrun⟩
    · obtain ⟨err, hrun⟩ := loadEntry_refused hok s
      exact .inr ⟨⟨_, List.mem_cons_self, hok⟩, err, s, bind_apply_error hrun⟩

theorem loadTable_add_error {e : Stop String} {j : UInt32}
    (h : loadTable cap vtcmCap mem p k j s = (.error e, t)) (m : ℕ) :
    loadTable cap vtcmCap mem p (k + m) j s = (.error e, t) := by
  induction k generalizing j s with
  | zero => cases h
  | succ k ih =>
    rw [loadTable_succ] at h
    rw [Nat.succ_add, loadTable_succ]
    rcases hread : readEntry mem (p + 12 + (j * 12).toNat) s with ⟨_ | x, u⟩
    · rw [bind_apply_error hread] at h ⊢
      exact h
    rw [bind_apply_ok hread] at h ⊢
    rcases hentry : loadEntry cap vtcmCap x u with ⟨_ | _, v⟩
    · rw [bind_apply_error hentry] at h ⊢
      exact h
    · rw [bind_apply_ok hentry] at h ⊢
      exact ih h

theorem loadTable_add_ok {j : UInt32} (h : loadTable cap vtcmCap mem p k j s = (.ok (), t))
    (m : ℕ) : loadTable cap vtcmCap mem p (k + m) j s =
      loadTable cap vtcmCap mem p m (j + UInt32.ofNat k) t := by
  induction k generalizing j s with
  | zero =>
    obtain ⟨-, rfl⟩ := Prod.mk.inj h
    rw [Nat.zero_add, show UInt32.ofNat 0 = 0 from rfl, UInt32.add_zero]
  | succ k ih =>
    obtain ⟨x, u, hread, h₁⟩ := bind_eq_ok h
    obtain ⟨_, v, hentry, h₂⟩ := bind_eq_ok h₁
    rw [Nat.succ_add, loadTable_succ, bind_apply_ok hread, bind_apply_ok hentry, ih h₂,
      UInt32.add_assoc, UInt32.add_comm 1, ofNat_succ]

end Slots

/-- How many entries a slot of `len` bytes has room for. -/
def room (len : UInt32) : ℕ := (len.toNat - 12) / 12

/-- The size of the VTCM pool in the header of the table at `p`. SOURCE: oplist_exec.c:2027 -/
def vtcmCapAt (mem : List UInt8) (p : ℕ) : UInt32 := (le32 mem (p + 4) >>> 16) * 1024

/-- The entries of the table that stand inside the slot. -/
def entriesInside (mem : List UInt8) (p : ℕ) (len : UInt32) : List (UInt32 × UInt32 × UInt32) :=
  slotEntries mem p 0 (min (le32 mem (p + 8)).toNat (room len))

/-- The header passes its checks and the pool is allocated, so that the loop over the entries is
reached. SOURCE: oplist_exec.c:2022-2030 -/
def Reached (env : Env) (mem : List UInt8) (p : ℕ) (len : UInt32) (tick : ℕ) : Prop :=
  12 ≤ len ∧ 12 + le32 mem (p + 8) * 12 ≤ len ∧ le32 mem p ≠ 0 ∧ le32 mem p ≤ 0x80000000 ∧
    (env.memalign tick (le32 mem p + (le32 mem (p + 4) &&& 0xFFFF) * 1024)).isSome

/-- Some first rounds of the loop go through, and this is the entry that the last of them stores. -/
def Stores (mem : List UInt8) (p : ℕ) (s : ExecState) (e : UInt32 × UInt32 × UInt32) : Prop :=
  ∃ k < (le32 mem (p + 8)).toNat,
    (∃ t, loadTable (le32 mem p) (vtcmCapAt mem p) mem p (k + 1) 0 s = (.ok (), t)) ∧
      e = entryAt mem (p + 12 + (UInt32.ofNat k * 12).toNat)

/-- The offset and the size of an entry add up to at most the capacity of its pool. -/
def EntryFits (cap vtcmCap : UInt32) (e : UInt32 × UInt32 × UInt32) : Prop :=
  e.2.1.toNat + e.2.2.toNat ≤ (if e.1 &&& 0x4000 ≠ 0 then vtcmCap else cap).toNat

/-- The call does not read outside of the slot, which ends with the memory, and the offsets that it
stores fit their pools. -/
structure LoadsSafely (env : Env) (b : WtBlob) (slot : WtSlot) (s : ExecState) : Prop where
  inside : Safe (wtExecLoadTempoff env b s).1
  fits : Reached env b.weight slot.offset.toNat slot.len s.tick → ∀ e,
    Stores b.weight slot.offset.toNat { clearOffsets s with tick := s.tick + 1 } e →
      EntryFits (le32 b.weight slot.offset.toNat) (vtcmCapAt b.weight slot.offset.toNat) e

/-- The slot has room for as many entries as its header counts, or refuses one that stands inside;
and no entry in front of the first one refused wraps around 32 bits. -/
def TableInside (mem : List UInt8) (p : ℕ) (len : UInt32) : Prop :=
  (12 + 12 * (le32 mem (p + 8)).toNat ≤ len.toNat ∨
      ∃ e ∈ entriesInside mem p len, ¬ EntryOk (le32 mem p) (vtcmCapAt mem p) e) ∧
    ∀ i e, (entriesInside mem p len)[i]? = some e →
      (∀ e' ∈ (entriesInside mem p len).take (i + 1),
        EntryOk (le32 mem p) (vtcmCapAt mem p) e') →
      e.2.1.toNat + e.2.2.toNat < 2 ^ 32

section Loading

variable {env : Env} {mem : List UInt8} {p : ℕ} {len : UInt32} {s : ExecState}

theorem EntryOk.fits_iff {cap vtcmCap : UInt32} (h : EntryOk cap vtcmCap e) :
    EntryFits cap vtcmCap e ↔ e.2.1.toNat + e.2.2.toNat < 2 ^ 32 := by
  have hle : e.2.1 + e.2.2 ≤ (if e.1 &&& 0x4000 ≠ 0 then vtcmCap else cap) := by
    obtain ⟨-, h⟩ := h
    split at h
    · rw [if_pos ‹_›]
      exact h.2
    · rw [if_neg ‹_›]
      exact h
  rw [UInt32.le_iff_toNat_le, UInt32.toNat_add] at hle
  unfold EntryFits
  have hcap := (if e.1 &&& 0x4000 ≠ 0 then vtcmCap else cap).toNat_lt
  constructor
  · intro hfits
    omega
  · intro hlt
    rwa [Nat.mod_eq_of_lt hlt] at hle

theorem Reached.bounds (h : Reached env mem p len s.tick) : 12 ≤ len.toNat :=
  UInt32.le_iff_toNat_le.mp h.1

theorem room_le (h : 12 ≤ len.toNat) : 12 + 12 * room len ≤ len.toNat := by
  unfold room
  omega

theorem lt_room_end (len : UInt32) : len.toNat < 24 + 12 * room len := by
  unfold room
  omega

theorem loadSlot_refused (hend : mem.length = p + len.toNat)
    (h : ¬ Reached env mem p len s.tick) :
    ∃ err, (loadSlot env mem p len (clearOffsets s)).1 = .error (.reject err) := by
  unfold loadSlot
  by_cases hshort : len < 12
  · rw [if_pos hshort]
    exact ⟨_, rfl⟩
  rw [UInt32.not_lt] at hshort
  have hlen : 12 ≤ len.toNat := UInt32.le_iff_toNat_le.mp hshort
  rw [if_neg (UInt32.not_lt.mpr hshort), bind_apply_ok (word_inside (by omega) _),
    bind_apply_ok (word_inside (by omega) _), bind_apply_ok (word_inside (by omega) _)]
  by_cases htable : len < 12 + le32 mem (p + 8) * 12
  · rw [if_pos htable]
    exact ⟨_, rfl⟩
  rw [if_neg htable]
  by_cases hcap : le32 mem p = 0 ∨ 0x80000000 < le32 mem p
  · rw [if_pos hcap]
    exact ⟨_, rfl⟩
  rw [if_neg hcap]
  rw [not_or, UInt32.not_lt] at hcap
  unfold loadPool
  rw [bind_apply_ok (ask_apply _ _)]
  have hnone : env.memalign s.tick (le32 mem p + (le32 mem (p + 4) &&& 0xFFFF) * 1024) = none := by
    by_contra hsome
    exact h ⟨hshort, UInt32.not_lt.mp htable, hcap.1, hcap.2, Option.isSome_iff_ne_none.mpr hsome⟩
  refine ⟨"tempoff pool alloc", ?_⟩
  rw [show env.memalign (clearOffsets s).tick _ = none from hnone]
  rfl

theorem loadSlot_reached (hend : mem.length = p + len.toNat)
    (h : Reached env mem p len s.tick) :
    ∃ base, loadSlot env mem p len (clearOffsets s) =
      (loadTable (le32 mem p) (vtcmCapAt mem p) mem p (le32 mem (p + 8)).toNat 0 >>= fun _ =>
        update (poolInit base (le32 mem p + (le32 mem (p + 4) &&& 0xFFFF) * 1024) (le32 mem p)
          (vtcmCapAt mem p))) { clearOffsets s with tick := s.tick + 1 } := by
  have hlen := h.bounds
  obtain ⟨hshort, htable, hne, hle, hsome⟩ := h
  obtain ⟨base, hbase⟩ := Option.isSome_iff_exists.mp hsome
  refine ⟨base, ?_⟩
  unfold loadSlot
  rw [if_neg (UInt32.not_lt.mpr hshort), bind_apply_ok (word_inside (by omega) _),
    bind_apply_ok (word_inside (by omega) _), bind_apply_ok (word_inside (by omega) _),
    if_neg (UInt32.not_lt.mpr htable),
    if_neg (not_or.mpr ⟨hne, UInt32.not_lt.mpr hle⟩)]
  unfold loadPool
  rw [bind_apply_ok (ask_apply _ _)]
  dsimp only
  rw [show env.memalign (clearOffsets s).tick _ = some base from hbase]
  rfl

theorem loadTable_safe_iff (hend : mem.length = p + len.toNat) (hlen : 12 ≤ len.toNat)
    (t : ExecState) :
    Safe (loadTable (le32 mem p) (vtcmCapAt mem p) mem p (le32 mem (p + 8)).toNat 0 t).1 ↔
      (12 + 12 * (le32 mem (p + 8)).toNat ≤ len.toNat ∨
        ∃ e ∈ entriesInside mem p len, ¬ EntryOk (le32 mem p) (vtcmCapAt mem p) e) := by
  have hroom := room_le hlen
  have hover := lt_room_end len
  have hsize := len.toNat_lt
  set n := (le32 mem (p + 8)).toNat with hn
  by_cases hfew : 12 + 12 * n ≤ len.toNat
  · refine iff_of_true ?_ (.inl hfew)
    rcases loadTable_inside mem p 0 n (le32 mem p)
      (vtcmCapAt mem p) t (by omega) (by omega) with ⟨-, hrun⟩ | ⟨-, err, u, hrun⟩
    · rw [show UInt32.ofNat 0 = 0 from rfl] at hrun
      rw [hrun]
      exact safe_ok _
    · rw [show UInt32.ofNat 0 = 0 from rfl] at hrun
      rw [hrun]
      exact safe_reject err
  · -- there are more entries than stand inside: one is refused, or the next read leaves the slot
    have hmin : min n (room len) = room len := by omega
    obtain ⟨m, hm⟩ : ∃ m, n = room len + (m + 1) := ⟨n - room len - 1, by omega⟩
    have hinside := loadTable_inside mem p 0 (room len) (le32 mem p)
      (vtcmCapAt mem p) t (by omega) (by omega)
    rw [show UInt32.ofNat 0 = 0 from rfl] at hinside
    unfold entriesInside
    rw [← hn, hmin]
    rcases hinside with ⟨hall, hrun⟩ | ⟨hbad, err, u, hrun⟩
    · refine iff_of_false ?_ ?_
      · rw [hm, loadTable_add_ok hrun, UInt32.zero_add, loadTable_succ, place_toNat (by omega),
          bind_apply_error (readEntry_outside (by omega) _)]
        exact fun h => h rfl
      · rintro (h | ⟨e, he, hbad⟩)
        · exact hfew h
        · exact hbad (hall e he)
    · refine iff_of_true ?_ (.inr hbad)
      rw [hm, loadTable_add_error hrun]
      exact safe_reject err

theorem stores_iff (hend : mem.length = p + len.toNat) (hlen : 12 ≤ len.toNat) (t : ExecState)
    (e : UInt32 × UInt32 × UInt32) :
    Stores mem p t e ↔ ∃ i, (entriesInside mem p len)[i]? = some e ∧
      ∀ e' ∈ (entriesInside mem p len).take (i + 1),
        EntryOk (le32 mem p) (vtcmCapAt mem p) e' := by
  have hroom := room_le hlen
  have hover := lt_room_end len
  have hsize := len.toNat_lt
  have htake : ∀ k, k < min (le32 mem (p + 8)).toNat (room len) →
      (entriesInside mem p len).take (k + 1) = slotEntries mem p 0 (k + 1) := by
    intro k hk
    rw [entriesInside, slotEntries, slotEntries, ← List.map_take, List.take_range'_of_length_ge
      (by omega)]
  have hget : ∀ k, k < min (le32 mem (p + 8)).toNat (room len) →
      (entriesInside mem p len)[k]? = some (entryAt mem (p + 12 + 12 * k)) := by
    intro k hk
    rw [entriesInside, slotEntries, List.getElem?_map, List.getElem?_range' hk]
    simp
  constructor
  · rintro ⟨k, hk, ⟨u, hrun⟩, rfl⟩
    have hinside : k < room len := by
      by_contra hout
      have hstop : (loadTable (le32 mem p) (vtcmCapAt mem p) mem p (k + 1) 0 t).1 ≠ .ok () := by
        have hfirst := loadTable_inside mem p 0 (room len)
          (le32 mem p) (vtcmCapAt mem p) t (by omega) (by omega)
        rw [show UInt32.ofNat 0 = 0 from rfl] at hfirst
        obtain ⟨m, hm⟩ : ∃ m, k + 1 = room len + (m + 1) := ⟨k - room len, by omega⟩
        rcases hfirst with ⟨-, hfirst⟩ | ⟨-, err, v, hfirst⟩
        · rw [hm, loadTable_add_ok hfirst, UInt32.zero_add, loadTable_succ,
            place_toNat (by omega), bind_apply_error (readEntry_outside (by omega) _)]
          exact fun h => by cases h
        · rw [hm, loadTable_add_error hfirst]
          exact fun h => by cases h
      rw [hrun] at hstop
      exact hstop rfl
    refine ⟨k, ?_, ?_⟩
    · rw [hget k (by omega), place_toNat (by omega)]
    · rw [htake k (by omega)]
      have hrounds := loadTable_inside mem p 0 (k + 1) (le32 mem p)
        (vtcmCapAt mem p) t (by omega) (by omega)
      rw [show UInt32.ofNat 0 = 0 from rfl] at hrounds
      rcases hrounds with ⟨hall, -⟩ | ⟨-, err, v, hbad⟩
      · exact hall
      · rw [hrun] at hbad
        cases hbad
  · rintro ⟨i, hi, hall⟩
    have hlt : i < min (le32 mem (p + 8)).toNat (room len) := by
      have := (List.getElem?_eq_some_iff.mp hi).1
      rwa [entriesInside, slotEntries, List.length_map, List.length_range'] at this
    rw [hget i hlt] at hi
    rw [htake i hlt] at hall
    refine ⟨i, by omega, ?_, ?_⟩
    · have hrounds := loadTable_inside mem p 0 (i + 1) (le32 mem p)
        (vtcmCapAt mem p) t (by omega) (by omega)
      rw [show UInt32.ofNat 0 = 0 from rfl] at hrounds
      rcases hrounds with ⟨-, hrun⟩ | ⟨⟨e', he', hbad⟩, -⟩
      · exact ⟨_, hrun⟩
      · exact absurd (hall e' he') hbad
    · rw [place_toNat (by omega)]
      exact (Option.some.inj hi).symm

/-- A cold load of the table is safe exactly if the loop is not reached or the table is inside its
slot: the count, the places and the sums are all taken in 32 bits. SOURCE: oplist_exec.c:2012-2066 -/
theorem loads_safely_iff {b : WtBlob} {slot : WtSlot} (hcold : s.staticOffsets = false)
    (hslot : tempoffSlot b.slots = some slot)
    (hend : b.weight.length = slot.offset.toNat + slot.len.toNat) :
    LoadsSafely env b slot s ↔ (Reached env b.weight slot.offset.toNat slot.len s.tick →
      TableInside b.weight slot.offset.toNat slot.len) := by
  have hload : wtExecLoadTempoff env b s =
      loadSlot env b.weight slot.offset.toNat slot.len (clearOffsets s) := by
    rw [loadTempoff_cold hcold]
    rcases loadFirst_cases env b.weight b.slots with ⟨hnone, -⟩ | ⟨slot', hsome, hfirst⟩
    · rw [hnone] at hslot
      cases hslot
    · obtain rfl := Option.some.inj (hsome.symm.trans hslot)
      rw [hfirst]
  by_cases hreach : Reached env b.weight slot.offset.toNat slot.len s.tick
  · have hlen := hreach.bounds
    obtain ⟨base, hrun⟩ := loadSlot_reached hend hreach
    have hsafe : Safe (wtExecLoadTempoff env b s).1 ↔
        Safe (loadTable (le32 b.weight slot.offset.toNat) (vtcmCapAt b.weight slot.offset.toNat)
          b.weight slot.offset.toNat (le32 b.weight (slot.offset.toNat + 8)).toNat 0
          { clearOffsets s with tick := s.tick + 1 }).1 := by
      rw [hload, hrun]
      rcases htable : loadTable (le32 b.weight slot.offset.toNat)
        (vtcmCapAt b.weight slot.offset.toNat) b.weight slot.offset.toNat
        (le32 b.weight (slot.offset.toNat + 8)).toNat 0 { clearOffsets s with tick := s.tick + 1 }
        with ⟨e | _, u⟩
      · rw [bind_apply_error htable]
      · rw [bind_apply_ok htable]
        exact iff_of_true (safe_ok _) (safe_ok _)
    rw [loadTable_safe_iff hend hlen] at hsafe
    constructor
    · rintro ⟨hinside, hfits⟩ -
      refine ⟨hsafe.mp hinside, fun i e hi hall => ?_⟩
      have hok : EntryOk (le32 b.weight slot.offset.toNat)
          (vtcmCapAt b.weight slot.offset.toNat) e := by
        refine hall e (List.mem_of_getElem? (i := i) ?_)
        rw [List.getElem?_take_of_lt (Nat.lt_succ_self i), hi]
      exact hok.fits_iff.mp (hfits hreach e ((stores_iff hend hlen _ e).mpr ⟨i, hi, hall⟩))
    · intro h
      obtain ⟨hcount, hwrap⟩ := h hreach
      refine ⟨hsafe.mpr hcount, fun _ e he => ?_⟩
      obtain ⟨i, hi, hall⟩ := (stores_iff hend hlen _ e).mp he
      have hok : EntryOk (le32 b.weight slot.offset.toNat)
          (vtcmCapAt b.weight slot.offset.toNat) e := by
        refine hall e (List.mem_of_getElem? (i := i) ?_)
        rw [List.getElem?_take_of_lt (Nat.lt_succ_self i), hi]
      exact hok.fits_iff.mpr (hwrap i e hi hall)
  · refine iff_of_true ⟨?_, fun h => absurd h hreach⟩ fun h => absurd h hreach
    obtain ⟨err, hrun⟩ := loadSlot_refused hend hreach
    rw [hload, hrun]
    exact safe_reject err

end Loading

/-- A blob with nothing but a slot of these bytes. -/
def slotBlob (content : List UInt8) : WtBlob where
  ver := 1
  slots := [⟨UInt32.ofNat content.length, 0, 0, wtSlotTempoff⟩]
  ops := []
  weightOff := 0
  weight := content

/-- 128 bytes of static area and one temp with the given place. -/
def oneEntry (off sz : UInt32) : List UInt8 :=
  u32le 128 ++ u32le 0 ++ u32le 1 ++ u32le 0 ++ u32le off ++ u32le sz

/-- A table of one entry in a slot that holds all of it. -/
theorem wholeEntry_loads_safely :
    LoadsSafely grantingEnv (slotBlob (oneEntry 0 128)) ⟨24, 0, 0, wtSlotTempoff⟩ coldState := by
  refine (loads_safely_iff rfl rfl rfl).mpr fun _ => ⟨.inl (by decide), fun i e hi _ => ?_⟩
  have hentries : entriesInside (slotBlob (oneEntry 0 128)).weight 0 24 = [(0, 0, 128)] := rfl
  have he : e ∈ [((0, 0, 128) : UInt32 × UInt32 × UInt32)] := List.mem_of_getElem? (hentries ▸ hi)
  obtain rfl := List.mem_singleton.mp he
  decide

/-- The place of a temp wraps around: the sum is 128, and the temp is installed 4 GiB behind. -/
theorem wrappedEntry_not_safe : ¬ LoadsSafely grantingEnv (slotBlob (oneEntry 0xFFFFFF80 256))
    ⟨24, 0, 0, wtSlotTempoff⟩ coldState := by
  intro h
  have hreach : Reached grantingEnv (oneEntry 0xFFFFFF80 256) 0 24 0 := by
    refine ⟨by decide, by decide, by decide, by decide, rfl⟩
  have hfits := h.fits hreach (0, 0xFFFFFF80, 256) ⟨0, by decide, ⟨_, rfl⟩, rfl⟩
  unfold EntryFits at hfits
  revert hfits
  decide

end Gehtp.Analysis.TempoffLoad
