import Gehtp.Model.KvDecode
import Gehtp.Analysis.KvcacheMap

/-!
# The KV state over the steps of a decode

A step appends a row with the automatic position and gathers the state. As long as the state has
slots, the step succeeds and the faces hold the rows of all steps, each kv head repeated for its
query heads, and zeros behind them. When the slots are used up, the next append is refused and
changes nothing.
-/

set_option autoImplicit false

namespace Gehtp.Analysis.KvRing

open Lib Lib.Machine Lib.Memory Model.Kvcache Model.KvDecode Analysis.KvcacheMap

/-! ### The stores to a temp -/

/-- A memory after some stores, in their order. -/
def stores (f : ℕ → UInt16) (l : List (ℕ × UInt16)) : ℕ → UInt16 :=
  l.foldl (fun f w => Function.update f w.1 w.2) f

theorem stores_append (f : ℕ → UInt16) (l l' : List (ℕ × UInt16)) :
    stores (stores f l) l' = stores f (l ++ l') := by
  simp [stores]

variable {f : ℕ → UInt16} {i j n h p : ℕ} {env : KvEnv} {d d' : KvDevice} {stateRef : UInt32}
  {c : Kvc} {temps temps' : ℕ → Option TempBuf}

/-- A place that no store names keeps its value. -/
theorem stores_of_notMem {l : List (ℕ × UInt16)} {x : ℕ} (h : ∀ w ∈ l, w.1 ≠ x) :
    stores f l x = f x := by
  induction l generalizing f with
  | nil => rfl
  | cons w l ih =>
    have hne : x ≠ w.1 := (h w List.mem_cons_self).symm
    show stores (Function.update f w.1 w.2) l x = f x
    rw [ih fun w' hw' => h w' (List.mem_cons_of_mem _ hw'), Function.update_of_ne hne]

/-- A place whose stores agree holds their value. -/
theorem stores_of_mem {l : List (ℕ × UInt16)} {x : ℕ} {v : UInt16} (hmem : (x, v) ∈ l)
    (h : ∀ w ∈ l, w.1 = x → w.2 = v) : stores f l x = v := by
  induction l using List.reverseRecOn with
  | nil => cases hmem
  | append_singleton l w ih =>
    rw [← stores_append]
    show Function.update (stores f l) w.1 w.2 x = v
    by_cases hw : x = w.1
    · subst hw
      rw [Function.update_self]
      exact h w (by simp) rfl
    · rw [Function.update_of_ne hw]
      apply ih
      · rcases List.mem_append.mp hmem with hl | hl
        · exact hl
        · rw [List.mem_singleton] at hl
          exact absurd (congrArg Prod.fst hl) hw
      · exact fun w' hw' => h w' (List.mem_append_left _ hw')

/-- The stores of a list that go to the temp `t`. -/
def faceStores (t : ℕ) (l : List FaceStore) : List (ℕ × UInt16) :=
  l.filterMap fun w => if w.face = t then some (w.idx, w.val) else none

/-- There is a buffer for the store, and it is inside. -/
def InRange (temps : ℕ → Option TempBuf) (w : FaceStore) : Prop :=
  ∃ buf, temps w.face = some buf ∧ 2 * w.idx + 2 ≤ buf.bytes.toNat

/-- One store goes through exactly if it is in range, and touches its own face only. -/
theorem storeTo_eq_ok {w : FaceStore} :
    storeTo temps w = .ok temps' ↔ InRange temps w ∧ ∀ t, temps' t = (temps t).map fun buf =>
      { buf with mem := stores buf.mem (faceStores t [w]) } := by
  unfold storeTo InRange
  cases hbuf : temps w.face with
  | none => simp
  | some buf =>
    have hmap : Function.update temps w.face
        (some { buf with mem := Function.update buf.mem w.idx w.val }) = fun t =>
          (temps t).map fun buf => { buf with mem := stores buf.mem (faceStores t [w]) } := by
      funext t
      by_cases ht : t = w.face
      · subst ht
        rw [Function.update_self, hbuf]
        simp [faceStores, stores]
      · have hne : w.face ≠ t := fun he => ht he.symm
        rw [Function.update_of_ne ht]
        cases temps t with
        | none => rfl
        | some b => simp [faceStores, stores, hne]
    simp only [hmap]
    by_cases hin : 2 * w.idx + 2 ≤ buf.bytes.toNat
    · rw [if_pos hin]
      simp only [Except.ok.injEq, Option.some.injEq, exists_eq_left', hin, true_and]
      exact eq_comm.trans funext_iff
    · rw [if_neg hin]
      simp [hin]

/-- Stores to temps succeed exactly if each is inside its buffer, and then each temp has the stores
that go to it. -/
theorem foldlM_storeTo_eq_ok {l : List FaceStore} :
    l.foldlM storeTo temps = .ok temps' ↔ (∀ w ∈ l, InRange temps w) ∧
      ∀ t, temps' t = (temps t).map fun buf =>
        { buf with mem := stores buf.mem (faceStores t l) } := by
  induction l generalizing temps with
  | nil =>
    have hid : ∀ t, (temps t).map (fun buf => { buf with mem := stores buf.mem (faceStores t []) }) =
        temps t := fun t => by cases temps t <;> rfl
    simp only [List.foldlM_nil, List.not_mem_nil, false_implies, implies_true, true_and, hid]
    exact ⟨fun h t => by cases h; rfl, fun h => congrArg Except.ok (funext fun t => (h t).symm)⟩
  | cons w l ih =>
    have hrange : ∀ {temps₁ : ℕ → Option TempBuf}, (∀ t, temps₁ t = (temps t).map fun buf =>
        { buf with mem := stores buf.mem (faceStores t [w]) }) →
          ∀ w', InRange temps₁ w' ↔ InRange temps w' := by
      intro temps₁ h₁ w'
      unfold InRange
      rw [h₁]
      cases temps w'.face <;> simp
    have hall : ∀ {temps₁ : ℕ → Option TempBuf}, (∀ t, temps₁ t = (temps t).map fun buf =>
        { buf with mem := stores buf.mem (faceStores t [w]) }) → ∀ t,
          (temps₁ t).map (fun buf => { buf with mem := stores buf.mem (faceStores t l) }) =
            (temps t).map fun buf => { buf with mem := stores buf.mem (faceStores t (w :: l)) } := by
      intro temps₁ h₁ t
      have hsplit : faceStores t (w :: l) = faceStores t [w] ++ faceStores t l := by
        show faceStores t ([w] ++ l) = _
        exact List.filterMap_append
      rw [h₁, Option.map_map, hsplit]
      simp only [← stores_append]
      rfl
    rw [List.foldlM_cons, Lib.bind_eq_ok]
    constructor
    · rintro ⟨temps₁, hw, hl⟩
      obtain ⟨hin, h₁⟩ := storeTo_eq_ok.mp hw
      obtain ⟨hrest, h₂⟩ := ih.mp hl
      refine ⟨fun w' hw' => ?_, fun t => (h₂ t).trans (hall h₁ t)⟩
      cases List.mem_cons.mp hw' with
      | inl he => exact he ▸ hin
      | inr hm => exact (hrange h₁ w').mp (hrest w' hm)
    · rintro ⟨hin, h⟩
      refine ⟨_, storeTo_eq_ok.mpr ⟨hin w List.mem_cons_self, fun t => rfl⟩, ih.mpr ⟨?_, ?_⟩⟩
      · intro w' hw'
        exact (hrange (fun t => rfl) w').mpr (hin w' (List.mem_cons_of_mem _ hw'))
      · intro t
        rw [h t]
        exact (hall (fun t => rfl) t).symm

/-- A run of stores changes nothing but the temps. -/
theorem storeAll_eq_ok {l : List FaceStore} :
    storeAll l d = (.ok (), d') ↔ ∃ temps', l.foldlM storeTo d.temps = .ok temps' ∧
      d' = { d with temps := temps' } := by
  unfold storeAll
  split
  · rename_i e he
    simp [he]
  · rename_i temps' ht
    simp only [ht, Prod.mk.injEq, true_and, Except.ok.injEq, exists_eq_left', eq_comm]

/-- A row and a column are told by the place in the grid. -/
theorem grid_inj {a b m : ℕ} (hi : i < m) (hj : j < m) (h : a * m + i = b * m + j) :
    a = b ∧ i = j := by
  have hm : 0 < m := by omega
  have hdiv := congrArg (· / m) h
  have hmod := congrArg (· % m) h
  simp only [Nat.mul_comm _ m, Nat.mul_add_div hm, Nat.div_eq_of_lt hi, Nat.div_eq_of_lt hj,
    Nat.add_zero, Nat.mul_add_mod, Nat.mod_eq_of_lt hi, Nat.mod_eq_of_lt hj] at hdiv hmod
  exact ⟨hdiv, hmod⟩

theorem toNat_ofNat32 (h : n < 2 ^ 32) : (UInt32.ofNat n).toNat = n :=
  UInt32.toNat_ofNat_of_lt' h

/-! ### Geometry -/

/-- The slots of a KV state as the device lays them out. -/
structure Slots where
  bytes : ℕ
  count : ℕ
  bytes_ge : 256 ≤ bytes
  align : bytes % 128 = 0
  count_pos : 0 < count
  fits : count * bytes < 2 ^ 32

namespace Slots

variable (s : Slots)

theorem bytes_lt : s.bytes < 2 ^ 32 :=
  Nat.lt_of_le_of_lt (Nat.le_mul_of_pos_left _ s.count_pos) s.fits

theorem count_lt : s.count * 256 < 2 ^ 32 :=
  Nat.lt_of_le_of_lt (Nat.mul_le_mul_left _ s.bytes_ge) s.fits

def bytes32 : UInt32 := UInt32.ofNat s.bytes

def count32 : UInt32 := UInt32.ofNat s.count

theorem bytes32_toNat : s.bytes32.toNat = s.bytes := toNat_ofNat32 s.bytes_lt

theorem count32_toNat : s.count32.toNat = s.count := by
  have h := s.count_lt
  exact toNat_ofNat32 (by omega)

theorem count32_ne : s.count32 ≠ 0 := by
  intro h
  have hz := congrArg UInt32.toNat h
  rw [count32_toNat] at hz
  exact absurd hz (Nat.ne_of_gt s.count_pos)

theorem elems_ne {elems : UInt32} (h : elems * 2 * 2 = s.bytes32) : elems ≠ 0 := by
  rintro rfl
  have hz := congrArg UInt32.toNat h
  have hge := s.bytes_ge
  rw [bytes32_toNat] at hz
  change 0 = _ at hz
  omega

end Slots

/-- The shape of a KV state and of its gathers. -/
structure Geometry extends Slots where
  kvHeads : ℕ
  hd : ℕ
  nHeads : ℕ
  kvHeads_pos : 0 < kvHeads
  hd_pos : 0 < hd
  nHeads_pos : 0 < nHeads
  divides : nHeads % kvHeads = 0
  nHeads_lt : nHeads < 2 ^ 32
  bytes_eq : bytes = kvHeads * hd * 4

namespace Geometry

variable (g : Geometry)

def rowElems : ℕ := g.kvHeads * g.hd

def rep : ℕ := g.nHeads / g.kvHeads

/-- The faces of the state. -/
def shape : FaceShape := ⟨g.nHeads, g.rep, g.hd, g.count⟩

theorem rowElems_lt : g.rowElems < 2 ^ 32 := by
  have h := g.bytes_lt
  rw [g.bytes_eq] at h
  unfold rowElems
  omega

theorem kvHeads_le : g.kvHeads ≤ g.rowElems := Nat.le_mul_of_pos_right _ g.hd_pos

theorem hd_le : g.hd ≤ g.rowElems := Nat.le_mul_of_pos_left _ g.kvHeads_pos

theorem kvHeads_le_nHeads : g.kvHeads ≤ g.nHeads :=
  Nat.le_of_dvd g.nHeads_pos (Nat.dvd_of_mod_eq_zero g.divides)

theorem head_lt (hh : h < g.nHeads) : h / g.rep < g.kvHeads := by
  have hrep : g.kvHeads * g.rep = g.nHeads :=
    Nat.mul_div_cancel' (Nat.dvd_of_mod_eq_zero g.divides)
  rw [Nat.div_lt_iff_lt_mul]
  · rw [hrep]
    exact hh
  · unfold rep
    exact Nat.div_pos g.kvHeads_le_nHeads g.kvHeads_pos

/-- The elements of a head are inside the row. -/
theorem head_in_row (hh : h < g.nHeads) (hj : j < g.hd) : h / g.rep * g.hd + j < g.rowElems := by
  have hle : (h / g.rep + 1) * g.hd ≤ g.kvHeads * g.hd := Nat.mul_le_mul_right _ (g.head_lt hh)
  rw [Nat.succ_mul] at hle
  unfold rowElems
  omega

theorem headStart_eq (hh : h < g.nHeads) : headStart g.rep g.hd h = h / g.rep * g.hd := by
  apply Nat.mod_eq_of_lt
  have hrow := g.head_in_row hh g.hd_pos
  have hlt := g.rowElems_lt
  omega

def elems32 : UInt32 := UInt32.ofNat g.rowElems

theorem slot_of_elems : g.elems32 * 2 * 2 = g.bytes32 := by
  apply UInt32.toNat_inj.mp
  have hlt := g.bytes_lt
  have hrow : g.bytes = g.rowElems * 4 := g.bytes_eq
  have helems : g.elems32.toNat = g.rowElems := toNat_ofNat32 g.rowElems_lt
  simp only [UInt32.toNat_mul, helems, Slots.bytes32_toNat, UInt32.reduceToNat]
  omega

theorem elems_of_heads : UInt32.ofNat g.kvHeads * UInt32.ofNat g.hd = g.elems32 := by
  apply UInt32.toNat_inj.mp
  have hlt := g.rowElems_lt
  have hk := g.kvHeads_le
  have hh := g.hd_le
  have helems : g.elems32.toNat = g.rowElems := toNat_ofNat32 g.rowElems_lt
  rw [UInt32.toNat_mul, helems, toNat_ofNat32 (by omega), toNat_ofNat32 (by omega)]
  exact Nat.mod_eq_of_lt hlt

end Geometry

/-! ### The rows of the steps -/

/-- The K row and the V row of a step. -/
structure Row where
  k : ℕ → UInt16
  v : ℕ → UInt16

/-- The write of the row for position `p`, which goes to slot `p`. -/
def rowWrite (row : Row) (p : ℕ) : KvWrite :=
  ⟨UInt32.ofNat p, UInt32.ofNat p, bytesOf row.k, bytesOf row.v⟩

def rowWrites (rows : List Row) : List KvWrite := rows.zipIdx.map fun e => rowWrite e.1 e.2

theorem rowWrites_concat (rows : List Row) (row : Row) :
    rowWrites (rows ++ [row]) = rowWrites rows ++ [rowWrite row rows.length] := by
  simp [rowWrites, List.zipIdx_append]

variable {rows : List Row}

theorem lastTo_rowWrites {row : Row} (hlen : rows.length ≤ 2 ^ 32) (h : rows[p]? = some row) :
    lastTo (rowWrites rows) (UInt32.ofNat p) = some (rowWrite row p) := by
  induction rows using List.reverseRecOn with
  | nil => cases h
  | append_singleton rows last ih =>
    rw [List.length_append, List.length_singleton] at hlen
    rw [rowWrites_concat, lastTo_concat]
    have hp := (List.getElem?_eq_some_iff.mp h).1
    rw [List.length_append, List.length_singleton] at hp
    by_cases hpe : p = rows.length
    · subst hpe
      rw [List.getElem?_concat_length] at h
      cases h
      exact if_pos rfl
    · have hlt : p < rows.length := by omega
      have hne : (rowWrite last rows.length).slot ≠ UInt32.ofNat p := by
        intro he
        have hnat := congrArg UInt32.toNat he
        unfold rowWrite at hnat
        rw [toNat_ofNat32 (by omega), toNat_ofNat32 (by omega)] at hnat
        exact hpe hnat.symm
      rw [if_neg hne]
      rw [List.getElem?_append_left hlt] at h
      exact ih (by omega) h

theorem elemAt_of_cells {mem : ℕ → UInt8} {a : ℕ}
    (h : cells mem a (2 * n) = cells (bytesOf f) 0 (2 * n)) (hj : j < n) :
    elemAt mem a j = f j := by
  have hcell := cells_eq_iff.mp h
  have hlo := hcell (2 * j) (by omega)
  have hhi := hcell (2 * j + 1) (by omega)
  have heven : bytesOf f (2 * j) = (f j).toUInt8 := by
    have hmod : 2 * j % 2 = 0 := by omega
    have hdiv : 2 * j / 2 = j := by omega
    rw [bytesOf, if_pos hmod, hdiv]
  have hodd : bytesOf f (2 * j + 1) = (f j >>> 8).toUInt8 := by
    have hmod : ¬ (2 * j + 1) % 2 = 0 := by omega
    have hdiv : (2 * j + 1) / 2 = j := by omega
    rw [bytesOf, if_neg hmod, hdiv]
  unfold elemAt
  rw [hlo, Nat.add_assoc, hhi, Nat.zero_add, Nat.zero_add, heven, hodd]
  exact u16OfBytes_u16le (f j)

/-! ### The state -/

/-- The state `i` after the rows. Before its first use it has no cache. -/
structure HoldsRows (s : Slots) (i : ℕ) (rows : List Row) (d : KvDevice) : Prop where
  idx : i < d.nStates
  addr : d.stAddr i % 128 = 0
  bytes : (d.stBytes i).toNat = s.count * s.bytes
  count : d.stCount i = UInt32.ofNat rows.length
  cache : (d.stKvc i = none ∧ rows = []) ∨
    ∃ c, d.stKvc i = some c ∧ Tracks s.bytes32 s.count32 (rowWrites rows) c

/-- The allocators grant what they are asked for. -/
structure Grants (env : KvEnv) : Prop where
  posmap : ∀ n, ∃ m, env.posmap n = some m
  pool : ∀ n, ∃ f, env.pool n = some f

variable {s : Slots}

theorem goodGeometry_of {addr : ℕ} (h : addr % 128 = 0) : goodGeometry addr s.bytes32 = true := by
  unfold goodGeometry
  rw [s.bytes32_toNat]
  have hge := s.bytes_ge
  have halign := s.align
  simp only [Bool.and_eq_true, decide_eq_true_eq]
  omega

/-- The first step lays the cache out, without a row. -/
theorem layOut_eq (henv : Grants env) (h : HoldsRows s i [] d) :
    ∃ c, layOut env i s.bytes32 d =
        (.ok c, { d with stKvc := Function.update d.stKvc i (some c) }) ∧
      Tracks s.bytes32 s.count32 [] c := by
  have hdiv : d.stBytes i / s.bytes32 = s.count32 := by
    apply UInt32.toNat_inj.mp
    rw [UInt32.toNat_div, h.bytes, s.bytes32_toNat, s.count32_toNat]
    have hge := s.bytes_ge
    exact Nat.mul_div_cancel _ (by omega)
  have hguard : 256 ≤ s.bytes32.toNat ∧ s.bytes32.toNat % 128 = 0 ∧
      (d.stBytes i).toNat % s.bytes32.toNat = 0 := by
    rw [s.bytes32_toNat, h.bytes]
    exact ⟨s.bytes_ge, s.align, Nat.mul_mod_left _ _⟩
  obtain ⟨posmap, hposmap⟩ := henv.posmap s.count32
  have hinit : kvcInit (d.stAddr i) (d.stBuf i) s.bytes32 s.count32 posmap = some _ :=
    if_pos (goodGeometry_of h.addr)
  refine ⟨_, ?_, kvcInit_tracks hinit⟩
  unfold layOut
  rw [read_id_bind, bind_apply_ok (guard_of hguard _ d)]
  simp only [hdiv, hposmap, hinit]
  rfl

/-- A reference to the state `i`. -/
def RefersTo (stateRef : UInt32) (i : ℕ) : Prop :=
  stateRef &&& 0xE000 = 0x6000 ∧ (stateRef &&& 0x1FFF).toNat = i

/-- Any step finds the cache of the state, with the rows appended so far. -/
theorem stateKvc_eq (henv : Grants env) (h : HoldsRows s i rows d) (href : RefersTo stateRef i)
    {elems : UInt32} (helems : elems * 2 * 2 = s.bytes32) :
    ∃ c, stateKvc env stateRef elems d =
        (.ok (i, c), { d with stKvc := Function.update d.stKvc i (some c) }) ∧
      Tracks s.bytes32 s.count32 (rowWrites rows) c ∧ ∀ c₁, d.stKvc i = some c₁ → c₁ = c := by
  obtain ⟨hflag, hidx⟩ := href
  have hin : (stateRef &&& 0x1FFF).toNat < d.nStates := by
    rw [hidx]
    exact h.idx
  unfold stateKvc
  rw [bind_apply_ok (guard_of hflag _ d), read_id_bind, bind_apply_ok (guard_of hin _ d)]
  rw [hidx, helems]
  rcases h.cache with ⟨hnone, rfl⟩ | ⟨c, hc, htracks⟩
  · obtain ⟨c, hlay, htracks⟩ := layOut_eq henv h
    refine ⟨c, ?_, htracks, fun c₁ hc₁ => by rw [hnone] at hc₁; cases hc₁⟩
    simp only [hnone]
    rw [bind_apply_ok hlay]
    rfl
  · refine ⟨c, ?_, htracks, fun c₁ hc₁ => Option.some.inj (hc₁.symm.trans hc)⟩
    simp only [hc]
    rw [bind_apply_ok (guard_of htracks.slotBytes_eq _ d), ← hc, Function.update_eq_self]
    rfl

/-! ### An append -/

/-- The reference to a row of the state. -/
def rowRef (elems : UInt32) (f : ℕ → UInt16) : RowRef := ⟨some f, elems⟩

theorem ofNat_mod_count (hp : p < s.count) : UInt32.ofNat p % s.count32 = UInt32.ofNat p := by
  have hlt := s.count_lt
  apply UInt32.toNat_inj.mp
  rw [UInt32.toNat_mod, s.count32_toNat, toNat_ofNat32 (by omega), Nat.mod_eq_of_lt hp]

theorem toInt32_nonneg (hp : p < 2 ^ 31) : (0 : Int32) ≤ (UInt32.ofNat p).toInt32 := by
  have hnat : (UInt32.ofNat p).toBitVec.toNat = p := toNat_ofNat32 (by omega)
  have hint : (UInt32.ofNat p).toInt32.toInt = p := by
    show (UInt32.ofNat p).toBitVec.toInt = p
    rw [BitVec.toInt_eq_toNat_of_lt (by omega), hnat]
  rw [Int32.le_iff_toInt_le, hint]
  exact Int.natCast_nonneg p

/-- The device's count is below its slots exactly while the ring has a free one. -/
theorem count_lt_iff (h : HoldsRows s i rows d) (hlen : rows.length ≤ s.count)
    (hc : c.nslots = s.count32) : d.stCount i < c.nslots ↔ rows.length < s.count := by
  have hlt := s.count_lt
  rw [hc, h.count, UInt32.lt_iff_toNat_lt, s.count32_toNat, toNat_ofNat32 (by omega)]

/-- A state with a free slot takes the row, and the temps are as before. -/
theorem append_eq (henv : Grants env) (h : HoldsRows s i rows d) (href : RefersTo stateRef i)
    {elems : UInt32} (helems : elems * 2 * 2 = s.bytes32) (row : Row)
    (hlen : rows.length < s.count) :
    ∃ d', execKvAppend env (rowRef elems row.k) (rowRef elems row.v) stateRef wtKvPosAuto d =
        (.ok (), d') ∧ HoldsRows s i (rows ++ [row]) d' ∧ d'.temps = d.temps := by
  obtain ⟨c, hkvc, htracks, -⟩ := stateKvc_eq henv h href helems
  have hlt := s.count_lt
  have hroom : d.stCount i < c.nslots := (count_lt_iff h hlen.le htracks.nslots_eq).mpr hlen
  have hpos : appendPos i c wtKvPosAuto { d with stKvc := Function.update d.stKvc i (some c) } =
      (.ok (UInt32.ofNat rows.length), { d with
        stKvc := Function.update d.stKvc i (some c)
        stCount := Function.update d.stCount i (d.stCount i + 1) }) := by
    unfold appendPos
    rw [if_pos rfl, read_id_bind, bind_apply_ok (guard_of hroom _ _), ← h.count]
    rfl
  obtain ⟨c', happ, htracks'⟩ := kvcAppend_tracks s.count32_ne htracks (bytesOf row.k)
    (bytesOf row.v) (UInt32.ofNat rows.length)
  rw [ofNat_mod_count hlen] at happ htracks'
  have hslot : (0 : Int32) ≤ (UInt32.ofNat rows.length).toInt32 := toInt32_nonneg (by omega)
  refine ⟨{ d with
    stKvc := Function.update (Function.update d.stKvc i (some c)) i (some c')
    stCount := Function.update d.stCount i (d.stCount i + 1) }, ?_, ?_, rfl⟩
  · unfold execKvAppend rowRef
    simp only
    rw [bind_apply_ok (guard_of ⟨s.elems_ne helems, rfl⟩ _ d), bind_apply_ok hkvc]
    simp only
    rw [bind_apply_ok hpos]
    simp only [happ]
    exact guard_of hslot _ _
  · refine ⟨h.idx, h.addr, h.bytes, ?_, .inr ⟨c', Function.update_self _ _ _, ?_⟩⟩
    · show Function.update d.stCount i (d.stCount i + 1) i = _
      rw [Function.update_self, h.count, List.length_append, List.length_singleton,
        UInt32.ofNat_add]
      rfl
    · rw [rowWrites_concat]
      exact htracks'

/-- A full state refuses the row and is left as it is. -/
theorem append_full (henv : Grants env) (h : HoldsRows s i rows d) (href : RefersTo stateRef i)
    {elems : UInt32} (helems : elems * 2 * 2 = s.bytes32) (row : Row)
    (hlen : rows.length = s.count) :
    execKvAppend env (rowRef elems row.k) (rowRef elems row.v) stateRef wtKvPosAuto d =
      (.error (.reject "kv append state %u count=%u >= nslots=%u (ctx 太长)"), d) := by
  obtain ⟨c, hkvc, htracks, hsame⟩ := stateKvc_eq henv h href helems
  have hfull : ¬ d.stCount i < c.nslots := by
    rw [count_lt_iff h hlen.le htracks.nslots_eq]
    omega
  have hready : d.stKvc i = some c := by
    rcases h.cache with ⟨-, rfl⟩ | ⟨c₁, hc₁, -⟩
    · exact absurd hlen (Nat.ne_of_lt s.count_pos)
    · rw [hc₁, hsame c₁ hc₁]
  rw [← hready, Function.update_eq_self] at hkvc
  unfold execKvAppend rowRef
  simp only
  rw [bind_apply_ok (guard_of ⟨s.elems_ne helems, rfl⟩ _ d), bind_apply_ok hkvc]
  simp only
  apply bind_apply_error
  unfold appendPos
  rw [if_pos rfl, read_id_bind]
  exact bind_apply_error (guard_of_not hfull _ d)

/-! ### A gather -/

/-- Each position appended is found in the slot of its number. -/
theorem lookup_row (h : Tracks s.bytes32 s.count32 (rowWrites rows) c)
    (hlen : rows.length ≤ s.count) (hp : p < rows.length) :
    kvcLookup c (UInt32.ofNat p) = .ok (UInt32.ofNat p).toInt32 := by
  have hlt := s.count_lt
  have hrow : rows[p]? = some rows[p] := List.getElem?_eq_getElem hp
  have hlast := lastTo_rowWrites (by omega) hrow
  have hin : UInt32.ofNat p < s.count32 := by
    rw [UInt32.lt_iff_toNat_lt, s.count32_toNat, toNat_ofNat32 (by omega)]
    omega
  have hposmap := h.posmap _ hin
  rw [hlast] at hposmap
  unfold kvcLookup
  rw [homeSlot_eq (h.nslots_eq ▸ s.count32_ne), h.nslots_eq, ofNat_mod_count (by omega)]
  show Except.ok (if c.posmap (UInt32.ofNat p).toNat = UInt32.ofNat p then _ else _) = _
  rw [hposmap]
  exact congrArg Except.ok (if_pos rfl)

/-- Up to the faces, a gather of a state with rows finds them in order. -/
theorem gather_eq (henv : Grants env) (h : HoldsRows s i rows d) (href : RefersTo stateRef i)
    (kOut vOut : UInt32) {nHeads kvHeads hd : UInt32}
    (hheads : nHeads ≠ 0 ∧ kvHeads ≠ 0 ∧ hd ≠ 0 ∧ nHeads % kvHeads = 0)
    (helems : kvHeads * hd * 2 * 2 = s.bytes32) (hne : rows ≠ []) (hlen : rows.length ≤ s.count) :
    ∃ c, Tracks s.bytes32 s.count32 (rowWrites rows) c ∧
      execKvGather env stateRef kOut vOut wtKvPosAuto nHeads kvHeads hd d =
        writeFaces env c kOut vOut ⟨nHeads.toNat, (nHeads / kvHeads).toNat, hd.toNat, s.count⟩
          rows.length { d with stKvc := Function.update d.stKvc i (some c) } := by
  obtain ⟨c, hkvc, htracks, -⟩ := stateKvc_eq henv h href helems
  have hlt := s.count_lt
  have hcount : d.stCount i ≠ 0 ∧ d.stCount i ≤ c.nslots := by
    have hpos : 0 < rows.length := List.length_pos_iff.mpr hne
    rw [h.count, htracks.nslots_eq, UInt32.le_iff_toNat_le, s.count32_toNat, ne_eq,
      ← UInt32.toNat_inj, toNat_ofNat32 (by omega)]
    exact ⟨hpos.ne', hlen⟩
  have hn : (d.stCount i).toNat = rows.length := by
    rw [h.count]
    exact toNat_ofNat32 (by omega)
  have hspan : gatherSpan i c wtKvPosAuto { d with stKvc := Function.update d.stKvc i (some c) } =
      (.ok (d.stCount i, c.nslots), { d with stKvc := Function.update d.stKvc i (some c) }) := by
    unfold gatherSpan
    rw [if_pos rfl, read_id_bind, bind_apply_ok (guard_of hcount _ _)]
    rfl
  have hnslots : c.nslots.toNat = s.count := by
    rw [htracks.nslots_eq, s.count32_toNat]
  refine ⟨c, htracks, ?_⟩
  unfold execKvGather
  rw [bind_apply_ok (guard_of hheads _ d), bind_apply_ok hkvc]
  simp only
  rw [bind_apply_ok hspan]
  simp only [hnslots, hn]

/-! ### The faces -/

section Faces

variable {t bytes kOut vOut : UInt32} {sh : FaceShape}

/-- What room for a temp leaves behind. -/
structure MadeRoom (t bytes : UInt32) (d d' : KvDevice) : Prop where
  same : t = 0 → d' = d
  others : ∀ x ≠ t.toNat, d'.temps x = d.temps x
  rest : d' = { d with temps := d'.temps }
  room : t ≠ 0 → ∃ buf, d'.temps t.toNat = some buf ∧ bytes ≤ buf.bytes
  fresh : t ≠ 0 → d.temps t.toNat = none → ∃ mem, d'.temps t.toNat = some ⟨mem, bytes⟩

/-- A face with an id of the table is granted when memory is. -/
theorem faceGet_of_lt (henv : Grants env) (ht : t.toNat < maxTemps) :
    ∃ d', faceGet env t bytes d = (.ok true, d') := by
  unfold faceGet
  split
  · exact ⟨d, rfl⟩
  · unfold tempGet
    rw [if_neg (not_le.mpr ht), read_id_bind]
    split
    · exact ⟨d, rfl⟩
    · obtain ⟨mem, hmem⟩ := henv.pool bytes
      rw [hmem]
      exact ⟨_, rfl⟩

/-- A face that is granted has an id of the table and room for its bytes. -/
theorem madeRoom_of_faceGet (h : faceGet env t bytes d = (.ok true, d')) :
    (t ≠ 0 → t.toNat < maxTemps) ∧ MadeRoom t bytes d d' := by
  unfold faceGet at h
  split at h
  · rename_i ht
    cases h
    exact ⟨fun hne => absurd ht hne, fun _ => rfl, fun _ _ => rfl, rfl, fun hne => absurd ht hne,
      fun hne => absurd ht hne⟩
  · rename_i hne
    have hsame : t = 0 → d' = d := fun ht => absurd ht hne
    unfold tempGet at h
    split at h
    · cases h
    · rename_i hlt
      refine ⟨fun _ => not_le.mp hlt, ?_⟩
      rw [read_id_bind] at h
      split at h
      · rename_i hany
        cases h
        obtain ⟨buf, hbuf, hle⟩ := (Option.any_eq_true _ _).mp hany
        refine ⟨hsame, fun _ _ => rfl, rfl, fun _ => ⟨buf, hbuf, of_decide_eq_true hle⟩,
          fun _ hnone => ?_⟩
        rw [hnone] at hbuf
        cases hbuf
      · cases hmem : env.pool bytes with
        | none =>
          rw [hmem] at h
          cases h
        | some mem =>
          rw [hmem] at h
          cases h
          exact ⟨hsame, fun x hx => Function.update_of_ne hx _ _, rfl,
            fun _ => ⟨_, Function.update_self _ _ _, UInt32.le_refl _⟩,
            fun _ _ => ⟨mem, Function.update_self _ _ _⟩⟩

/-- All stores of a gather of `n` positions. -/
def gatherStores (c : Kvc) (kOut vOut : UInt32) (sh : FaceShape) (n : ℕ) : List FaceStore :=
  (List.range n).flatMap fun p => posStores c kOut vOut sh p p

def clearStores (kOut vOut : UInt32) (sh : FaceShape) (n : ℕ) : List FaceStore :=
  if n < sh.pstride then onFace kOut (zeros sh.size) ++ onFace vOut (zeros sh.size) else []

/-- The gather goes through exactly if its stores do. -/
theorem collect_gatherPos {ps : List ℕ} (hps : ∀ p ∈ ps, p < 2 ^ 31)
    (hfound : ∀ p ∈ ps, kvcLookup c (UInt32.ofNat p) = .ok (UInt32.ofNat p).toInt32) :
    (∃ us, collect (gatherPos c kOut vOut sh) ps d = (.ok us, d')) ↔
      storeAll (ps.flatMap fun p => posStores c kOut vOut sh p p) d = (.ok (), d') := by
  induction ps generalizing d with
  | nil =>
    constructor
    · rintro ⟨us, h⟩
      cases h
      rfl
    · intro h
      cases h
      exact ⟨[], rfl⟩
  | cons p ps ih =>
    have hstep : gatherPos c kOut vOut sh p = storeAll (posStores c kOut vOut sh p p) := by
      have hslot := @toInt32_nonneg p (hps p List.mem_cons_self)
      have hlt := hps p List.mem_cons_self
      unfold gatherPos
      rw [hfound p List.mem_cons_self]
      simp only
      rw [if_neg (Int32.not_lt.mpr hslot), UInt32.toUInt32_toInt32, toNat_ofNat32 (by omega)]
    have ih' := fun {d₁ : KvDevice} => @ih d₁ (fun q hq => hps q (List.mem_cons_of_mem _ hq))
      fun q hq => hfound q (List.mem_cons_of_mem _ hq)
    rw [List.flatMap_cons, storeAll_eq_ok]
    simp only [List.foldlM_append, Lib.bind_eq_ok]
    constructor
    · rintro ⟨us, h⟩
      unfold collect at h
      rw [hstep] at h
      obtain ⟨_, d₁, h₁, h⟩ := Machine.bind_eq_ok h
      obtain ⟨us₁, d₂, h₂, h⟩ := Machine.bind_eq_ok h
      cases h
      obtain ⟨temps₁, hfirst, rfl⟩ := storeAll_eq_ok.mp h₁
      obtain ⟨temps₂, hrest, rfl⟩ := storeAll_eq_ok.mp (ih'.mp ⟨us₁, h₂⟩)
      exact ⟨temps₂, ⟨temps₁, hfirst, hrest⟩, rfl⟩
    · rintro ⟨temps₂, ⟨temps₁, hfirst, hrest⟩, rfl⟩
      have h₁ : storeAll (posStores c kOut vOut sh p p) d = (.ok (), { d with temps := temps₁ }) :=
        storeAll_eq_ok.mpr ⟨temps₁, hfirst, rfl⟩
      have h₂ : storeAll (ps.flatMap fun p => posStores c kOut vOut sh p p)
          { d with temps := temps₁ } = (.ok (), { d with temps := temps₂ }) :=
        storeAll_eq_ok.mpr ⟨temps₂, hrest, rfl⟩
      obtain ⟨us, hus⟩ := ih'.mpr h₂
      refine ⟨() :: us, ?_⟩
      unfold collect
      rw [hstep, bind_apply_ok h₁, bind_apply_ok hus]
      rfl

/-- A gather of positions that are found is room for the faces and one run of stores. -/
theorem writeFaces_eq_ok (hn : n ≤ 2 ^ 31)
    (hfound : ∀ p < n, kvcLookup c (UInt32.ofNat p) = .ok (UInt32.ofNat p).toInt32) :
    writeFaces env c kOut vOut sh n d = (.ok (), d') ↔ ∃ d₁ d₂ temps',
      faceGet env kOut (UInt32.ofNat (sh.size * 2)) d = (.ok true, d₁) ∧
      faceGet env vOut (UInt32.ofNat (sh.size * 2)) d₁ = (.ok true, d₂) ∧
      (clearStores kOut vOut sh n ++ gatherStores c kOut vOut sh n).foldlM storeTo d₂.temps =
        .ok temps' ∧ d' = { d₂ with temps := temps' } := by
  have hcollect := fun {d₁ : KvDevice} => @collect_gatherPos d₁ d' c kOut vOut sh (List.range n)
    (fun p hp => lt_of_lt_of_le (List.mem_range.mp hp) hn) fun p hp => hfound p (List.mem_range.mp hp)
  simp only [List.foldlM_append, Lib.bind_eq_ok]
  constructor
  · intro h
    unfold writeFaces at h
    obtain ⟨kT, d₁, hk, h⟩ := Machine.bind_eq_ok h
    obtain ⟨vo, d₂, hv, h⟩ := Machine.bind_eq_ok h
    obtain ⟨_, d₃, hguard, h⟩ := Machine.bind_eq_ok h
    obtain ⟨rfl, rfl⟩ := of_guard hguard
    rw [guard_of ⟨rfl, rfl⟩] at hguard
    cases hguard
    obtain ⟨_, d₄, hclear, h⟩ := Machine.bind_eq_ok h
    obtain ⟨us, d₅, hloop, h⟩ := Machine.bind_eq_ok h
    cases h
    obtain ⟨temps₁, hc₁, rfl⟩ := storeAll_eq_ok.mp hclear
    obtain ⟨temps₂, hc₂, rfl⟩ := storeAll_eq_ok.mp (hcollect.mp ⟨us, hloop⟩)
    exact ⟨d₁, d₂, temps₂, hk, hv, ⟨temps₁, hc₁, hc₂⟩, rfl⟩
  · rintro ⟨d₁, d₂, temps₂, hk, hv, ⟨temps₁, hc₁, hc₂⟩, rfl⟩
    have hclear : storeAll (clearStores kOut vOut sh n) d₂ = (.ok (), { d₂ with temps := temps₁ }) :=
      storeAll_eq_ok.mpr ⟨temps₁, hc₁, rfl⟩
    have hloop : storeAll (gatherStores c kOut vOut sh n) { d₂ with temps := temps₁ } =
        (.ok (), { d₂ with temps := temps₂ }) := storeAll_eq_ok.mpr ⟨temps₂, hc₂, rfl⟩
    obtain ⟨us, hus⟩ := hcollect.mpr hloop
    unfold writeFaces
    rw [bind_apply_ok hk, bind_apply_ok hv, bind_apply_ok (guard_of ⟨rfl, rfl⟩ _ _)]
    unfold clearStores at hclear
    rw [bind_apply_ok hclear, bind_apply_ok hus]
    rfl

def kPlace (sh : FaceShape) (h j p : ℕ) : ℕ := (h * sh.hd + j) * sh.pstride + p

def vPlace (sh : FaceShape) (h j p : ℕ) : ℕ := (h * sh.pstride + p) * sh.hd + j

theorem kPlace_lt (hh : h < sh.nHeads) (hj : j < sh.hd) (hp : p < sh.pstride) :
    kPlace sh h j p < sh.size := by
  have hrow : h * sh.hd + j < sh.nHeads * sh.hd := by
    have hle := Nat.mul_le_mul_right sh.hd hh
    rw [Nat.succ_mul] at hle
    omega
  have hle := Nat.mul_le_mul_right sh.pstride hrow
  rw [Nat.succ_mul] at hle
  unfold kPlace FaceShape.size
  omega

theorem vPlace_lt (hh : h < sh.nHeads) (hj : j < sh.hd) (hp : p < sh.pstride) :
    vPlace sh h j p < sh.size := by
  have hrow : h * sh.pstride + p < sh.nHeads * sh.pstride := by
    have hle := Nat.mul_le_mul_right sh.pstride hh
    rw [Nat.succ_mul] at hle
    omega
  have hle := Nat.mul_le_mul_right sh.hd hrow
  rw [Nat.succ_mul] at hle
  have hcomm : sh.nHeads * sh.hd * sh.pstride = sh.nHeads * sh.pstride * sh.hd := by
    rw [Nat.mul_assoc, Nat.mul_comm sh.hd, Nat.mul_assoc]
  unfold vPlace FaceShape.size
  omega

/-- No two elements of a K face share a place. -/
theorem kPlace_inj {h' j' p' : ℕ} (hj : j < sh.hd) (hp : p < sh.pstride) (hj' : j' < sh.hd)
    (hp' : p' < sh.pstride) (he : kPlace sh h j p = kPlace sh h' j' p') :
    h = h' ∧ j = j' ∧ p = p' := by
  obtain ⟨hrow, rfl⟩ := grid_inj hp hp' he
  obtain ⟨rfl, rfl⟩ := grid_inj hj hj' hrow
  exact ⟨rfl, rfl, rfl⟩

/-- Nor do two of a V face. -/
theorem vPlace_inj {h' j' p' : ℕ} (hj : j < sh.hd) (hp : p < sh.pstride) (hj' : j' < sh.hd)
    (hp' : p' < sh.pstride) (he : vPlace sh h j p = vPlace sh h' j' p') :
    h = h' ∧ j = j' ∧ p = p' := by
  obtain ⟨hrow, rfl⟩ := grid_inj hj hj' he
  obtain ⟨rfl, rfl⟩ := grid_inj hp hp' hrow
  exact ⟨rfl, rfl, rfl⟩

/-- The element `x` of the K row in slot `p`. -/
def kElem (c : Kvc) (p x : ℕ) : UInt16 := elemAt c.base (p * c.slotBytes.toNat) x

/-- The element `x` of the V row in slot `p`. -/
def vElem (c : Kvc) (p x : ℕ) : UInt16 := elemAt c.base (p * c.slotBytes.toNat + c.half) x

theorem mem_kStores {w : ℕ × UInt16} : w ∈ kStores c sh p p h ↔
    ∃ j < sh.hd, w = (kPlace sh h j p, kElem c p (headStart sh.rep sh.hd h + j)) := by
  unfold kStores kPlace kElem
  simp only [List.mem_map, List.mem_range, Nat.add_mul, Nat.add_assoc, eq_comm]

theorem mem_vStores {w : ℕ × UInt16} : w ∈ vStores c sh p p h ↔
    ∃ j < sh.hd, w = (vPlace sh h j p, vElem c p (headStart sh.rep sh.hd h + j)) := by
  unfold vStores vPlace vElem
  simp only [List.mem_map, List.mem_range, Nat.add_mul, Nat.add_assoc, eq_comm]

theorem mem_onFace {l : List (ℕ × UInt16)} {w : FaceStore} :
    w ∈ onFace t l ↔ t ≠ 0 ∧ w.face = t.toNat ∧ (w.idx, w.val) ∈ l := by
  unfold onFace
  by_cases ht : t = 0
  · simp [ht]
  · rw [if_neg ht, List.mem_map]
    constructor
    · rintro ⟨⟨x, v⟩, hxv, rfl⟩
      exact ⟨ht, rfl, hxv⟩
    · rintro ⟨-, hface, hmem⟩
      exact ⟨_, hmem, by cases w; simp_all⟩

/-- The stores of a gather: each element of each row and head, on either face. -/
theorem mem_gatherStores {w : FaceStore} : w ∈ gatherStores c kOut vOut sh n ↔
    ∃ p < n, ∃ h < sh.nHeads, ∃ j < sh.hd,
      (kOut ≠ 0 ∧ w = ⟨kOut.toNat, kPlace sh h j p, kElem c p (headStart sh.rep sh.hd h + j)⟩) ∨
        vOut ≠ 0 ∧ w = ⟨vOut.toNat, vPlace sh h j p, vElem c p (headStart sh.rep sh.hd h + j)⟩ := by
  obtain ⟨face, idx, val⟩ := w
  unfold gatherStores posStores
  simp only [List.mem_flatMap, List.mem_range, List.mem_append, mem_onFace, mem_kStores,
    mem_vStores, Prod.mk.injEq, FaceStore.mk.injEq]
  constructor
  · rintro ⟨p, hp, h, hh, ⟨hk, hface, j, hj, he⟩ | ⟨hv, hface, j, hj, he⟩⟩
    · exact ⟨p, hp, h, hh, j, hj, .inl ⟨hk, hface, he⟩⟩
    · exact ⟨p, hp, h, hh, j, hj, .inr ⟨hv, hface, he⟩⟩
  · rintro ⟨p, hp, h, hh, j, hj, ⟨hk, hface, he⟩ | ⟨hv, hface, he⟩⟩
    · exact ⟨p, hp, h, hh, .inl ⟨hk, hface, j, hj, he⟩⟩
    · exact ⟨p, hp, h, hh, .inr ⟨hv, hface, j, hj, he⟩⟩

/-- The stores that clear a face, which are made only if it has free columns. -/
theorem mem_clearStores {w : FaceStore} : w ∈ clearStores kOut vOut sh n ↔
    n < sh.pstride ∧ w.idx < sh.size ∧ w.val = 0 ∧
      ((kOut ≠ 0 ∧ w.face = kOut.toNat) ∨ vOut ≠ 0 ∧ w.face = vOut.toNat) := by
  unfold clearStores
  by_cases hn : n < sh.pstride
  · have hzeros : (w.idx, w.val) ∈ zeros sh.size ↔ w.idx < sh.size ∧ w.val = 0 := by
      unfold zeros
      simp only [List.mem_map, List.mem_range, Prod.mk.injEq]
      constructor
      · rintro ⟨x, hx, rfl, hv⟩
        exact ⟨hx, hv.symm⟩
      · rintro ⟨hx, hv⟩
        exact ⟨_, hx, rfl, hv.symm⟩
    rw [if_pos hn, List.mem_append, mem_onFace, mem_onFace, hzeros]
    tauto
  · simp [hn]

theorem mem_faceStores {x : ℕ} {l : List FaceStore} {w : ℕ × UInt16} :
    w ∈ faceStores x l ↔ (⟨x, w.1, w.2⟩ : FaceStore) ∈ l := by
  unfold faceStores
  rw [List.mem_filterMap]
  constructor
  · rintro ⟨⟨face, idx, val⟩, hmem, hw⟩
    simp only at hw
    split at hw
    · rename_i hface
      cases hw
      exact hface ▸ hmem
    · cases hw
  · intro hmem
    exact ⟨_, hmem, by simp⟩

/-- A face of `n` positions: at position `p` of head `h` it has the element of the row in slot `p`,
and zeros behind the last position. `place` says where, and `elem` picks the K or the V row. -/
def FaceShows (sh : FaceShape) (n : ℕ) (elem : ℕ → ℕ → UInt16) (place : ℕ → ℕ → ℕ → ℕ)
    (f : ℕ → UInt16) : Prop :=
  ∀ h < sh.nHeads, ∀ j < sh.hd, ∀ p < sh.pstride,
    f (place h j p) = if p < n then elem p (headStart sh.rep sh.hd h + j) else 0

/-- After the stores each place shows its element, and free columns are zero. -/
theorem faceShows_of_stores {elem : ℕ → ℕ → UInt16} {place : ℕ → ℕ → ℕ → ℕ}
    {data : List (ℕ × UInt16)} (hn : n ≤ sh.pstride)
    (hinj : ∀ {h j p h' j' p' : ℕ}, j < sh.hd → p < sh.pstride → j' < sh.hd → p' < sh.pstride →
      place h j p = place h' j' p' → h = h' ∧ j = j' ∧ p = p')
    (hmem : ∀ w, w ∈ data ↔ ∃ p < n, ∃ h < sh.nHeads, ∃ j < sh.hd,
      w = (place h j p, elem p (headStart sh.rep sh.hd h + j)))
    (hzero : n < sh.pstride → ∀ h < sh.nHeads, ∀ j < sh.hd, ∀ p < sh.pstride,
      f (place h j p) = 0) :
    FaceShows sh n elem place (stores f data) := by
  intro h hh j hj p hp
  by_cases hpn : p < n
  · rw [if_pos hpn]
    apply stores_of_mem
    · exact (hmem _).mpr ⟨p, hpn, h, hh, j, hj, rfl⟩
    · intro w hw heq
      obtain ⟨p', hp', h', hh', j', hj', rfl⟩ := (hmem w).mp hw
      obtain ⟨rfl, rfl, rfl⟩ := hinj hj' (by omega) hj hp heq
      rfl
  · rw [if_neg hpn, stores_of_notMem]
    · exact hzero (by omega) h hh j hj p hp
    · intro w hw heq
      obtain ⟨p', hp', h', hh', j', hj', rfl⟩ := (hmem w).mp hw
      obtain ⟨-, -, rfl⟩ := hinj hj' (by omega) hj hp heq
      exact hpn hp'

/-- The face in one temp after all its stores. -/
theorem faceShows_of_temps {elem : ℕ → ℕ → UInt16} {place : ℕ → ℕ → ℕ → ℕ} {x : ℕ}
    {l l' : List FaceStore} {buf : TempBuf} (hn : n ≤ sh.pstride)
    (hinj : ∀ {h j p h' j' p' : ℕ}, j < sh.hd → p < sh.pstride → j' < sh.hd → p' < sh.pstride →
      place h j p = place h' j' p' → h = h' ∧ j = j' ∧ p = p')
    (hlt : ∀ {h j p : ℕ}, h < sh.nHeads → j < sh.hd → p < sh.pstride → place h j p < sh.size)
    (hclear : ∀ w, w ∈ faceStores x l ↔ n < sh.pstride ∧ w.1 < sh.size ∧ w.2 = 0)
    (hmem : ∀ w, w ∈ faceStores x l' ↔ ∃ p < n, ∃ h < sh.nHeads, ∃ j < sh.hd,
      w = (place h j p, elem p (headStart sh.rep sh.hd h + j))) :
    FaceShows sh n elem place (stores buf.mem (faceStores x (l ++ l'))) := by
  have hsplit : faceStores x (l ++ l') = faceStores x l ++ faceStores x l' :=
    List.filterMap_append
  rw [hsplit, ← stores_append]
  apply faceShows_of_stores hn hinj hmem
  intro hlast h hh j hj p hp
  apply stores_of_mem
  · exact (hclear (_, 0)).mpr ⟨hlast, hlt hh hj hp, rfl⟩
  · exact fun w hw _ => ((hclear w).mp hw).2.2

/-- Room for both faces and the stores of a gather: the faces are in their temps. -/
theorem writeFaces_ok (henv : Grants env) (hn : n ≤ 2 ^ 31) (hle : n ≤ sh.pstride)
    (hfound : ∀ p < n, kvcLookup c (UInt32.ofNat p) = .ok (UInt32.ofNat p).toInt32)
    (hk : kOut.toNat < maxTemps) (hv : vOut.toNat < maxTemps) (hne : kOut = vOut → kOut = 0)
    (hsize : sh.size * 2 < 2 ^ 32) :
    ∃ d', writeFaces env c kOut vOut sh n d = (.ok (), d') ∧ d' = { d with temps := d'.temps } ∧
      (kOut ≠ 0 → ∃ buf, d'.temps kOut.toNat = some buf ∧
        FaceShows sh n (kElem c) (kPlace sh) buf.mem) ∧
      (vOut ≠ 0 → ∃ buf, d'.temps vOut.toNat = some buf ∧
        FaceShows sh n (vElem c) (vPlace sh) buf.mem) := by
  obtain ⟨d₁, h₁⟩ := @faceGet_of_lt env d kOut (UInt32.ofNat (sh.size * 2)) henv hk
  obtain ⟨d₂, h₂⟩ := @faceGet_of_lt env d₁ vOut (UInt32.ofNat (sh.size * 2)) henv hv
  obtain ⟨-, room₁⟩ := madeRoom_of_faceGet h₁
  obtain ⟨-, room₂⟩ := madeRoom_of_faceGet h₂
  have hbytes : (UInt32.ofNat (sh.size * 2)).toNat = sh.size * 2 := toNat_ofNat32 hsize
  have hapart : kOut ≠ 0 → vOut.toNat ≠ kOut.toNat := by
    intro hk0 he
    exact hk0 (hne (UInt32.toNat_inj.mp he.symm))
  have hroom : ∀ x, (kOut ≠ 0 ∧ x = kOut.toNat) ∨ (vOut ≠ 0 ∧ x = vOut.toNat) →
      ∃ buf, d₂.temps x = some buf ∧ sh.size * 2 ≤ buf.bytes.toNat := by
    rintro x (⟨hx, rfl⟩ | ⟨hx, rfl⟩)
    · obtain ⟨buf, hbuf, hle⟩ := room₁.room hx
      rw [UInt32.le_iff_toNat_le, hbytes] at hle
      exact ⟨buf, by rw [room₂.others _ (hapart hx).symm]; exact hbuf, hle⟩
    · obtain ⟨buf, hbuf, hle⟩ := room₂.room hx
      rw [UInt32.le_iff_toNat_le, hbytes] at hle
      exact ⟨buf, hbuf, hle⟩
  have hrange : ∀ w ∈ clearStores kOut vOut sh n ++ gatherStores c kOut vOut sh n,
      InRange d₂.temps w := by
    intro w hw
    rcases List.mem_append.mp hw with hw | hw
    · obtain ⟨-, hidx, -, hface⟩ := mem_clearStores.mp hw
      obtain ⟨buf, hbuf, hle⟩ := hroom w.face hface
      exact ⟨buf, hbuf, by omega⟩
    · obtain ⟨p, hp, h, hh, j, hj, ⟨hk0, rfl⟩ | ⟨hv0, rfl⟩⟩ := mem_gatherStores.mp hw
      · obtain ⟨buf, hbuf, hle⟩ := hroom _ (.inl ⟨hk0, rfl⟩)
        have hlt := @kPlace_lt j h p sh hh hj (by omega)
        exact ⟨buf, hbuf, by simp only; omega⟩
      · obtain ⟨buf, hbuf, hle⟩ := hroom _ (.inr ⟨hv0, rfl⟩)
        have hlt := @vPlace_lt j h p sh hh hj (by omega)
        exact ⟨buf, hbuf, by simp only; omega⟩
  refine ⟨_, (writeFaces_eq_ok hn hfound).mpr ⟨d₁, d₂, _, h₁, h₂,
    foldlM_storeTo_eq_ok.mpr ⟨hrange, fun _ => rfl⟩, rfl⟩, ?_, ?_, ?_⟩
  · rw [room₂.rest, room₁.rest]
  · intro hk0
    obtain ⟨buf, hbuf, -⟩ := hroom _ (.inl ⟨hk0, rfl⟩)
    refine ⟨{ buf with mem := stores buf.mem (faceStores kOut.toNat
      (clearStores kOut vOut sh n ++ gatherStores c kOut vOut sh n)) }, ?_, ?_⟩
    · simp only [hbuf, Option.map_some]
    apply faceShows_of_temps hle kPlace_inj kPlace_lt
    · intro w
      rw [mem_faceStores, mem_clearStores]
      have hnot := hapart hk0
      simp only [hk0, ne_eq, not_false_eq_true, hnot.symm, and_false, or_false, and_true]
    · intro w
      rw [mem_faceStores, mem_gatherStores]
      have hnot := hapart hk0
      simp only [hk0, ne_eq, not_false_eq_true, true_and, FaceStore.mk.injEq, hnot.symm, false_and,
        and_false, or_false, Prod.ext_iff]
  · intro hv0
    obtain ⟨buf, hbuf, -⟩ := hroom _ (.inr ⟨hv0, rfl⟩)
    have hnot : ¬ (kOut ≠ 0 ∧ vOut.toNat = kOut.toNat) := fun ⟨hk0, he⟩ => hapart hk0 he
    refine ⟨{ buf with mem := stores buf.mem (faceStores vOut.toNat
      (clearStores kOut vOut sh n ++ gatherStores c kOut vOut sh n)) }, ?_, ?_⟩
    · simp only [hbuf, Option.map_some]
    apply faceShows_of_temps hle vPlace_inj vPlace_lt
    · intro w
      rw [mem_faceStores, mem_clearStores]
      simp only [hv0, ne_eq, not_false_eq_true, hnot, false_or, and_true]
    · intro w
      rw [mem_faceStores, mem_gatherStores]
      constructor
      · rintro ⟨p, hp, h, hh, j, hj, ⟨hk0, he⟩ | ⟨-, he⟩⟩
        · exact absurd ⟨hk0, congrArg FaceStore.face he⟩ hnot
        · exact ⟨p, hp, h, hh, j, hj,
            Prod.ext (congrArg FaceStore.idx he) (congrArg FaceStore.val he)⟩
      · rintro ⟨p, hp, h, hh, j, hj, rfl⟩
        exact ⟨p, hp, h, hh, j, hj, .inr ⟨hv0, rfl⟩⟩

end Faces

/-! ### The rows in the faces -/

/-- The slot of position `p` holds the row of step `p`. -/
theorem row_elem {g : Geometry} (h : Tracks g.bytes32 g.count32 (rowWrites rows) c)
    (hlen : rows.length ≤ g.count) {row : Row} (hp : rows[p]? = some row) (hj : j < g.rowElems) :
    kElem c p j = row.k j ∧ vElem c p j = row.v j := by
  have hlt := g.count_lt
  have hplt := (List.getElem?_eq_some_iff.mp hp).1
  have hlast := lastTo_rowWrites (by omega) hp
  have hhalf : c.half = 2 * g.rowElems := by
    unfold Kvc.half
    have hdiv : (c.slotBytes / 2).toNat = c.slotBytes.toNat / 2 := UInt32.toNat_div _ _
    have hbytes : g.bytes = g.rowElems * 4 := g.bytes_eq
    rw [hdiv, h.slotBytes_eq, g.bytes32_toNat]
    omega
  have hk := h.kFace _ _ hlast
  have hv := h.vFace _ _ hlast
  unfold Kvc.kFace at hk
  unfold Kvc.vFace at hv
  rw [toNat_ofNat32 (by omega)] at hk hv
  unfold kElem vElem
  rw [hhalf] at hk hv ⊢
  exact ⟨elemAt_of_cells hk hj, elemAt_of_cells hv hj⟩

/-- A face of the state: at position `p` of head `h` it has the element of the row of that step,
and zeros behind the last one. `place` says where, and `elem` picks the K or the V row. -/
def FaceHolds (g : Geometry) (rows : List Row) (elem : Row → ℕ → UInt16)
    (place : ℕ → ℕ → ℕ → ℕ) (f : ℕ → UInt16) : Prop :=
  ∀ h < g.nHeads, ∀ j < g.hd, ∀ p < g.count,
    f (place h j p) = ((rows[p]?).map fun row => elem row (h / g.rep * g.hd + j)).getD 0

/-- A face that shows the slots holds the rows. -/
theorem faceHolds_of_shows {g : Geometry} {elem : Row → ℕ → UInt16}
    {slotElem : ℕ → ℕ → UInt16} {place : ℕ → ℕ → ℕ → ℕ}
    (hread : ∀ p row, rows[p]? = some row → ∀ x < g.rowElems, slotElem p x = elem row x)
    (h : FaceShows g.shape rows.length slotElem place f) : FaceHolds g rows elem place f := by
  intro hd hhd j hj p hp
  rw [h hd hhd j hj p hp]
  by_cases hrow : p < rows.length
  · have hsome : rows[p]? = some rows[p] := List.getElem?_eq_getElem hrow
    rw [if_pos hrow, hsome, show headStart g.shape.rep g.shape.hd hd = hd / g.rep * g.hd from
      g.headStart_eq hhd, hread p _ hsome _ (g.head_in_row hhd hj)]
    rfl
  · rw [if_neg hrow, List.getElem?_eq_none (by omega)]
    rfl

/-! ### The steps of a decode -/

/-- A step: append the row and gather the state. -/
def decodeStep (env : KvEnv) (g : Geometry) (stateRef kOut vOut : UInt32) (row : Row) : Kv Unit := do
  execKvAppend env (rowRef g.elems32 row.k) (rowRef g.elems32 row.v) stateRef wtKvPosAuto
  execKvGather env stateRef kOut vOut wtKvPosAuto (UInt32.ofNat g.nHeads) (UInt32.ofNat g.kvHeads)
    (UInt32.ofNat g.hd)

/-- Steps for some rows, with the temps after each. -/
def decodeRun (env : KvEnv) (g : Geometry) (stateRef kOut vOut : UInt32) :
    List Row → Kv (List (ℕ → Option TempBuf))
  | [] => pure []
  | row :: rows => do
    decodeStep env g stateRef kOut vOut row
    let temps ← read (·.temps)
    let rest ← decodeRun env g stateRef kOut vOut rows
    pure (temps :: rest)

/-- The faces after a step hold the rows up to it. -/
def FacesHold (g : Geometry) (kOut vOut : UInt32) (rows : List Row)
    (temps : ℕ → Option TempBuf) : Prop :=
  (kOut ≠ 0 → ∃ buf, temps kOut.toNat = some buf ∧
    FaceHolds g rows Row.k (kPlace g.shape) buf.mem) ∧
  (vOut ≠ 0 → ∃ buf, temps vOut.toNat = some buf ∧
    FaceHolds g rows Row.v (vPlace g.shape) buf.mem)

/-- The temps of the faces: ids that the device has, two different ones, and a size of 32 bits. -/
structure FaceTemps (g : Geometry) (kOut vOut : UInt32) : Prop where
  k_lt : kOut.toNat < maxTemps
  v_lt : vOut.toNat < maxTemps
  ne : kOut = vOut → kOut = 0
  size_lt : g.shape.size * 2 < 2 ^ 32

section Steps

variable {g : Geometry} {kOut vOut : UInt32}

/-- One step: the row is appended, and both faces show all rows. -/
theorem decodeStep_eq (henv : Grants env) (h : HoldsRows g.toSlots i rows d)
    (href : RefersTo stateRef i) (hfaces : FaceTemps g kOut vOut) (row : Row)
    (hlen : rows.length < g.count) :
    ∃ d', decodeStep env g stateRef kOut vOut row d = (.ok (), d') ∧
      HoldsRows g.toSlots i (rows ++ [row]) d' ∧ FacesHold g kOut vOut (rows ++ [row]) d'.temps := by
  obtain ⟨d₁, happ, h₁, -⟩ := append_eq henv h href g.slot_of_elems row hlen
  have hlen₁ : (rows ++ [row]).length ≤ g.count := by
    rw [List.length_append, List.length_singleton]
    exact hlen
  have hlt := g.count_lt
  have hrow := g.rowElems_lt
  have hheads : (UInt32.ofNat g.nHeads).toNat = g.nHeads := toNat_ofNat32 g.nHeads_lt
  have hkv : (UInt32.ofNat g.kvHeads).toNat = g.kvHeads :=
    toNat_ofNat32 (Nat.lt_of_le_of_lt g.kvHeads_le hrow)
  have hhd : (UInt32.ofNat g.hd).toNat = g.hd := toNat_ofNat32 (Nat.lt_of_le_of_lt g.hd_le hrow)
  have hguard : UInt32.ofNat g.nHeads ≠ 0 ∧ UInt32.ofNat g.kvHeads ≠ 0 ∧ UInt32.ofNat g.hd ≠ 0 ∧
      UInt32.ofNat g.nHeads % UInt32.ofNat g.kvHeads = 0 := by
    simp only [ne_eq, ← UInt32.toNat_inj, UInt32.toNat_mod, hheads, hkv, hhd, UInt32.toNat_zero]
    exact ⟨g.nHeads_pos.ne', g.kvHeads_pos.ne', g.hd_pos.ne', g.divides⟩
  have helems : UInt32.ofNat g.kvHeads * UInt32.ofNat g.hd * 2 * 2 = g.bytes32 := by
    rw [g.elems_of_heads, g.slot_of_elems]
  obtain ⟨c, htracks, hgather⟩ := gather_eq henv h₁ href kOut vOut hguard helems (by simp) hlen₁
  have hshape : (⟨(UInt32.ofNat g.nHeads).toNat,
      (UInt32.ofNat g.nHeads / UInt32.ofNat g.kvHeads).toNat, (UInt32.ofNat g.hd).toNat,
      g.count⟩ : FaceShape) = g.shape := by
    rw [UInt32.toNat_div, hheads, hkv, hhd]
    rfl
  obtain ⟨d₂, hwrite, hrest, hk, hv⟩ := @writeFaces_ok (rows ++ [row]).length env
    { d₁ with stKvc := Function.update d₁.stKvc i (some c) } c kOut vOut g.shape henv (by omega)
    hlen₁ (fun p hp => lookup_row htracks hlen₁ hp) hfaces.k_lt hfaces.v_lt hfaces.ne hfaces.size_lt
  refine ⟨d₂, ?_, ?_, ?_, ?_⟩
  · unfold decodeStep
    rw [bind_apply_ok happ, hgather, hshape]
    exact hwrite
  · rw [hrest]
    exact ⟨h₁.idx, h₁.addr, h₁.bytes, h₁.count, .inr ⟨c, Function.update_self _ _ _, htracks⟩⟩
  · intro hk0
    obtain ⟨buf, hbuf, hshow⟩ := hk hk0
    exact ⟨buf, hbuf, faceHolds_of_shows
      (fun p r hp x hx => (row_elem htracks hlen₁ hp hx).1) hshow⟩
  · intro hv0
    obtain ⟨buf, hbuf, hshow⟩ := hv hv0
    exact ⟨buf, hbuf, faceHolds_of_shows
      (fun p r hp x hx => (row_elem htracks hlen₁ hp hx).2) hshow⟩

/-- A run appends its rows after those before, and each step's faces show what is there. -/
theorem decodeRun_eq (henv : Grants env) (href : RefersTo stateRef i)
    (hfaces : FaceTemps g kOut vOut) (rows before : List Row) (h : HoldsRows g.toSlots i before d)
    (hlen : before.length + rows.length ≤ g.count) :
    ∃ out d', decodeRun env g stateRef kOut vOut rows d = (.ok out, d') ∧
      HoldsRows g.toSlots i (before ++ rows) d' ∧ out.length = rows.length ∧
      ∀ (s : ℕ) temps, out[s]? = some temps →
        FacesHold g kOut vOut (before ++ rows.take (s + 1)) temps := by
  induction rows generalizing before d with
  | nil =>
    refine ⟨[], d, rfl, ?_, rfl, ?_⟩
    · rw [List.append_nil]
      exact h
    · intro s temps hs
      cases hs
  | cons row rows ih =>
    rw [List.length_cons] at hlen
    obtain ⟨d₁, hstep, h₁, hfirst⟩ := decodeStep_eq henv h href hfaces row (by omega)
    obtain ⟨out, d₂, hrun, h₂, hout, hall⟩ := ih (before ++ [row]) h₁
      (by rw [List.length_append, List.length_singleton]; omega)
    refine ⟨d₁.temps :: out, d₂, ?_, ?_, ?_, ?_⟩
    · unfold decodeRun
      rw [bind_apply_ok hstep, bind_apply_ok (show read (·.temps) d₁ = (.ok d₁.temps, d₁) from rfl),
        bind_apply_ok hrun]
      rfl
    · rw [List.append_assoc] at h₂
      exact h₂
    · rw [List.length_cons, List.length_cons, hout]
    · intro s temps hs
      cases s with
      | zero =>
        cases hs
        exact hfirst
      | succ s =>
        have htail := hall s temps hs
        rw [List.append_assoc] at htail
        exact htail

end Steps

/-- A run that succeeds is a step and a run that succeed. -/
theorem decodeRun_cons_ok {g : Geometry} {kOut vOut : UInt32} {row : Row}
    {out : List (ℕ → Option TempBuf)}
    (h : decodeRun env g stateRef kOut vOut (row :: rows) d = (.ok out, d')) :
    ∃ rest d₁, decodeStep env g stateRef kOut vOut row d = (.ok (), d₁) ∧
      decodeRun env g stateRef kOut vOut rows d₁ = (.ok rest, d') := by
  unfold decodeRun at h
  obtain ⟨_, d₁, hstep, h⟩ := Machine.bind_eq_ok h
  obtain ⟨temps, d₂, hread, h⟩ := Machine.bind_eq_ok h
  cases hread
  obtain ⟨rest, d₃, hrest, h⟩ := Machine.bind_eq_ok h
  cases h
  exact ⟨rest, d₁, hstep, hrest⟩

theorem twoSlots_fits : 2 * 256 < 2 ^ 32 := by decide

theorem four_lt : 4 < 2 ^ 32 := by decide

/-- A state of two slots with two kv heads, read by four query heads. -/
def twoSlots : Geometry where
  bytes := 256
  count := 2
  bytes_ge := Nat.le_refl 256
  align := rfl
  count_pos := Nat.two_pos
  fits := twoSlots_fits
  kvHeads := 2
  hd := 32
  nHeads := 4
  kvHeads_pos := Nat.two_pos
  hd_pos := Nat.succ_pos 31
  nHeads_pos := Nat.succ_pos 3
  divides := rfl
  nHeads_lt := four_lt
  bytes_eq := rfl

/-- Allocators that grant zeroed memory. -/
def zeroedEnv : KvEnv := ⟨fun _ => some fun _ => 0, fun _ => some fun _ => 0⟩

theorem zeroedEnv_grants : Grants zeroedEnv := ⟨fun _ => ⟨_, rfl⟩, fun _ => ⟨_, rfl⟩⟩

/-- A device with one state of 512 bytes that was not used, and no temps. -/
def oneState : KvDevice :=
  ⟨1, fun _ => 0, fun _ _ => 0, fun _ => 512, fun _ => 0, fun _ => none, fun _ => none⟩

theorem oneState_holds : HoldsRows twoSlots.toSlots 0 [] oneState :=
  ⟨Nat.one_pos, rfl, rfl, rfl, .inl ⟨rfl, rfl⟩⟩

theorem oneState_ref : RefersTo 0x6000 0 := ⟨rfl, rfl⟩

theorem twoSlots_faces : FaceTemps twoSlots 1 2 := ⟨by decide, by decide, by decide, by decide⟩

/-- Two rows that differ. -/
def someRows : List Row :=
  [⟨fun j => UInt16.ofNat j, fun _ => 2⟩, ⟨fun _ => 3, fun j => UInt16.ofNat (j + 100)⟩]

end Gehtp.Analysis.KvRing
