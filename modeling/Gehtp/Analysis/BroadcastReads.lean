import Mathlib.Data.List.TakeWhile
import Gehtp.Model.EltwiseOp

/-!
# What a broadcast reads

A shape of up to five axes is passed to the device as its last four. With up to four axes that are
not of size 1 in front this is the whole shape, and the broadcast reads every element at its place.
With five the first axis is lost: the device goes on counting the next one, which is right for an
operand that has size 1 in the lost axis, and wrong for any other that is broadcast at all. An
operand with as many elements as the output is read as it is.
-/

set_option autoImplicit false

namespace Gehtp.Analysis.BroadcastReads

open Lib Lib.RowMajor Model.OpGraph Model.DeviceTensor Model.EltwiseOp

/-! ### Broadcasting -/

/-- An axis of an operand fits one of the output. -/
def Fits (d e : ℕ) : Prop := d = 1 ∨ d = e

/-- The shape of an operand, aligned at the last axis, fits that of the output. -/
structure Broadcasts (ins outs : List ℕ) : Prop where
  length_le : ins.length ≤ outs.length
  fits : List.Forall₂ Fits ins (outs.drop (outs.length - ins.length))

/-- The coordinate of an operand in an axis: 0 if its size is 1. -/
def pin (d c : ℕ) : ℕ := if d = 1 then 0 else c

/-- Where an operand is read for a cell of the output: its missing axes are left out. -/
def source (ins outs cs : List ℕ) : List ℕ :=
  List.zipWith pin ins (cs.drop (outs.length - ins.length))

variable {ins outs ds es cs : List ℕ}

variable {d e n operation N : ℕ} {y : List UInt16} {v : UInt16}

theorem pin_lt {c : ℕ} (h : Fits d e) (hc : c < e) : pin d c < d := by
  unfold pin
  cases h with
  | inl h =>
    rw [if_pos h, h]
    exact Nat.one_pos
  | inr h =>
    subst h
    split
    · omega
    · exact hc

theorem wrap_eq_pin {c : ℕ} (h : Fits d e) (hc : c < e) : wrap d c = pin d c := by
  unfold wrap pin
  cases h with
  | inl h => rw [if_neg (by omega), if_pos h]
  | inr h =>
    subst h
    by_cases hone : d = 1
    · rw [if_neg (by omega), if_pos hone]
    · rw [if_pos (by omega), if_neg hone, Nat.mod_eq_of_lt hc]

theorem wrap_over {c q : ℕ} (h : Fits d e) (hc : c < e) : wrap d (q * e + c) = pin d c := by
  rw [← wrap_eq_pin h hc]
  unfold wrap
  cases h with
  | inl h => rw [if_neg (by omega), if_neg (by omega)]
  | inr h =>
    subst h
    rw [Nat.mul_comm, Nat.mul_add_mod]

theorem pinned_within (h : List.Forall₂ Fits ds es) (hcs : Within cs es) :
    Within (List.zipWith pin ds cs) ds := by
  induction h generalizing cs with
  | nil => exact List.Forall₂.nil
  | cons hd _ ih =>
    cases hcs with
    | cons hc hcs => exact List.Forall₂.cons (pin_lt hd hc) (ih hcs)

theorem zipWith_wrap (h : List.Forall₂ Fits ds es) (hcs : Within cs es) :
    List.zipWith wrap ds cs = List.zipWith pin ds cs := by
  induction h generalizing cs with
  | nil => rfl
  | cons hd _ ih =>
    cases hcs with
    | cons hc hcs => rw [List.zipWith_cons_cons, List.zipWith_cons_cons, wrap_eq_pin hd hc, ih hcs]

theorem prod_le (h : List.Forall₂ Fits ds es) (hpos : 0 < es.prod) :
    0 < ds.prod ∧ ds.prod ≤ es.prod := by
  induction h with
  | nil => exact ⟨hpos, le_rfl⟩
  | @cons d e ds es hd _ ih =>
    rw [List.prod_cons] at hpos
    have he : 0 < e := Nat.pos_of_mul_pos_right hpos
    obtain ⟨hds, hle⟩ := ih (Nat.pos_of_mul_pos_left hpos)
    have hde : 0 < d ∧ d ≤ e := by
      cases hd with
      | inl hd => omega
      | inr hd => omega
    rw [List.prod_cons, List.prod_cons]
    exact ⟨Nat.mul_pos hde.1 hds, Nat.mul_le_mul hde.2 hle⟩

theorem eq_of_prod_le (h : List.Forall₂ Fits ds es) (hpos : 0 < es.prod) (hle : es.prod ≤ ds.prod) :
    ds = es := by
  induction h with
  | nil => rfl
  | @cons d e ds es hd hrest ih =>
    rw [List.prod_cons] at hpos
    have he : 0 < e := Nat.pos_of_mul_pos_right hpos
    have hes : 0 < es.prod := Nat.pos_of_mul_pos_left hpos
    obtain ⟨-, hle'⟩ := prod_le hrest hes
    rw [List.prod_cons, List.prod_cons] at hle
    have hde : d = e := by
      cases hd with
      | inr hd => exact hd
      | inl hd =>
        subst hd
        by_contra hne
        have : 1 * ds.prod < e * es.prod := Nat.mul_lt_mul_of_lt_of_le (by omega) hle' hes
        omega
    subst hde
    rw [ih hes (Nat.le_of_mul_le_mul_left hle he)]

theorem zipWith_pin_self (hcs : Within cs es) : List.zipWith pin es cs = cs := by
  induction hcs with
  | nil => rfl
  | @cons c e cs es hc _ ih =>
    have hpin : pin e c = c := by
      unfold pin
      split
      · omega
      · rfl
    rw [List.zipWith_cons_cons, hpin, ih]

/-! ### Five axes -/

/-- Fill a shape up to five axes in front. -/
def pad5 (ds : List ℕ) : List ℕ := List.replicate (5 - ds.length) 1 ++ ds

def zeros5 (cs : List ℕ) : List ℕ := List.replicate (5 - cs.length) 0 ++ cs

theorem length_pad5 (h : ds.length ≤ 5) : (pad5 ds).length = 5 := by
  rw [pad5, List.length_append, List.length_replicate]
  omega

theorem prod_pad5 (ds : List ℕ) : (pad5 ds).prod = ds.prod := prod_pad _ ds

theorem zeros5_within (h : Within cs ds) : Within (zeros5 cs) (pad5 ds) := by
  rw [zeros5, pad5, h.length_eq]
  exact pad_within _ h

theorem lin_pad5 (h : Within cs ds) : lin (pad5 ds) (zeros5 cs) = lin ds cs := by
  rw [zeros5, pad5, h.length_eq]
  exact lin_pad _ ds cs

theorem replicate_fits (k : ℕ) (es : List ℕ) (h : es.length = k) :
    List.Forall₂ Fits (List.replicate k 1) es := by
  induction es generalizing k with
  | nil =>
    subst h
    exact List.Forall₂.nil
  | cons e es ih =>
    subst h
    exact List.Forall₂.cons (Or.inl rfl) (ih es.length rfl)

theorem Broadcasts.pads (h : Broadcasts ins outs) (hlen : outs.length ≤ 5) :
    5 - outs.length + (outs.length - ins.length) = 5 - ins.length := by
  have := h.length_le
  omega

theorem pad_split {α : Type} (z : α) (k j : ℕ) (l : List α) :
    List.replicate k z ++ l = (List.replicate k z ++ l.take j) ++ l.drop j := by
  rw [List.append_assoc, List.take_append_drop]

theorem length_pad_take {α : Type} (z : α) (k : ℕ) {j : ℕ} {l : List α} (hj : j ≤ l.length) :
    (List.replicate k z ++ l.take j).length = k + j := by
  rw [List.length_append, List.length_replicate, List.length_take, Nat.min_eq_left hj]

theorem Broadcasts.pad5 (h : Broadcasts ins outs) (hlen : outs.length ≤ 5) :
    List.Forall₂ Fits (pad5 ins) (pad5 outs) := by
  rw [BroadcastReads.pad5, BroadcastReads.pad5, ← h.pads hlen,
    pad_split 1 (5 - outs.length) (outs.length - ins.length) outs]
  exact List.rel_append (replicate_fits _ _ (length_pad_take 1 _ (Nat.sub_le _ _))) h.fits

theorem zipWith_wrap_ones (k : ℕ) :
    List.zipWith wrap (List.replicate k 1) (List.replicate k 0) = List.replicate k 0 := by
  induction k with
  | zero => rfl
  | succ k ih =>
    rw [List.replicate_succ, List.replicate_succ, List.zipWith_cons_cons, ih]
    rfl

theorem zipWith_pin_ones (k : ℕ) (l : List ℕ) (h : l.length = k) :
    List.zipWith pin (List.replicate k 1) l = List.replicate k 0 := by
  induction l generalizing k with
  | nil =>
    subst h
    rfl
  | cons c l ih =>
    subst h
    rw [List.length_cons, List.replicate_succ, List.zipWith_cons_cons, ih l.length rfl,
      List.replicate_succ]
    rfl

theorem lin_source (h : Broadcasts ins outs) (hlen : outs.length ≤ 5) (hcs : Within cs outs) :
    lin (pad5 ins) (List.zipWith pin (pad5 ins) (zeros5 cs)) = lin ins (source ins outs cs) := by
  have hlen' := hcs.length_eq
  rw [BroadcastReads.pad5, zeros5, ← h.pads hlen, hlen',
    pad_split 0 (5 - outs.length) (outs.length - ins.length) cs,
    List.zipWith_append, zipWith_pin_ones, lin_pad, source]
  · exact length_pad_take 0 _ (by omega)
  · rw [List.length_replicate, length_pad_take 0 _ (by omega)]

/-! ### The four axes of the device -/

theorem length_dropOnes_pos (h : 1 ≤ ds.length) : 1 ≤ (dropOnes 1 ds).length := by
  induction ds with
  | nil => exact h
  | cons d ds ih =>
    rw [dropOnes]
    split
    · rename_i hd
      exact ih (by omega)
    · exact h

theorem fold4_eq (od : OutputDef) (hpos : 1 ≤ od.shape.length) (hlen : od.shape.length ≤ 5) :
    fold4 od = ((pad5 od.shape).drop 1).map u32 := by
  obtain ⟨j, hj, hones⟩ := dropOnes_eq_drop 1 od.shape
  have hpos' := length_dropOnes_pos hpos
  unfold fold4
  rw [hj] at hpos' ⊢
  have hsplit : od.shape = List.replicate (od.shape.take j).length 1 ++ od.shape.drop j := by
    rw [← List.eq_replicate_of_mem hones, List.take_append_drop]
  have hcount : (od.shape.take j).length + (od.shape.drop j).length = od.shape.length := by
    rw [← List.length_append, List.take_append_drop]
  have hpad : pad5 od.shape = List.replicate (5 - (od.shape.drop j).length) 1 ++ od.shape.drop j := by
    rw [pad5]
    conv_lhs => rw [hsplit]
    rw [List.length_append, List.length_replicate, ← List.append_assoc, ← List.replicate_add]
    congr 2
    omega
  rw [hpad]
  set rest := od.shape.drop j
  show (List.replicate (4 - (rest.drop (rest.length - 4)).length) 1 ++
    rest.drop (rest.length - 4)).map u32 = _
  by_cases hfour : rest.length ≤ 4
  · have hzero : rest.length - 4 = 0 := by omega
    have hsucc : 5 - rest.length = (4 - rest.length) + 1 := by omega
    rw [hzero, List.drop_zero, hsucc, List.replicate_succ, List.cons_append, List.drop_succ_cons,
      List.drop_zero]
  · have hfive : rest.length = 5 := by omega
    have hlast : (rest.drop (5 - 4)).length = 4 := by
      rw [List.length_drop, hfive]
    rw [hfive, hlast]
    rfl

theorem fold4_eq_drop (od : OutputDef) (hpos : 1 ≤ od.shape.length) (hlen : od.shape.length ≤ 5)
    (hcells : 0 < od.shape.prod) (hlt : od.shape.prod < 2 ^ 32) :
    fold4 od = (pad5 od.shape).drop 1 := by
  rw [fold4_eq od hpos hlen, List.map_drop, map_u32_eq]
  · rw [prod_pad5]
    exact hcells
  · rw [prod_pad5]
    exact hlt

theorem strippedRank_spec (ds : List ℕ) :
    strippedRank ds ≤ ds.length ∧
      ds = ds.take (strippedRank ds) ++ List.replicate (ds.length - strippedRank ds) 1 := by
  have hsplit : ds = (ds.reverse.dropWhile (· = 1)).reverse ++
      (ds.reverse.takeWhile (· = 1)).reverse := by
    rw [← List.reverse_append, List.takeWhile_append_dropWhile, List.reverse_reverse]
  have hlen := congrArg List.length hsplit
  rw [List.length_append, List.length_reverse, List.length_reverse] at hlen
  have hones : (ds.reverse.takeWhile (· = 1)).reverse =
      List.replicate (ds.length - strippedRank ds) 1 := by
    rw [List.eq_replicate_iff]
    constructor
    · rw [List.length_reverse, strippedRank]
      omega
    · intro d hd
      have htrue := List.mem_takeWhile_imp (p := fun d => decide (d = 1)) (List.mem_reverse.mp hd)
      exact of_decide_eq_true htrue
  have htake : ds.take (strippedRank ds) = (ds.reverse.dropWhile (· = 1)).reverse := by
    have hleft : ((ds.reverse.dropWhile (· = 1)).reverse ++
        (ds.reverse.takeWhile (· = 1)).reverse).take (ds.reverse.dropWhile (· = 1)).reverse.length =
        (ds.reverse.dropWhile (· = 1)).reverse := List.take_left
    rw [← hsplit, List.length_reverse] at hleft
    exact hleft
  constructor
  · rw [strippedRank]
    omega
  · rw [← hones, htake]
    exact hsplit

/-- The number of axes the device goes through. -/
def ranks (es : List ℕ) : ℕ := if strippedRank es = 0 then 1 else strippedRank es

theorem ranks_spec {es : List ℕ} (hlen : es.length = 4) :
    1 ≤ ranks es ∧ ranks es ≤ 4 ∧
      es = es.take (ranks es) ++ List.replicate (4 - ranks es) 1 := by
  obtain ⟨hle, heq⟩ := strippedRank_spec es
  unfold ranks
  by_cases hzero : strippedRank es = 0
  · rw [if_pos hzero]
    refine ⟨le_rfl, by decide, ?_⟩
    rw [hzero, hlen] at heq
    rw [heq]
    rfl
  · rw [if_neg hzero]
    rw [hlen] at hle heq
    exact ⟨by omega, hle, heq⟩

theorem fits_ones {k : ℕ} (h : List.Forall₂ Fits ds (List.replicate k 1)) :
    ds = List.replicate k 1 := by
  induction k generalizing ds with
  | zero =>
    cases h
    rfl
  | succ k ih =>
    rw [List.replicate_succ] at h ⊢
    cases h with
    | cons hd h =>
      rw [ih h]
      cases hd with
      | inl hd => rw [hd]
      | inr hd => rw [hd]

section Address

variable {is : List ℕ} {q : ℕ}

theorem zipWith_wrap_over {c : ℕ} (hd : Fits d e) (hds : List.Forall₂ Fits ds es) (hc : c < e)
    (hcs : Within cs es) :
    List.zipWith wrap (d :: ds) (coords (e :: es) (q * (e :: es).prod + lin (e :: es) (c :: cs))) =
      List.zipWith pin (d :: ds) (c :: cs) := by
  rw [coords_over hcs, List.zipWith_cons_cons, List.zipWith_cons_cons, wrap_over hd hc,
    zipWith_wrap hds hcs]

theorem broadcastAddress_eq (hes : es.length = 4) (hf : List.Forall₂ Fits is es)
    (hlt : es.prod < 2 ^ 32) (hcs : Within cs es) (n bElems : ℕ) :
    broadcastAddress ⟨n, bElems, is, es⟩ (q * es.prod + lin es cs) =
      .ok (lin is (List.zipWith pin is cs)) := by
  obtain ⟨hr, hr4, hsplit⟩ := ranks_spec hes
  have hpos := hcs.prod_pos
  have hlen : is.length = 4 := hf.length_eq.trans hes
  have hcs4 : cs.length = 4 := hcs.length_eq.trans hes
  set i := q * es.prod + lin es cs with hi
  set er := es.take (ranks es)
  set ir := is.take (ranks es)
  have hne : er ≠ [] := by
    intro h
    have := congrArg List.length h
    rw [List.length_take, hes, List.length_nil] at this
    omega
  have hprod : er.prod = es.prod := by
    rw [hsplit, List.prod_append, prod_replicate_one, Nat.mul_one]
  have his : is = ir ++ List.replicate (4 - ranks es) 1 := by
    have hdrop := List.forall₂_drop (ranks es) hf
    have hones : es.drop (ranks es) = List.replicate (4 - ranks es) 1 := by
      have happ := (List.take_append_drop (ranks es) es).trans hsplit
      exact List.append_cancel_left happ
    rw [hones] at hdrop
    rw [← fits_ones hdrop, List.take_append_drop]
  obtain ⟨hipos, hile⟩ := prod_le hf hpos
  have hiprod : ir.prod = is.prod := by
    rw [his, List.prod_append, prod_replicate_one, Nat.mul_one]
  -- the coordinates, first with and then without the axes at the end
  have hpin : List.zipWith wrap is (coords es i) = List.zipWith pin is cs := by
    rw [hi]
    cases hf with
    | nil => exact absurd hes (by decide)
    | cons hd hds =>
      cases hcs with
      | cons hc hcs => exact zipWith_wrap_over hd hds hc hcs
  have hcoords : coords es i = coords er i ++ List.replicate (4 - ranks es) 0 := by
    conv_lhs => rw [hsplit]
    exact coords_append_ones _ i hne
  have hirlen : ir.length = ranks es := by
    rw [List.length_take, hlen, Nat.min_eq_left hr4]
  have herlen : (coords er i).length = ranks es := by
    rw [length_coords, List.length_take, hes, Nat.min_eq_left hr4]
  have hzip : List.zipWith wrap is (coords es i) =
      List.zipWith wrap ir (coords er i) ++ List.replicate (4 - ranks es) 0 := by
    rw [hcoords]
    conv_lhs => rw [his]
    rw [List.zipWith_append (hirlen.trans herlen.symm)]
    congr 1
    exact zipWith_wrap_ones _
  have hwithin : Within (List.zipWith wrap ir (coords er i)) ir := by
    have htake := List.forall₂_take (ranks es) (hpin ▸ pinned_within hf hcs)
    rw [hzip, List.take_left' (by
      rw [List.length_zipWith, hirlen, herlen, Nat.min_self])] at htake
    exact htake
  have hwalk : walk (strides32 er) i = .ok (coords er i) := by
    rw [strides32_eq (by omega) (by omega), walk_strides (by omega)]
  have haddr : address32 (strides32 ir) (List.zipWith wrap ir (coords er i)) =
      lin is (List.zipWith pin is cs) := by
    rw [strides32_eq (by omega) (by omega), address32_strides hwithin (by omega), ← hpin, hzip]
    conv_rhs => rw [his]
    rw [lin_append_ones _ (by rw [List.length_zipWith, hirlen, herlen, Nat.min_self])]
  have hir : (if ranks es < 4 then ranks es else 4) = ranks es := by
    split
    · rfl
    · omega
  show (walk (strides32 er) i >>= fun cs' => Except.ok (address32
    (strides32 (is.take (if ranks es < 4 then ranks es else 4)))
    (List.zipWith wrap (is.take (if ranks es < 4 then ranks es else 4))
      (cs'.drop (ranks es - if ranks es < 4 then ranks es else 4))))) = _
  rw [hwalk, hir, Nat.sub_self]
  show Except.ok (address32 (strides32 ir) (List.zipWith wrap ir ((coords er i).drop 0))) = _
  rw [List.drop_zero, haddr]

end Address

/-! ### The operands -/

theorem length_shape_le (od : OutputDef) : od.shape.length ≤ 5 := by
  rw [OutputDef.shape, List.length_take, Vector.length_toList]
  omega

/-- The operand is broadcast, and the first of its five axes is not passed to the device. -/
def Lost (src out : OutputDef) : Prop :=
  src.shape.prod < out.shape.prod ∧ src.shape.length = 5 ∧ src.shape.headD 1 ≠ 1

instance (src out : OutputDef) : Decidable (Lost src out) := by
  unfold Lost
  infer_instance

/-- The place of the operand's element for a cell of the output. -/
def readAt (src out : OutputDef) (cs : List ℕ) : ℕ :=
  lin src.shape (source src.shape out.shape cs)

section Operand

variable {src out : OutputDef} {x : Tensor} (hpos : 1 ≤ src.shape.length)
  (hb : Broadcasts src.shape out.shape) (hcells : 0 < out.shape.prod)
  (hN : 2 * out.shape.prod < 2 ^ 32) (hx : x.count = src.shape.prod)

/-- The last four of the operand's five axes. -/
def lastAxes (src : OutputDef) : List ℕ := (pad5 src.shape).drop 1

/-- The place that the device derives from the last four axes. -/
def deviceAt (src : OutputDef) (cs : List ℕ) : ℕ :=
  lin (lastAxes src) (List.zipWith pin (lastAxes src) ((zeros5 cs).drop 1))

theorem pad5_cons (od : OutputDef) :
    pad5 od.shape = (pad5 od.shape).headD 1 :: lastAxes od ∧ (lastAxes od).length = 4 := by
  have hlen := length_pad5 (length_shape_le od)
  unfold lastAxes
  cases hpad : pad5 od.shape with
  | nil =>
    rw [hpad] at hlen
    exact absurd hlen (by decide)
  | cons d ds =>
    rw [hpad] at hlen
    exact ⟨rfl, Nat.succ.inj hlen⟩

include hb in
theorem last_fits : List.Forall₂ Fits (lastAxes src) (lastAxes out) := by
  have h := hb.pad5 (length_shape_le out)
  exact List.forall₂_drop 1 h

include hb in
theorem readAt_eq {cs : List ℕ} (hcs : Within cs out.shape) :
    readAt src out cs = pin ((pad5 src.shape).headD 1) ((zeros5 cs).headD 0) *
      (lastAxes src).prod + deviceAt src cs := by
  have hcs5 := zeros5_within hcs
  have hlen : (zeros5 cs).length = 5 :=
    hcs5.length_eq.trans (length_pad5 (length_shape_le out))
  rw [readAt, ← lin_source hb (length_shape_le out) hcs, deviceAt]
  cases hz : zeros5 cs with
  | nil =>
    rw [hz] at hlen
    exact absurd hlen (by decide)
  | cons c rest =>
    rw [(pad5_cons src).1]
    rfl

include hb in
theorem readAt_lt {cs : List ℕ} (hcs : Within cs out.shape) :
    readAt src out cs < src.shape.prod := by
  have hout := length_shape_le out
  rw [readAt, ← lin_source hb hout hcs, ← prod_pad5]
  exact lin_lt (pinned_within (hb.pad5 hout) (zeros5_within hcs))

include hpos hb hcells hN hx in
theorem execBroadcast_reads (old : ℕ → UInt16) :
    ∃ y, execBroadcast ⟨out.shape.prod, src.shape.prod, fold4 src, fold4 out⟩ x old = .ok y ∧
      y.length = out.shape.prod ∧ ∀ cs, Within cs out.shape →
        y[lin out.shape cs]? = x.data[deviceAt src cs]? := by
  have hout := length_shape_le out
  obtain ⟨hspos, hsle⟩ := prod_le (hb.pad5 hout) (by rw [prod_pad5]; exact hcells)
  rw [prod_pad5, prod_pad5] at hsle
  rw [prod_pad5] at hspos
  obtain ⟨hocons, holen⟩ := pad5_cons out
  obtain ⟨hicons, -⟩ := pad5_cons src
  have hfold : fold4 src = lastAxes src := fold4_eq_drop src hpos (length_shape_le src) hspos
    (by omega)
  have hfold' : fold4 out = lastAxes out := fold4_eq_drop out (hpos.trans hb.length_le) hout hcells
    (by omega)
  have hprod : out.shape.prod = (pad5 out.shape).headD 1 * (lastAxes out).prod := by
    rw [← prod_pad5]
    conv_lhs => rw [hocons]
    exact List.prod_cons
  have hlast : (lastAxes out).prod < 2 ^ 32 := by
    have hle := Nat.le_mul_of_pos_left (lastAxes out).prod
      (Nat.pos_of_mul_pos_right (hprod ▸ hcells))
    omega
  have hread : ∀ cs, Within cs out.shape → broadcastAddress
      ⟨out.shape.prod, src.shape.prod, lastAxes src, lastAxes out⟩ (lin out.shape cs) =
        .ok (deviceAt src cs) := by
    intro cs hcs
    have hcs5 := zeros5_within hcs
    rw [← lin_pad5 hcs]
    unfold deviceAt
    rw [hocons] at hcs5 ⊢
    cases hz : zeros5 cs with
    | nil =>
      rw [hz] at hcs5
      cases hcs5
    | cons c rest =>
      rw [hz] at hcs5
      cases hcs5 with
      | cons _ hrest =>
        rw [lin_cons]
        exact broadcastAddress_eq holen (last_fits hb) hlast hrest _ _
  rw [hfold, hfold', execBroadcast, if_neg (by
    show src.shape.prod ≠ 0
    omega)]
  have haddr : ∀ i < out.shape.prod, broadcastAddress
      ⟨out.shape.prod, src.shape.prod, lastAxes src, lastAxes out⟩ i =
        .ok (deviceAt src (coords out.shape i)) := by
    intro i hi
    rw [← hread _ (coords_within hi), lin_coords hi]
  obtain ⟨y, hy, hylen, hval⟩ := copy_runs (x := x) (y := tempGet old (out.shape.prod * 2)) haddr
    (fun i hi => by
      have hcs := coords_within hi
      have hright := readAt_lt hb hcs
      rw [readAt_eq hb hcs] at hright
      omega)
    (by rw [length_tempGet_of_lt _ (by omega)])
  refine ⟨y, hy, by rw [hylen, length_tempGet_of_lt _ (by omega)], fun cs hcs => ?_⟩
  rw [hval _ (lin_lt hcs), coords_lin hcs]

include hb hcells in
theorem readAt_full (hfull : out.shape.prod ≤ src.shape.prod) {cs : List ℕ}
    (hcs : Within cs out.shape) : readAt src out cs = lin out.shape cs := by
  have hout := length_shape_le out
  have heq : pad5 src.shape = pad5 out.shape :=
    eq_of_prod_le (hb.pad5 hout) (by rw [prod_pad5]; exact hcells) (by
      rw [prod_pad5, prod_pad5]
      exact hfull)
  rw [readAt, ← lin_source hb hout hcs, heq, zipWith_pin_self (zeros5_within hcs), lin_pad5 hcs]

theorem first_axis (src : OutputDef) : (pad5 src.shape).headD 1 = 1 ∨
    src.shape.length = 5 ∧ (pad5 src.shape).headD 1 = src.shape.headD 1 := by
  by_cases hfive : src.shape.length = 5
  · refine Or.inr ⟨hfive, ?_⟩
    rw [pad5, hfive]
    rfl
  · have hlen := length_shape_le src
    have hsucc : 5 - src.shape.length = (4 - src.shape.length) + 1 := by omega
    refine Or.inl ?_
    rw [pad5, hsucc]
    rfl

/-- Where the element-wise operator has its element from: the right place, or that of the last four
axes. -/
def foundAt (src out : OutputDef) (cs : List ℕ) : ℕ :=
  if Lost src out then deviceAt src cs else readAt src out cs

include hpos hb hcells hN hx in
theorem operand_spec (old : ℕ → UInt16) :
    ∃ y, operand (some src) out x old = .ok y ∧ y.length = out.shape.prod ∧
      ∀ cs, Within cs out.shape → y[lin out.shape cs]? = x.data[foundAt src out cs]? := by
  have hsle := (prod_le (hb.pad5 (length_shape_le out)) (by rw [prod_pad5]; exact hcells))
  rw [prod_pad5, prod_pad5] at hsle
  have hs : elemsOf src = src.shape.prod := elemsOf_eq (by omega)
  have hn : elemsOf out = out.shape.prod := elemsOf_eq (by omega)
  by_cases hfull : out.shape.prod ≤ src.shape.prod
  · have hmat : materialize (some src) out = none := if_pos (Or.inr (by omega))
    have hnot : ¬Lost src out := fun h => by
      have := h.1
      omega
    refine ⟨x.data, by rw [operand, hmat], ?_, fun cs hcs => ?_⟩
    · have : x.data.length = src.shape.prod := hx
      omega
    · rw [foundAt, if_neg hnot, readAt_full hb hcells hfull hcs]
  · have hmat : materialize (some src) out =
        some ⟨out.shape.prod, src.shape.prod, fold4 src, fold4 out⟩ := by
      have hif : materialize (some src) out =
          some ⟨u32 (elemsOf out), u32 (elemsOf src), fold4 src, fold4 out⟩ := if_neg (by omega)
      rw [hif, hs, hn, u32_of_lt (by omega), u32_of_lt (by omega)]
    obtain ⟨y, hy, hylen, hval⟩ := execBroadcast_reads hpos hb hcells hN hx old
    refine ⟨y, by rw [operand, hmat]; exact hy, hylen, fun cs hcs => ?_⟩
    rw [hval cs hcs, foundAt]
    by_cases hlost : Lost src out
    · rw [if_pos hlost]
    · rw [if_neg hlost, readAt_eq hb hcs]
      have hone : (pad5 src.shape).headD 1 = 1 := by
        cases first_axis src with
        | inl h => exact h
        | inr h =>
          by_contra hne
          exact hlost ⟨by omega, h.1, h.2 ▸ hne⟩
      rw [hone]
      show _ = x.data[0 * (lastAxes src).prod + deviceAt src cs]?
      rw [Nat.zero_mul, Nat.zero_add]

/-- The first cell beyond the first block of four axes. -/
def secondBlock : List ℕ := [1, 0, 0, 0, 0]

include hb hcells in
theorem secondBlock_moved (hlost : Lost src out) :
    Within secondBlock out.shape ∧ deviceAt src secondBlock = 0 ∧ 0 < readAt src out secondBlock ∧
      readAt src out secondBlock < src.shape.prod := by
  obtain ⟨-, hfive, hne⟩ := hlost
  have hofive : out.shape.length = 5 := by
    have hle := hb.length_le
    have hout := length_shape_le out
    omega
  have hspos : 0 < src.shape.prod := by
    have hpos := (prod_le (hb.pad5 (length_shape_le out)) (by rw [prod_pad5]; exact hcells)).1
    rw [prod_pad5] at hpos
    exact hpos
  obtain ⟨d, ds, hs⟩ := List.exists_of_length_succ _ hfive
  obtain ⟨e, es, ho⟩ := List.exists_of_length_succ _ hofive
  have hds : ds.length = 4 := by
    rw [hs] at hfive
    exact Nat.succ.inj hfive
  have hfits : List.Forall₂ Fits (d :: ds) (e :: es) := by
    have := hb.fits
    rw [hofive, hfive, hs, ho] at this
    exact this
  have hd : d ≠ 1 := by
    rw [hs] at hne
    exact hne
  have hsin := coords_within hspos
  have hoin := coords_within hcells
  rw [coords_zero, hfive, hs] at hsin
  rw [coords_zero, hofive, ho] at hoin
  have hwithin : Within secondBlock out.shape := by
    rw [ho]
    cases hfits with
    | cons hde _ =>
      cases hsin with
      | cons hdpos _ =>
        cases hoin with
        | cons _ hzeros =>
          have hde' := hde.resolve_left hd
          exact List.Forall₂.cons (by omega) hzeros
  have hlast : lastAxes src = ds := by
    rw [lastAxes, pad5, hfive, hs]
    rfl
  have hdev : deviceAt src secondBlock = 0 := by
    obtain ⟨d1, d2, d3, d4, rfl⟩ := List.length_eq_four.mp hds
    rw [deviceAt, hlast]
    show lin [d1, d2, d3, d4] [pin d1 0, pin d2 0, pin d3 0, pin d4 0] = 0
    simp [pin]
  have hread := readAt_eq hb hwithin
  have hhead : (pad5 src.shape).headD 1 = d := by
    rw [pad5, hfive, hs]
    rfl
  have hpin : pin d 1 = 1 := if_neg hd
  have hright : readAt src out secondBlock = ds.prod := by
    rw [hread, hdev, hlast, hhead]
    show pin d 1 * ds.prod + 0 = ds.prod
    rw [hpin, Nat.one_mul, Nat.add_zero]
  refine ⟨hwithin, hdev, ?_, readAt_lt hb hwithin⟩
  rw [hright]
  rw [hs, List.prod_cons] at hspos
  exact Nat.pos_of_mul_pos_left hspos

include hb hcells in
theorem lost_iff (hsrc : 2 * src.shape.prod < 2 ^ 32) :
    (∀ x : Tensor, x.count = src.shape.prod → ∀ cs, Within cs out.shape →
      x.data.getD (foundAt src out cs) 0 = x.data.getD (readAt src out cs) 0) ↔ ¬Lost src out := by
  constructor
  · intro h hlost
    obtain ⟨hin, hdev, hpos, hlt⟩ := secondBlock_moved hb hcells hlost
    have hmark := h (Tensor.indicator _ hsrc (readAt src out secondBlock))
      (count_indicator hsrc _) secondBlock hin
    rw [foundAt, if_pos hlost, hdev, getD_indicator hsrc (by omega), getD_indicator hsrc hlt,
      if_pos rfl, if_neg (by omega)] at hmark
    exact absurd hmark (by decide)
  · intro hlost x _ cs _
    rw [foundAt, if_neg hlost]

end Operand

/-! ### The operators -/

section Operators

variable {srcA srcB srcC out : OutputDef} {a b c : Tensor} {old : OldTemps}

/-- An operand, read right for the cell of the output. -/
def elementAt (src out : OutputDef) (x : Tensor) (cs : List ℕ) : UInt16 :=
  x.data.getD (readAt src out cs) 0

/-- For every cell of the output the binary operator computes its result from the elements at the
cell's place in both operands. -/
def BinaryReads (operation sub : ℕ) (srcA srcB out : OutputDef) : Prop :=
  ∀ (kernel : ℕ → UInt16 → UInt16 → UInt16) (a b : Tensor), a.count = srcA.shape.prod →
    b.count = srcB.shape.prod → ∀ old cs, Within cs out.shape →
      ∃ y, eltwiseBinary kernel operation (some srcA) (some srcB) out a b old = .ok y ∧
        y[lin out.shape cs]? =
          some (kernel sub (elementAt srcA out a cs) (elementAt srcB out b cs))

/-- For every cell of the output SELECT takes one of the elements at the cell's place in two
operands, by that in a third. -/
def SelectReads (srcC srcA srcB out : OutputDef) : Prop :=
  ∀ (truth : UInt16 → Bool) (pass : UInt16 → UInt16) (c a b : Tensor),
    c.count = srcC.shape.prod → a.count = srcA.shape.prod → b.count = srcB.shape.prod →
      ∀ old cs, Within cs out.shape →
        ∃ y, eltwiseTernary truth pass (some srcC) (some srcA) (some srcB) out c a b old = .ok y ∧
          y[lin out.shape cs]? = some (pass (if truth (elementAt srcC out c cs) then
            elementAt srcA out a cs else elementAt srcB out b cs))

theorem execBinary_spec {a b : List UInt16} (ha : a.length = n) (hb : b.length = n)
    (hN : 2 * n < 2 ^ 32) (kernel : UInt16 → UInt16 → UInt16) (old : ℕ → UInt16) :
    ∃ y, execBinary kernel a b n old = .ok y ∧
      ∀ i < n, y[i]? = some (kernel (a.getD i 0) (b.getD i 0)) := by
  have hcell : ∀ i < n, (do
      let x0 ← entryAt a i
      let x1 ← entryAt b i
      .ok (i, kernel x0 x1) : Checked String (ℕ × UInt16)) =
        .ok (i, kernel (a.getD i 0) (b.getD i 0)) := by
    intro i hi
    rw [entryAt_getD (by omega) 0, entryAt_getD (by omega) 0]
    rfl
  obtain ⟨y, hy, -, hval⟩ := fillLoop_range _ _ hcell (y := tempGet old (n * 2)) (by
    rw [length_tempGet_of_lt _ hN])
  exact ⟨y, hy, hval⟩

theorem selectIndex_self {i : ℕ} (hi : i < n) : selectIndex n n i = i := by
  unfold selectIndex
  split
  · omega
  · rw [if_neg (Nat.lt_irrefl n)]

theorem execSelect_spec {c tv fv : List UInt16} (hc : c.length = n) (ht : tv.length = n)
    (hf : fv.length = n) (hn : 0 < n) (hN : 2 * n < 2 ^ 32) (truth : UInt16 → Bool)
    (pass : UInt16 → UInt16) (old : ℕ → UInt16) :
    ∃ y, execSelect truth pass c tv fv old = .ok y ∧ ∀ i < n, y[i]? =
      some (pass (if truth (c.getD i 0) then tv.getD i 0 else fv.getD i 0)) := by
  have hcell : ∀ i < n, selectCell truth pass c tv fv n i =
      .ok (i, pass (if truth (c.getD i 0) then tv.getD i 0 else fv.getD i 0)) := by
    intro i hi
    rw [selectCell, hc, ht, hf, selectIndex_self hi, entryAt_getD (by omega) 0,
      entryAt_getD (by omega) 0, entryAt_getD (by omega) 0]
    show (if truth (c.getD i 0) then Except.ok (tv.getD i 0) else Except.ok (fv.getD i 0)).map
      (fun v => (i, pass v)) = _
    split
    · rfl
    · rfl
  obtain ⟨y, hy, -, hval⟩ := fillLoop_range _ _ hcell (y := tempGet old (n * 2)) (by
    rw [length_tempGet_of_lt _ hN])
  have hcount : selectCount c.length tv.length fv.length = n := by
    unfold selectCount
    rw [hc, ht, hf, if_neg (Nat.lt_irrefl n)]
    exact if_neg (Nat.lt_irrefl n)
  refine ⟨y, ?_, hval⟩
  unfold execSelect
  rw [hcount]
  exact (if_neg (by omega)).trans hy

theorem binary_spec {sub : ℕ} (hop : qnnBinaryToSub operation = some sub)
    (hA : 1 ≤ srcA.shape.length) (hB : 1 ≤ srcB.shape.length)
    (hbA : Broadcasts srcA.shape out.shape) (hbB : Broadcasts srcB.shape out.shape)
    (hcells : 0 < out.shape.prod) (hN : 2 * out.shape.prod < 2 ^ 32)
    (ha : a.count = srcA.shape.prod) (hb : b.count = srcB.shape.prod)
    (kernel : ℕ → UInt16 → UInt16 → UInt16) (old : OldTemps) :
    ∃ y, eltwiseBinary kernel operation (some srcA) (some srcB) out a b old = .ok y ∧
      ∀ cs, Within cs out.shape → y[lin out.shape cs]? = some (kernel sub
        (a.data.getD (foundAt srcA out cs) 0) (b.data.getD (foundAt srcB out cs) 0)) := by
  obtain ⟨a', ha', halen, haval⟩ := operand_spec hA hbA hcells hN ha old.a
  obtain ⟨b', hb', hblen, hbval⟩ := operand_spec hB hbB hcells hN hb old.b
  obtain ⟨y, hy, hval⟩ := execBinary_spec halen hblen hN (kernel sub) old.out
  refine ⟨y, ?_, fun cs hcs => ?_⟩
  · rw [eltwiseBinary, hop]
    show (operand (some srcA) out a old.a >>= _) = _
    rw [ha']
    show (operand (some srcB) out b old.b >>= _) = _
    rw [hb', elemsOf_eq (by omega), u32_of_lt (by omega)]
    exact hy
  · rw [hval _ (lin_lt hcs), getD_of_getElem? (haval cs hcs), getD_of_getElem? (hbval cs hcs)]

theorem select_spec (hC : 1 ≤ srcC.shape.length) (hA : 1 ≤ srcA.shape.length)
    (hB : 1 ≤ srcB.shape.length) (hbC : Broadcasts srcC.shape out.shape)
    (hbA : Broadcasts srcA.shape out.shape) (hbB : Broadcasts srcB.shape out.shape)
    (hcells : 0 < out.shape.prod) (hN : 2 * out.shape.prod < 2 ^ 32)
    (hc : c.count = srcC.shape.prod) (ha : a.count = srcA.shape.prod)
    (hb : b.count = srcB.shape.prod) (truth : UInt16 → Bool) (pass : UInt16 → UInt16)
    (old : OldTemps) :
    ∃ y, eltwiseTernary truth pass (some srcC) (some srcA) (some srcB) out c a b old = .ok y ∧
      ∀ cs, Within cs out.shape → y[lin out.shape cs]? = some (pass
        (if truth (c.data.getD (foundAt srcC out cs) 0) then a.data.getD (foundAt srcA out cs) 0
          else b.data.getD (foundAt srcB out cs) 0)) := by
  obtain ⟨c', hc', hclen, hcval⟩ := operand_spec hC hbC hcells hN hc old.c
  obtain ⟨a', ha', halen, haval⟩ := operand_spec hA hbA hcells hN ha old.a
  obtain ⟨b', hb', hblen, hbval⟩ := operand_spec hB hbB hcells hN hb old.b
  obtain ⟨y, hy, hval⟩ := execSelect_spec hclen halen hblen hcells hN truth pass old.out
  refine ⟨y, ?_, fun cs hcs => ?_⟩
  · rw [eltwiseTernary, hc']
    show (operand (some srcA) out a old.a >>= _) = _
    rw [ha']
    show (operand (some srcB) out b old.b >>= _) = _
    rw [hb']
    exact hy
  · rw [hval _ (lin_lt hcs), getD_of_getElem? (hcval cs hcs), getD_of_getElem? (haval cs hcs),
      getD_of_getElem? (hbval cs hcs)]

theorem length_binary_lt {kernel : ℕ → UInt16 → UInt16 → UInt16} {sA sB : Option OutputDef}
    (h : eltwiseBinary kernel operation sA sB out a b old = .ok y) : y.length < 2 ^ 31 := by
  unfold eltwiseBinary at h
  split at h
  · cases h
  · rw [bind_eq_ok] at h
    obtain ⟨a', -, h⟩ := h
    rw [bind_eq_ok] at h
    obtain ⟨b', -, h⟩ := h
    exact length_lt_of_fill h

theorem length_ternary_lt {truth : UInt16 → Bool} {pass : UInt16 → UInt16}
    {sC sA sB : Option OutputDef} (h : eltwiseTernary truth pass sC sA sB out c a b old = .ok y) :
    y.length < 2 ^ 31 := by
  rw [eltwiseTernary, bind_eq_ok] at h
  obtain ⟨c', -, h⟩ := h
  rw [bind_eq_ok] at h
  obtain ⟨a', -, h⟩ := h
  rw [bind_eq_ok] at h
  obtain ⟨b', -, h⟩ := h
  unfold execSelect at h
  simp only at h
  split at h
  · cases h
  · exact length_lt_of_fill h

theorem fits_of_last (hcells : 0 < out.shape.prod) (hlen : y.length < 2 ^ 31)
    (h : y[lin out.shape (coords out.shape (out.shape.prod - 1))]? = some v) :
    2 * out.shape.prod < 2 ^ 32 := by
  rw [lin_coords (by omega)] at h
  have := (List.getElem?_eq_some_iff.mp h).1
  omega

def filled (v : UInt16) (N : ℕ) (hN : 2 * N < 2 ^ 32) : Tensor where
  data := List.replicate N v
  fits := by
    rw [List.length_replicate]
    exact hN

theorem count_filled (hN : 2 * N < 2 ^ 32) : (filled v N hN).count = N :=
  List.length_replicate

theorem getD_filled {i : ℕ} (hN : 2 * N < 2 ^ 32) (hi : i < N) :
    (filled v N hN).data.getD i 0 = v := by
  show (List.replicate N v).getD i 0 = v
  rw [List.getD_eq_getElem _ _ (by rw [List.length_replicate]; exact hi), List.getElem_replicate]

theorem getD_filled_zero (hN : 2 * N < 2 ^ 32) (i : ℕ) : (filled 0 N hN).data.getD i 0 = 0 := by
  by_cases hi : i < N
  · exact getD_filled hN hi
  · exact List.getD_eq_default _ _ (by
      show (List.replicate N 0).length ≤ i
      rw [List.length_replicate]
      omega)

/-- An operand on the device whose shape fits that of the output. -/
structure Operand (src out : OutputDef) : Prop where
  rank : 1 ≤ src.shape.length
  broadcasts : Broadcasts src.shape out.shape
  fits : 2 * src.shape.prod < 2 ^ 32

variable (hA : Operand srcA out) (hB : Operand srcB out) (hC : Operand srcC out)

/-- The output fits a temp, unless it is empty, and no operand loses an axis. -/
def NoneLost (srcs : List OutputDef) (out : OutputDef) : Prop :=
  out.shape.prod = 0 ∨ 2 * out.shape.prod < 2 ^ 32 ∧ ∀ src ∈ srcs, ¬Lost src out

include hA hB in
theorem binary_reads_iff {sub : ℕ} (hop : qnnBinaryToSub operation = some sub) :
    BinaryReads operation sub srcA srcB out ↔ NoneLost [srcA, srcB] out := by
  by_cases hzero : out.shape.prod = 0
  · refine iff_of_true (fun _ _ _ _ _ _ cs hcs => ?_) (Or.inl hzero)
    have := hcs.prod_pos
    omega
  have hcells := Nat.pos_of_ne_zero hzero
  constructor
  · intro h
    have hN : 2 * out.shape.prod < 2 ^ 32 := by
      obtain ⟨y, hy, hlast⟩ := h (fun _ x _ => x) (filled 1 _ hA.fits) (filled 1 _ hB.fits)
        (count_filled _) (count_filled _) ⟨fun _ => 0, fun _ => 0, fun _ => 0, fun _ => 0⟩ _
        (coords_within (Nat.sub_one_lt hzero))
      exact fits_of_last hcells (length_binary_lt hy) hlast
    have hfound : ∀ (kernel : ℕ → UInt16 → UInt16 → UInt16) (a b : Tensor),
        a.count = srcA.shape.prod → b.count = srcB.shape.prod → ∀ cs, Within cs out.shape →
        kernel sub (a.data.getD (foundAt srcA out cs) 0) (b.data.getD (foundAt srcB out cs) 0) =
          kernel sub (elementAt srcA out a cs) (elementAt srcB out b cs) := by
      intro kernel a b ha hb cs hcs
      obtain ⟨y, hy, hval⟩ := h kernel a b ha hb
        ⟨fun _ => 0, fun _ => 0, fun _ => 0, fun _ => 0⟩ cs hcs
      obtain ⟨y', hy', hval'⟩ := binary_spec hop hA.rank hB.rank hA.broadcasts hB.broadcasts
        hcells hN ha hb kernel ⟨fun _ => 0, fun _ => 0, fun _ => 0, fun _ => 0⟩
      rw [hy] at hy'
      cases hy'
      exact Option.some.inj ((hval' cs hcs).symm.trans hval)
    have hfirst : ¬Lost srcA out := (lost_iff hA.broadcasts hcells hA.fits).mp
      fun x hx cs hcs => hfound (fun _ x _ => x) x (filled 1 _ hB.fits) hx (count_filled _) cs hcs
    have hsecond : ¬Lost srcB out := (lost_iff hB.broadcasts hcells hB.fits).mp
      fun x hx cs hcs => hfound (fun _ _ x => x) (filled 1 _ hA.fits) x (count_filled _) hx cs hcs
    refine Or.inr ⟨hN, fun src hsrc => ?_⟩
    rw [List.mem_cons, List.mem_singleton] at hsrc
    cases hsrc with
    | inl h => exact h ▸ hfirst
    | inr h => exact h ▸ hsecond
  · intro h kernel a b ha hb old cs hcs
    obtain ⟨hN, hlost⟩ := h.resolve_left hzero
    obtain ⟨y, hy, hval⟩ := binary_spec hop hA.rank hB.rank hA.broadcasts hB.broadcasts hcells hN
      ha hb kernel old
    refine ⟨y, hy, ?_⟩
    rw [hval cs hcs, foundAt, if_neg (hlost srcA (by simp)), foundAt, if_neg (hlost srcB (by simp))]
    rfl

include hA hB hC in
theorem select_reads_iff :
    SelectReads srcC srcA srcB out ↔ NoneLost [srcC, srcA, srcB] out := by
  by_cases hzero : out.shape.prod = 0
  · refine iff_of_true (fun _ _ _ _ _ _ _ _ _ cs hcs => ?_) (Or.inl hzero)
    have := hcs.prod_pos
    omega
  have hcells := Nat.pos_of_ne_zero hzero
  constructor
  · intro h
    have hN : 2 * out.shape.prod < 2 ^ 32 := by
      obtain ⟨y, hy, hlast⟩ := h (fun _ => true) id (filled 1 _ hC.fits) (filled 1 _ hA.fits)
        (filled 1 _ hB.fits) (count_filled _) (count_filled _) (count_filled _)
        ⟨fun _ => 0, fun _ => 0, fun _ => 0, fun _ => 0⟩ _ (coords_within (Nat.sub_one_lt hzero))
      exact fits_of_last hcells (length_ternary_lt hy) hlast
    have hfound : ∀ (truth : UInt16 → Bool) (c a b : Tensor), c.count = srcC.shape.prod →
        a.count = srcA.shape.prod → b.count = srcB.shape.prod → ∀ cs, Within cs out.shape →
        (if truth (c.data.getD (foundAt srcC out cs) 0) then a.data.getD (foundAt srcA out cs) 0
          else b.data.getD (foundAt srcB out cs) 0) =
        if truth (elementAt srcC out c cs) then elementAt srcA out a cs
          else elementAt srcB out b cs := by
      intro truth c a b hc ha hb cs hcs
      obtain ⟨y, hy, hval⟩ := h truth id c a b hc ha hb
        ⟨fun _ => 0, fun _ => 0, fun _ => 0, fun _ => 0⟩ cs hcs
      obtain ⟨y', hy', hval'⟩ := select_spec hC.rank hA.rank hB.rank hC.broadcasts hA.broadcasts
        hB.broadcasts hcells hN hc ha hb truth id ⟨fun _ => 0, fun _ => 0, fun _ => 0, fun _ => 0⟩
      rw [hy] at hy'
      cases hy'
      exact Option.some.inj ((hval' cs hcs).symm.trans hval)
    have htrue : ¬Lost srcA out := (lost_iff hA.broadcasts hcells hA.fits).mp
      fun x hx cs hcs => hfound (fun _ => true) (filled 1 _ hC.fits) x (filled 1 _ hB.fits)
        (count_filled _) hx (count_filled _) cs hcs
    have hfalse : ¬Lost srcB out := (lost_iff hB.broadcasts hcells hB.fits).mp
      fun x hx cs hcs => hfound (fun _ => false) (filled 1 _ hC.fits) (filled 1 _ hA.fits) x
        (count_filled _) (count_filled _) hx cs hcs
    -- the condition is told by ones where it holds and zeros elsewhere
    have hcond : ¬Lost srcC out := by
      refine (lost_iff hC.broadcasts hcells hC.fits).mp fun x hx cs hcs => ?_
      by_contra hne
      have htest := hfound (fun v => decide (v = elementAt srcC out x cs)) x (filled 1 _ hA.fits)
        (filled 0 _ hB.fits) hx (count_filled _) (count_filled _) cs hcs
      rw [if_neg (by
        rw [decide_eq_true_eq]
        exact hne), getD_filled_zero, if_pos (decide_eq_true rfl), elementAt,
        getD_filled hA.fits (readAt_lt hA.broadcasts hcs)] at htest
      exact absurd htest (by decide)
    refine Or.inr ⟨hN, fun src hsrc => ?_⟩
    rw [List.mem_cons, List.mem_cons, List.mem_singleton] at hsrc
    rcases hsrc with h | h | h
    · exact h ▸ hcond
    · exact h ▸ htrue
    · exact h ▸ hfalse
  · intro h truth pass c a b hc ha hb old cs hcs
    obtain ⟨hN, hlost⟩ := h.resolve_left hzero
    obtain ⟨y, hy, hval⟩ := select_spec hC.rank hA.rank hB.rank hC.broadcasts hA.broadcasts
      hB.broadcasts hcells hN hc ha hb truth pass old
    refine ⟨y, hy, ?_⟩
    rw [hval cs hcs, foundAt, if_neg (hlost srcC (by simp)), foundAt, if_neg (hlost srcA (by simp)),
      foundAt, if_neg (hlost srcB (by simp))]
    rfl

end Operators

/-! ### Two operands of a matrix -/

theorem column_operand : Operand (OutputDef.matrix 2 1) (OutputDef.matrix 2 3) where
  rank := by decide
  broadcasts := ⟨by decide, List.Forall₂.cons (Or.inr rfl)
    (List.Forall₂.cons (Or.inl rfl) List.Forall₂.nil)⟩
  fits := by decide

theorem row_operand : Operand (OutputDef.vector 3 0 2 0) (OutputDef.matrix 2 3) where
  rank := by decide
  broadcasts := ⟨by decide, List.Forall₂.cons (Or.inr rfl) List.Forall₂.nil⟩
  fits := by decide

end Gehtp.Analysis.BroadcastReads
