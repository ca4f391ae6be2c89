import Mathlib.Algebra.BigOperators.Group.List.Basic
import Mathlib.Algebra.Order.Ring.Nat
import Mathlib.Data.List.GetD

/-!
# Row-major layouts

The cells of a box of a given shape are laid out one after the other, the last coordinate running
fastest. `lin` is the place of a cell and `coords` its inverse. An axis of size 1 does not matter:
deleting it from the shape and from the coordinates leaves every place as it was.
-/

set_option autoImplicit false

namespace Gehtp.Lib.RowMajor

/-- The coordinates of a cell stay inside the shape. -/
abbrev Within (cs shape : List ℕ) : Prop := List.Forall₂ (fun c d => c < d) cs shape

/-- The place of a cell. -/
def lin : List ℕ → List ℕ → ℕ
  | _ :: ds, c :: cs => c * ds.prod + lin ds cs
  | _, _ => 0

/-- The coordinates of the cell at a place. -/
def coords : List ℕ → ℕ → List ℕ
  | [], _ => []
  | _ :: ds, i => i / ds.prod :: coords ds (i % ds.prod)

/-- How far apart neighbours along each axis are. -/
def strides : List ℕ → List ℕ
  | [] => []
  | _ :: ds => ds.prod :: strides ds

/-- The sum of the coordinates, each times its stride. -/
def dot : List ℕ → List ℕ → ℕ
  | s :: ss, c :: cs => c * s + dot ss cs
  | _, _ => 0

variable {shape cs : List ℕ} {i : ℕ}

@[simp] theorem lin_nil (cs : List ℕ) : lin [] cs = 0 := rfl

@[simp] theorem lin_cons (d c : ℕ) (ds cs : List ℕ) :
    lin (d :: ds) (c :: cs) = c * ds.prod + lin ds cs := rfl

theorem lin_single (d c : ℕ) : lin [d] [c] = c := by
  rw [lin_cons, lin_nil, List.prod_nil, Nat.mul_one, Nat.add_zero]

@[simp] theorem coords_nil (i : ℕ) : coords [] i = [] := rfl

@[simp] theorem coords_cons (d : ℕ) (ds : List ℕ) (i : ℕ) :
    coords (d :: ds) i = i / ds.prod :: coords ds (i % ds.prod) := rfl

@[simp] theorem strides_cons (d : ℕ) (ds : List ℕ) :
    strides (d :: ds) = ds.prod :: strides ds := rfl

@[simp] theorem dot_nil (cs : List ℕ) : dot [] cs = 0 := rfl

@[simp] theorem dot_cons (s c : ℕ) (ss cs : List ℕ) : dot (s :: ss) (c :: cs) = c * s + dot ss cs :=
  rfl

@[simp] theorem length_coords (shape : List ℕ) (i : ℕ) : (coords shape i).length = shape.length := by
  induction shape generalizing i with
  | nil => rfl
  | cons d ds ih => simp [ih]

@[simp] theorem length_strides (shape : List ℕ) : (strides shape).length = shape.length := by
  induction shape with
  | nil => rfl
  | cons d ds ih => simp [ih]

theorem dot_strides (shape cs : List ℕ) : dot (strides shape) cs = lin shape cs := by
  induction shape generalizing cs with
  | nil => rfl
  | cons d ds ih =>
    cases cs with
    | nil => rfl
    | cons c cs => rw [strides_cons, dot_cons, lin_cons, ih]

theorem lin_lt (h : Within cs shape) : lin shape cs < shape.prod := by
  induction h with
  | nil => exact Nat.one_pos
  | @cons c d cs ds hc _ ih =>
    calc c * ds.prod + lin ds cs < c * ds.prod + ds.prod := Nat.add_lt_add_left ih _
      _ = (c + 1) * ds.prod := (Nat.succ_mul c ds.prod).symm
      _ ≤ d * ds.prod := Nat.mul_le_mul_right _ hc
      _ = (d :: ds).prod := List.prod_cons.symm

theorem coords_within (h : i < shape.prod) : Within (coords shape i) shape := by
  induction shape generalizing i with
  | nil => exact List.Forall₂.nil
  | cons d ds ih =>
    rw [List.prod_cons] at h
    have hpos : 0 < ds.prod := Nat.pos_of_ne_zero fun h0 => by
      rw [h0, Nat.mul_zero] at h
      exact Nat.not_lt_zero i h
    refine List.Forall₂.cons ?_ (ih (Nat.mod_lt i hpos))
    exact (Nat.div_lt_iff_lt_mul hpos).mpr h

theorem lin_coords (h : i < shape.prod) : lin shape (coords shape i) = i := by
  induction shape generalizing i with
  | nil =>
    rw [List.prod_nil] at h
    exact (Nat.lt_one_iff.mp h).symm
  | cons d ds ih =>
    rw [List.prod_cons] at h
    have hpos : 0 < ds.prod := Nat.pos_of_ne_zero fun h0 => by
      rw [h0, Nat.mul_zero] at h
      exact Nat.not_lt_zero i h
    rw [coords_cons, lin_cons, ih (Nat.mod_lt i hpos)]
    exact Nat.div_add_mod' i ds.prod

theorem coords_lin (h : Within cs shape) : coords shape (lin shape cs) = cs := by
  induction h with
  | nil => rfl
  | @cons c d cs ds _ hcs ih =>
    have hlt : lin ds cs < ds.prod := lin_lt hcs
    have hdiv : (c * ds.prod + lin ds cs) / ds.prod = c := by
      rw [Nat.mul_comm, Nat.mul_add_div (by omega), Nat.div_eq_of_lt hlt, Nat.add_zero]
    have hmod : (c * ds.prod + lin ds cs) % ds.prod = lin ds cs := by
      rw [Nat.mul_comm, Nat.mul_add_mod, Nat.mod_eq_of_lt hlt]
    rw [lin_cons, coords_cons, hdiv, hmod, ih]

theorem lin_injective {cs' : List ℕ} (h : Within cs shape) (h' : Within cs' shape)
    (heq : lin shape cs = lin shape cs') : cs = cs' := by
  rw [← coords_lin h, ← coords_lin h', heq]

theorem Within.prod_pos (h : Within cs shape) : 0 < shape.prod := (Nat.zero_le _).trans_lt (lin_lt h)

theorem lin_one_cons (ds : List ℕ) (c : ℕ) (cs : List ℕ) (hc : c < 1) :
    lin (1 :: ds) (c :: cs) = lin ds cs := by
  rw [lin_cons, Nat.lt_one_iff.mp hc, Nat.zero_mul, Nat.zero_add]

variable {j d a : ℕ} {ds : List ℕ}

theorem lin_drop_ones (h : Within cs shape) (hones : ∀ d ∈ shape.take j, d = 1) :
    lin shape cs = lin (shape.drop j) (cs.drop j) := by
  induction j generalizing shape cs with
  | zero => rfl
  | succ j ih =>
    cases h with
    | nil => rfl
    | @cons c d cs ds hc hcs =>
      obtain rfl : d = 1 := hones d (List.mem_cons_self)
      rw [lin_one_cons ds c cs hc, List.drop_succ_cons, List.drop_succ_cons]
      exact ih hcs fun e he => hones e (List.mem_cons_of_mem _ he)

theorem prod_drop_ones (hones : ∀ d ∈ shape.take j, d = 1) : (shape.drop j).prod = shape.prod := by
  rw [← List.prod_take_mul_prod_drop shape j, List.prod_eq_one hones, Nat.one_mul]

theorem within_front {shape cs : List ℕ} (hj : j ≤ shape.length)
    (hones : ∀ d ∈ shape.take j, d = 1) (h : Within cs (shape.drop j)) :
    Within (List.replicate j 0 ++ cs) shape := by
  induction j generalizing shape with
  | zero => exact h
  | succ j ih =>
    cases shape with
    | nil => exact absurd hj (Nat.not_succ_le_zero j)
    | cons d ds =>
      obtain rfl : d = 1 := hones d List.mem_cons_self
      exact List.Forall₂.cons Nat.one_pos (ih (Nat.le_of_succ_le_succ hj)
        (fun e he => hones e (List.mem_cons_of_mem _ he)) h)

/-! ### Axes of size 1 at the ends -/

theorem prod_replicate_one (k : ℕ) : (List.replicate k 1).prod = 1 := by
  induction k with
  | zero => rfl
  | succ k ih => rw [List.replicate_succ, List.prod_cons, ih]

theorem lin_pad (k : ℕ) (ds cs : List ℕ) :
    lin (List.replicate k 1 ++ ds) (List.replicate k 0 ++ cs) = lin ds cs := by
  induction k with
  | zero => rfl
  | succ k ih =>
    rw [List.replicate_succ, List.replicate_succ, List.cons_append, List.cons_append,
      lin_one_cons _ _ _ Nat.one_pos, ih]

theorem prod_pad (k : ℕ) (ds : List ℕ) : (List.replicate k 1 ++ ds).prod = ds.prod := by
  rw [List.prod_append, prod_replicate_one, Nat.one_mul]

theorem strides_append_ones (ds : List ℕ) (k : ℕ) :
    strides (ds ++ List.replicate k 1) = strides ds ++ List.replicate k 1 := by
  induction ds with
  | nil =>
    induction k with
    | zero => rfl
    | succ k ih =>
      rw [List.nil_append] at ih
      rw [List.nil_append, List.replicate_succ, strides_cons, prod_replicate_one, ih]
      rfl
  | cons d ds ih =>
    rw [List.cons_append, strides_cons, strides_cons, List.cons_append, ih, List.prod_append,
      prod_replicate_one, Nat.mul_one]

theorem pad_within (k : ℕ) (h : Within cs shape) :
    Within (List.replicate k 0 ++ cs) (List.replicate k 1 ++ shape) := by
  induction k with
  | zero => exact h
  | succ k ih => exact List.Forall₂.cons Nat.one_pos ih

theorem lin_append_ones {cs : List ℕ} (k : ℕ) (h : cs.length = ds.length) :
    lin (ds ++ List.replicate k 1) (cs ++ List.replicate k 0) = lin ds cs := by
  induction ds generalizing cs with
  | nil =>
    obtain rfl := List.length_eq_zero_iff.mp h
    have hpad := lin_pad k [] []
    rw [List.append_nil, List.append_nil] at hpad
    exact hpad
  | cons d ds ih =>
    cases cs with
    | nil => exact absurd h (Nat.succ_ne_zero _).symm
    | cons c cs =>
      rw [List.cons_append, List.cons_append, lin_cons, lin_cons, ih (Nat.succ.inj h),
        List.prod_append, prod_replicate_one, Nat.mul_one]

theorem lin_append {s₁ c₁ : List ℕ} (h : c₁.length = s₁.length) (s₂ c₂ : List ℕ) :
    lin (s₁ ++ s₂) (c₁ ++ c₂) = lin s₁ c₁ * s₂.prod + lin s₂ c₂ := by
  induction s₁ generalizing c₁ with
  | nil =>
    obtain rfl := List.length_eq_zero_iff.mp h
    rw [List.nil_append, List.nil_append, lin_nil, Nat.zero_mul, Nat.zero_add]
  | cons d ds ih =>
    cases c₁ with
    | nil => exact absurd h (Nat.succ_ne_zero _).symm
    | cons c cs =>
      rw [List.cons_append, List.cons_append, lin_cons, lin_cons, ih (Nat.succ.inj h),
        List.prod_append, Nat.add_mul, Nat.mul_assoc, Nat.add_assoc]

theorem lin_cut {cs : List ℕ} (k : ℕ) (h : cs.length = ds.length) :
    lin (ds ++ List.replicate k 1) cs = lin ds cs := by
  have happ := lin_append h (List.replicate k 1) []
  rw [List.append_nil, prod_replicate_one, Nat.mul_one] at happ
  rw [happ]
  cases k <;> rfl

theorem coords_zero (ds : List ℕ) : coords ds 0 = List.replicate ds.length 0 := by
  induction ds with
  | nil => rfl
  | cons d ds ih => rw [coords_cons, Nat.zero_div, Nat.zero_mod, ih, List.length_cons,
      List.replicate_succ]

theorem coords_append_ones (k i : ℕ) (h : ds ≠ []) :
    coords (ds ++ List.replicate k 1) i = coords ds i ++ List.replicate k 0 := by
  induction ds generalizing i with
  | nil => exact absurd rfl h
  | cons d ds ih =>
    rw [List.cons_append, coords_cons, coords_cons, List.prod_append, prod_replicate_one,
      Nat.mul_one, List.cons_append]
    cases ds with
    | nil => rw [List.prod_nil, Nat.mod_one, List.nil_append, coords_zero, coords_nil,
        List.nil_append, List.length_replicate]
    | cons d' ds => rw [ih _ (List.cons_ne_nil d' ds)]

theorem lin_zeros (ds : List ℕ) (k : ℕ) : lin ds (List.replicate k 0) = 0 := by
  induction k generalizing ds with
  | zero => cases ds <;> rfl
  | succ k ih =>
    cases ds with
    | nil => rfl
    | cons d ds => rw [List.replicate_succ, lin_cons, ih, Nat.zero_mul]

theorem coords_over {c c0 : ℕ} (h : Within cs ds) :
    coords (d :: ds) (c * (d :: ds).prod + lin (d :: ds) (c0 :: cs)) = (c * d + c0) :: cs := by
  have hlt : lin ds cs < ds.prod := lin_lt h
  have hpos : 0 < ds.prod := h.prod_pos
  have hsum : c * (d :: ds).prod + lin (d :: ds) (c0 :: cs) =
      ds.prod * (c * d + c0) + lin ds cs := by
    rw [List.prod_cons, lin_cons, Nat.mul_add, Nat.mul_comm c0, ← Nat.mul_assoc,
      Nat.mul_comm ds.prod (c * d), Nat.add_assoc]
  rw [hsum, coords_cons, Nat.mul_add_div hpos, Nat.div_eq_of_lt hlt, Nat.add_zero,
    Nat.mul_add_mod, Nat.mod_eq_of_lt hlt, coords_lin h]

/-! ### Deleting axes of size 1 -/

/-- Keep the coordinates of the axes that are not of size 1. -/
def squeeze : List ℕ → List ℕ → List ℕ
  | d :: ds, c :: cs => if d = 1 then squeeze ds cs else c :: squeeze ds cs
  | _, _ => []

theorem squeeze_one (ds : List ℕ) (c : ℕ) (cs : List ℕ) :
    squeeze (1 :: ds) (c :: cs) = squeeze ds cs := if_pos rfl

theorem squeeze_cons (hd : d ≠ 1) (ds : List ℕ) (c : ℕ) (cs : List ℕ) :
    squeeze (d :: ds) (c :: cs) = c :: squeeze ds cs := if_neg hd

theorem filter_ne_one (ds : List ℕ) : (1 :: ds).filter (· ≠ 1) = ds.filter (· ≠ 1) :=
  List.filter_cons_of_neg (by decide)

theorem filter_ne_cons (hd : d ≠ 1) (ds : List ℕ) :
    (d :: ds).filter (· ≠ 1) = d :: ds.filter (· ≠ 1) :=
  List.filter_cons_of_pos (decide_eq_true hd)

theorem prod_filter_ne_one (shape : List ℕ) : (shape.filter (· ≠ 1)).prod = shape.prod := by
  induction shape with
  | nil => rfl
  | cons d ds ih =>
    by_cases hd : d = 1
    · subst hd
      rw [filter_ne_one, ih, List.prod_cons, Nat.one_mul]
    · rw [filter_ne_cons hd, List.prod_cons, List.prod_cons, ih]

theorem lin_squeeze (h : Within cs shape) :
    lin (shape.filter (· ≠ 1)) (squeeze shape cs) = lin shape cs := by
  induction h with
  | nil => rfl
  | @cons c d cs ds hc _ ih =>
    by_cases hd : d = 1
    · subst hd
      rw [filter_ne_one, squeeze_one, lin_one_cons ds c cs hc, ih]
    · rw [filter_ne_cons hd, squeeze_cons hd, lin_cons, lin_cons, prod_filter_ne_one, ih]

theorem squeeze_within (h : Within cs shape) :
    Within (squeeze shape cs) (shape.filter (· ≠ 1)) := by
  induction h with
  | nil => exact List.Forall₂.nil
  | @cons c d cs ds hc _ ih =>
    by_cases hd : d = 1
    · subst hd
      rw [filter_ne_one, squeeze_one]
      exact ih
    · rw [filter_ne_cons hd, squeeze_cons hd]
      exact List.Forall₂.cons hc ih

/-! ### Exchanging axes -/

/-- The entries that a list of axes names. -/
def pick (p cs : List ℕ) : List ℕ := p.map fun a => cs.getD a 0

variable {p : List ℕ}

@[simp] theorem length_pick (p cs : List ℕ) : (pick p cs).length = p.length := List.length_map _

theorem pick_cons (a : ℕ) (p cs : List ℕ) : pick (a :: p) cs = cs.getD a 0 :: pick p cs := rfl

theorem getElem_pick {k : ℕ} (hk : k < p.length) (hk' : k < (pick p cs).length) :
    (pick p cs)[k] = cs.getD p[k] 0 := List.getElem_map _

theorem getD_pick {k : ℕ} (hk : k < p.length) : (pick p cs).getD k 0 = cs.getD p[k] 0 := by
  rw [List.getD_eq_getElem _ _ (by rw [length_pick]; exact hk), getElem_pick hk]

theorem Within.length_eq (h : Within cs shape) : cs.length = shape.length :=
  List.Forall₂.length_eq h

theorem Within.getD_lt (h : Within cs shape) (ha : a < shape.length) :
    cs.getD a 0 < shape.getD a 0 := by
  induction h generalizing a with
  | nil => exact absurd ha (Nat.not_lt_zero a)
  | cons hc _ ih =>
    cases a with
    | zero => exact hc
    | succ a => exact ih (Nat.lt_of_succ_lt_succ ha)

theorem coords_getD_lt (hpos : 0 < shape.prod) (i : ℕ) (hj : 0 < j) (hj' : j < shape.length) :
    (coords shape i).getD j 0 < shape.getD j 0 := by
  cases shape with
  | nil => exact absurd hj' (Nat.not_lt_zero j)
  | cons d ds =>
    rw [List.prod_cons] at hpos
    have htail : 0 < ds.prod := Nat.pos_of_mul_pos_left hpos
    have hin : Within (coords ds (i % ds.prod)) ds := coords_within (Nat.mod_lt i htail)
    obtain ⟨k, rfl⟩ := Nat.exists_eq_succ_of_ne_zero (Nat.pos_iff_ne_zero.mp hj)
    exact hin.getD_lt (Nat.lt_of_succ_lt_succ hj')

theorem pick_within (h : Within cs shape) (hp : ∀ a ∈ p, a < shape.length) :
    Within (pick p cs) (pick p shape) := by
  induction p with
  | nil => exact List.Forall₂.nil
  | cons a p ih =>
    apply List.Forall₂.cons
    · exact h.getD_lt (hp a List.mem_cons_self)
    · exact ih fun b hb => hp b (List.mem_cons_of_mem a hb)

theorem pick_range (cs : List ℕ) : pick (List.range cs.length) cs = cs := by
  apply List.ext_getElem
  · rw [length_pick, List.length_range]
  · intro i hi hi'
    rw [getElem_pick (by rw [List.length_range]; exact hi'), List.getElem_range,
      List.getD_eq_getElem _ _ hi']

theorem prod_pick (hp : p.Perm (List.range shape.length)) : (pick p shape).prod = shape.prod := by
  have hperm : (pick p shape).Perm (pick (List.range shape.length) shape) :=
    hp.map fun a => shape.getD a 0
  rw [hperm.prod_eq, pick_range]

/-- The cell with these coordinates after the exchange. -/
def unpick (p cs : List ℕ) : List ℕ := (List.range p.length).map fun a => cs.getD (p.idxOf a) 0

theorem getElem_unpick (ha : a < (unpick p cs).length) :
    (unpick p cs)[a] = cs.getD (p.idxOf a) 0 := by
  simp only [unpick, List.getElem_map, List.getElem_range]

@[simp] theorem length_unpick (p cs : List ℕ) : (unpick p cs).length = p.length := by
  rw [unpick, List.length_map, List.length_range]

theorem getD_unpick (ha : a < p.length) : (unpick p cs).getD a 0 = cs.getD (p.idxOf a) 0 := by
  rw [List.getD_eq_getElem _ _ (by rw [length_unpick]; exact ha), getElem_unpick]

section Permutation

variable {n : ℕ}

theorem lt_of_mem_perm (hp : p.Perm (List.range n)) (ha : a ∈ p) : a < n :=
  List.mem_range.mp (hp.mem_iff.mp ha)

theorem length_perm (hp : p.Perm (List.range n)) : p.length = n :=
  hp.length_eq.trans List.length_range

theorem mem_perm (hp : p.Perm (List.range n)) (ha : a < n) : a ∈ p :=
  hp.mem_iff.mpr (List.mem_range.mpr ha)

theorem pick_unpick (hp : p.Perm (List.range n)) (hcs : cs.length = n) :
    pick p (unpick p cs) = cs := by
  have hlen := length_perm hp
  apply List.ext_getElem
  · rw [length_pick, hlen, hcs]
  · intro i hi hi'
    have hi₁ : i < p.length := by rw [hlen, ← hcs]; exact hi'
    have hnd : p.Nodup := hp.nodup_iff.mpr List.nodup_range
    have hlt : p[i] < p.length := by
      rw [hlen]
      exact lt_of_mem_perm hp (List.getElem_mem hi₁)
    rw [getElem_pick hi₁, getD_unpick hlt, hnd.idxOf_getElem, List.getD_eq_getElem _ _ hi']

theorem unpick_pick (hp : p.Perm (List.range n)) (hcs : cs.length = n) :
    unpick p (pick p cs) = cs := by
  have hlen := length_perm hp
  apply List.ext_getElem
  · rw [length_unpick, hlen, hcs]
  · intro a ha ha'
    have hmem : a ∈ p := mem_perm hp (hcs ▸ ha')
    have hidx : p.idxOf a < p.length := List.idxOf_lt_length_of_mem hmem
    rw [getElem_unpick, getD_pick hidx, List.getElem_idxOf hidx,
      List.getD_eq_getElem _ _ ha']

theorem pick_injective {cs' : List ℕ} (hp : p.Perm (List.range n)) (hcs : cs.length = n)
    (hcs' : cs'.length = n) (h : pick p cs = pick p cs') : cs = cs' := by
  rw [← unpick_pick hp hcs, ← unpick_pick hp hcs', h]

theorem unpick_within (hp : p.Perm (List.range shape.length)) (h : Within cs (pick p shape)) :
    Within (unpick p cs) shape := by
  have hlen := length_perm hp
  apply List.forall₂_iff_get.mpr
  constructor
  · rw [length_unpick, hlen]
  · intro a ha ha'
    have hmem : a ∈ p := mem_perm hp ha'
    have hidx : p.idxOf a < p.length := List.idxOf_lt_length_of_mem hmem
    have hlt := h.getD_lt (by rw [length_pick]; exact hidx)
    rw [getD_pick hidx, List.getElem_idxOf hidx, List.getD_eq_getElem _ _ ha'] at hlt
    rw [List.get_eq_getElem, List.get_eq_getElem, getElem_unpick]
    exact hlt

end Permutation

end Gehtp.Lib.RowMajor
