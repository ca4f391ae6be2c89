import Mathlib.Data.List.Perm.Subperm
import Mathlib.Data.List.Range
import Mathlib.Order.Bounds.Basic
import Mathlib.Order.Nat

/-!
# Levels of the nodes behind a seed

A wave from a seed settles a node one round after the last of its predecessors, and the seed in the
first round if it has no predecessor. In a relation without cycles it settles the nodes behind which
nothing but the seed begins, each one round later than the length of the longest walk from the seed.
-/

set_option autoImplicit false

namespace Gehtp.Lib.Levels

variable {α : Type} (R : α → α → Prop)

/-- A walk of `n` edges. -/
def Walk : ℕ → α → α → Prop
  | 0, u, v => u = v
  | n + 1, u, v => ∃ w, Walk n u w ∧ R w v

/-- A node without predecessors. -/
def IsSource (u : α) : Prop := ∀ w, ¬R w u

/-- Every backward walk from `v` that cannot be continued ends at the seed. -/
def RootedAt (seed v : α) : Prop :=
  ∀ u, Relation.ReflTransGen R u v → IsSource R u → u = seed

/-- No walk leads back to its start. -/
def Acyclic : Prop := ∀ v, ¬Relation.TransGen R v v

/-- The nodes that are settled after some rounds. -/
def Settled (seed : α) : ℕ → α → Prop
  | 0, _ => False
  | k + 1, v =>
    Settled seed k v ∨ (∀ u, R u v → Settled seed k u) ∧ (v = seed ∨ ∃ u, R u v)

variable {R}

variable {n bound k : ℕ}

theorem Walk.reflTransGen {u v : α} (h : Walk R n u v) : Relation.ReflTransGen R u v := by
  induction n generalizing v with
  | zero => exact h ▸ .refl
  | succ n ih =>
    obtain ⟨w, hwalk, hedge⟩ := h
    exact (ih hwalk).tail hedge

theorem exists_walk {u v : α} (h : Relation.ReflTransGen R u v) : ∃ n, Walk R n u v := by
  induction h with
  | refl => exact ⟨0, rfl⟩
  | tail _ hedge ih =>
    obtain ⟨n, hwalk⟩ := ih
    exact ⟨n + 1, _, hwalk, hedge⟩

theorem Walk.cons {u v w : α} (hedge : R u v) (h : Walk R n v w) : Walk R (n + 1) u w := by
  induction n generalizing w with
  | zero => exact ⟨u, rfl, h ▸ hedge⟩
  | succ n ih =>
    obtain ⟨x, hwalk, hlast⟩ := h
    exact ⟨x, ih hwalk, hlast⟩

theorem walk_swap {u v : α} : Walk (fun x y => R y x) n u v ↔ Walk R n v u := by
  have hone : ∀ {S : α → α → Prop} {n : ℕ} {u v : α}, Walk (fun x y => S y x) n u v →
      Walk S n v u := by
    intro S n u v h
    induction n generalizing v with
    | zero => exact h.symm
    | succ n ih =>
      obtain ⟨w, hwalk, hedge⟩ := h
      exact (ih hwalk).cons hedge
  exact ⟨hone, fun h => hone (S := fun x y => R y x) h⟩

theorem Acyclic.swap (h : Acyclic R) : Acyclic fun x y => R y x := fun v hpath =>
  h v (Relation.transGen_swap.mp hpath)

/-! ### Walks among finitely many nodes -/

theorem Walk.exists_chain {u v : α} (h : Walk R n u v) :
    ∃ l : List α, (v :: l).length = n + 1 ∧ (v :: l).IsChain fun y x => R x y := by
  induction n generalizing v with
  | zero => exact ⟨[], rfl, List.isChain_singleton v⟩
  | succ n ih =>
    obtain ⟨w, hwalk, hedge⟩ := h
    obtain ⟨l, hlen, hchain⟩ := ih hwalk
    exact ⟨w :: l, by rw [List.length_cons, hlen], hchain.cons_cons hedge⟩

theorem Walk.lt_of_acyclic {R : ℕ → ℕ → Prop} (hacyclic : Acyclic R)
    (hnodes : ∀ u v, R u v → u < bound ∧ v < bound) {u v : ℕ} (hv : v < bound) (h : Walk R n u v) :
    n < bound := by
  obtain ⟨l, hlen, hchain⟩ := h.exists_chain
  have htrans : IsTrans ℕ fun y x => Relation.TransGen R x y :=
    ⟨fun _ _ _ hba hcb => hcb.trans hba⟩
  have hpairs : (v :: l).Pairwise fun y x => Relation.TransGen R x y :=
    (hchain.imp fun _ _ hedge => .single hedge).pairwise
  have hnodup : (v :: l).Nodup := by
    apply hpairs.imp
    rintro y x hpath rfl
    exact hacyclic y hpath
  have hsub : v :: l ⊆ List.range bound := by
    intro x hx
    rw [List.mem_range]
    rcases List.mem_cons.mp hx with rfl | hx
    · exact hv
    · obtain ⟨y, hedge, -⟩ := Relation.TransGen.head'_iff.mp
        ((List.pairwise_cons.mp hpairs).1 x hx)
      exact (hnodes x y hedge).1
  have hle := (List.subperm_of_subset hnodup hsub).length_le
  rw [hlen, List.length_range] at hle
  omega

theorem exists_source (hbound : ∀ n u v, Walk R n u v → n < bound) (v : α) :
    ∃ u, Relation.ReflTransGen R u v ∧ IsSource R u := by
  by_contra hnone
  have hlong : ∀ n, ∃ u, Walk R n u v := by
    intro n
    induction n with
    | zero => exact ⟨v, rfl⟩
    | succ n ih =>
      obtain ⟨u, hwalk⟩ := ih
      by_contra hstop
      refine hnone ⟨u, hwalk.reflTransGen, ?_⟩
      intro w hedge
      exact hstop ⟨w, hwalk.cons hedge⟩
  obtain ⟨u, hwalk⟩ := hlong bound
  exact absurd (hbound bound u v hwalk) (Nat.lt_irrefl bound)

/-! ### Settled nodes -/

section Settled

variable {seed : α}

theorem Settled.mono {m : ℕ} {v : α} (hkm : k ≤ m) (h : Settled R seed k v) :
    Settled R seed m v := by
  induction m, hkm using Nat.le_induction with
  | base => exact h
  | succ m _ ih => exact Or.inl ih

theorem Settled.isSource {v : α} (h : Settled R seed k v) : IsSource R seed := by
  induction k generalizing v with
  | zero => exact h.elim
  | succ k ih =>
    rcases h with h | ⟨hpred, hwhy⟩
    · exact ih h
    · intro w hedge
      rcases hwhy with rfl | ⟨u, hu⟩
      · exact ih (hpred w hedge) w hedge
      · exact ih (hpred u hu) w hedge

theorem Settled.rootedAt {v : α} (h : Settled R seed k v) : RootedAt R seed v := by
  induction k generalizing v with
  | zero => exact h.elim
  | succ k ih =>
    rcases h with h | ⟨hpred, hwhy⟩
    · exact ih h
    · intro u hpath hsource
      rcases Relation.ReflTransGen.cases_tail hpath with heq | ⟨w, hbefore, hedge⟩
      · subst heq
        rcases hwhy with rfl | ⟨w, hedge⟩
        · rfl
        · exact absurd hedge (hsource w)
      · exact ih (hpred w hedge) u hbefore hsource

theorem Settled.walk_lt {v : α} (h : Settled R seed k v) (hwalk : Walk R n seed v) : n < k := by
  induction k generalizing n v with
  | zero => exact h.elim
  | succ k ih =>
    rcases h with h | ⟨hpred, -⟩
    · exact Nat.lt_succ_of_lt (ih h hwalk)
    · cases n with
      | zero => exact Nat.succ_pos k
      | succ n =>
        obtain ⟨w, hbefore, hedge⟩ := hwalk
        exact Nat.succ_lt_succ (ih (hpred w hedge) hbefore)

theorem settled_iff (hbound : ∀ n u v, Walk R n u v → n < bound) (k : ℕ) (v : α) :
    Settled R seed k v ↔
      IsSource R seed ∧ RootedAt R seed v ∧ ∀ n, Walk R n seed v → n < k := by
  constructor
  · intro h
    exact ⟨h.isSource, h.rootedAt, fun n hwalk => h.walk_lt hwalk⟩
  · rintro ⟨hseed, hroot, hwalks⟩
    induction k generalizing v with
    | zero =>
      obtain ⟨u, hpath, hsource⟩ := exists_source hbound v
      obtain ⟨n, hwalk⟩ := exists_walk (hroot u hpath hsource ▸ hpath)
      exact absurd (hwalks n hwalk) (Nat.not_lt_zero n)
    | succ k ih =>
      right
      constructor
      · intro u hedge
        apply ih u
        · intro w hpath hsource
          exact hroot w (hpath.tail hedge) hsource
        · intro n hwalk
          exact Nat.lt_of_succ_lt_succ (hwalks (n + 1) ⟨u, hwalk, hedge⟩)
      · by_cases hpred : ∃ u, R u v
        · exact Or.inr hpred
        · left
          apply hroot v .refl
          intro w hedge
          exact hpred ⟨w, hedge⟩

theorem isGreatest_of_settled (hbound : ∀ n u v, Walk R n u v → n < bound) {v : α}
    (hsettled : Settled R seed (k + 1) v) (hnew : ¬Settled R seed k v) :
    IsGreatest {n | Walk R n seed v} k := by
  have hall := (settled_iff hbound (k + 1) v).mp hsettled
  constructor
  · by_contra hnot
    refine hnew ((settled_iff hbound k v).mpr ⟨hall.1, hall.2.1, ?_⟩)
    intro n hwalk
    have hle := Nat.le_of_lt_succ (hall.2.2 n hwalk)
    exact Nat.lt_of_le_of_ne hle fun heq => hnot (heq ▸ hwalk)
  · intro n hwalk
    exact Nat.le_of_lt_succ (hall.2.2 n hwalk)

theorem exists_round {m : ℕ} {v : α} (h : Settled R seed m v) :
    ∃ k < m, Settled R seed (k + 1) v ∧ ¬Settled R seed k v := by
  induction m with
  | zero => exact h.elim
  | succ m ih =>
    by_cases hm : Settled R seed m v
    · obtain ⟨k, hk, hround⟩ := ih hm
      exact ⟨k, Nat.lt_succ_of_lt hk, hround⟩
    · exact ⟨m, Nat.lt_succ_self m, h, hm⟩

end Settled

end Gehtp.Lib.Levels
