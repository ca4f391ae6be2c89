import Mathlib.Data.List.Nodup
import Mathlib.Data.List.Perm.Basic

/-!
# Lists

What several parts of the development need of lists: sorted and merged sequences, lists with
distinct keys, removal by the last element, and counts.
-/

set_option autoImplicit false

/-!
## Sorted and merged sequences

A sort in place promises a permutation in which no element comes before a smaller one; elements that
compare equal may end up in any order. What is put into a sequence is found again by kind: if the
elements of a sequence are of known kinds one after the other, it falls into parts of one kind each.
Parts put one after the other are known again by what they make, if none of them is shorter.
-/

namespace Gehtp.Lib.Sequences

variable {α β : Type}

/-- What a sort in place promises. -/
structure StdSort (less : α → α → Bool) where
  sort : List α → List α
  perm : ∀ l, (sort l).Perm l
  sorted : ∀ l, (sort l).Pairwise fun a b => less b a = false

theorem filter_append_filter_not {p : α → Bool} {l : List α}
    (h : l.Pairwise fun a b => p b = true → p a = true) :
    l.filter p ++ l.filter (fun a => !p a) = l := by
  induction l with
  | nil => rfl
  | cons a l ih =>
    obtain ⟨ha, hl⟩ := List.pairwise_cons.mp h
    cases hp : p a with
    | true =>
      rw [List.filter_cons_of_pos hp, List.filter_cons_of_neg (by simp [hp]), List.cons_append, ih hl]
    | false =>
      have hnone : l.filter p = [] := by
        apply List.filter_eq_nil_iff.mpr
        intro b hb hpb
        rw [ha b hb hpb] at hp
        cases hp
      rw [List.filter_cons_of_neg (by simp [hp]), List.filter_cons_of_pos (by simp [hp]), hnone]
      rw [hnone] at ih
      exact congrArg (List.cons a) (ih hl)

theorem exists_perm_of_perm_map {f : α → β} {l : List β} {m : List α} (h : l.Perm (m.map f)) :
    ∃ m' : List α, m'.Perm m ∧ l = m'.map f := by
  generalize hk : m.map f = k at h
  induction h generalizing m with
  | nil =>
    rw [List.map_eq_nil_iff.mp hk]
    exact ⟨[], List.Perm.nil, rfl⟩
  | cons b h ih =>
    obtain ⟨a, m₁, rfl, rfl, hm₁⟩ := List.map_eq_cons_iff.mp hk
    obtain ⟨m', hm', rfl⟩ := ih hm₁
    exact ⟨a :: m', hm'.cons a, rfl⟩
  | swap b b' k =>
    obtain ⟨a, m₁, rfl, rfl, hm₁⟩ := List.map_eq_cons_iff.mp hk
    obtain ⟨a', m₂, rfl, rfl, rfl⟩ := List.map_eq_cons_iff.mp hm₁
    exact ⟨a' :: a :: m₂, List.Perm.swap a a' m₂, rfl⟩
  | trans _ _ ih₁ ih₂ =>
    obtain ⟨m₁, hm₁, rfl⟩ := ih₂ hk
    obtain ⟨m₂, hm₂, rfl⟩ := ih₁ rfl
    exact ⟨m₂, hm₂.trans hm₁, rfl⟩

theorem forall₂_comp {γ : Type} {R T : γ → α → Prop} {S : α → α → Prop}
    (hT : ∀ c a b, R c a → S a b → T c b) {k : List γ} {l l' : List α} (h : List.Forall₂ R k l)
    (h' : List.Forall₂ S l l') : List.Forall₂ T k l' := by
  induction h generalizing l' with
  | nil =>
    rw [List.forall₂_nil_left_iff.mp h']
    exact List.Forall₂.nil
  | cons hca _ ih =>
    cases h' with
    | cons hab h' => exact List.Forall₂.cons (hT _ _ _ hca hab) (ih h')

theorem exists_mem_of_forall₂ {R : α → β → Prop} {k : List α} {l : List β} (h : List.Forall₂ R k l)
    {a : α} (ha : a ∈ k) : ∃ b ∈ l, R a b := by
  induction h with
  | nil => cases ha
  | @cons a' b _ _ hab _ ih =>
    rcases List.mem_cons.mp ha with rfl | ha
    · exact ⟨b, List.mem_cons_self, hab⟩
    · obtain ⟨b', hb', hab'⟩ := ih ha
      exact ⟨b', List.mem_cons_of_mem b hb', hab'⟩

theorem exists_append_of_forall₂ {R : α → β → Prop} {l : List α} {l₁ l₂ : List β}
    (h : List.Forall₂ R l (l₁ ++ l₂)) :
    ∃ k₁ k₂, l = k₁ ++ k₂ ∧ List.Forall₂ R k₁ l₁ ∧ List.Forall₂ R k₂ l₂ :=
  ⟨l.take l₁.length, l.drop l₁.length, (List.take_append_drop _ _).symm,
    List.forall₂_take_append _ _ _ h, List.forall₂_drop_append _ _ _ h⟩

theorem length_flatMap_le {f g : α → List β} {l : List α}
    (h : ∀ a ∈ l, (f a).length ≤ (g a).length) : (l.flatMap f).length ≤ (l.flatMap g).length := by
  induction l with
  | nil => exact Nat.le_refl _
  | cons a l ih =>
    rw [List.flatMap_cons, List.flatMap_cons, List.length_append, List.length_append]
    exact Nat.add_le_add (h a List.mem_cons_self) (ih fun b hb => h b (List.mem_cons_of_mem a hb))

theorem eq_of_flatMap_eq {f g : α → List β} {l : List α}
    (h : ∀ a ∈ l, (f a).length ≤ (g a).length) (heq : l.flatMap f = l.flatMap g) :
    ∀ a ∈ l, f a = g a := by
  induction l with
  | nil => exact fun a ha => absurd ha List.not_mem_nil
  | cons a l ih =>
    have hrest : ∀ b ∈ l, (f b).length ≤ (g b).length := fun b hb => h b (List.mem_cons_of_mem a hb)
    have hle := length_flatMap_le hrest
    have hsame := congrArg List.length heq
    rw [List.flatMap_cons, List.flatMap_cons, List.length_append, List.length_append] at hsame
    have hhead : (f a).length = (g a).length := by
      have ha := h a List.mem_cons_self
      omega
    rw [List.flatMap_cons, List.flatMap_cons] at heq
    obtain ⟨hfirst, hothers⟩ := List.append_inj heq hhead
    exact List.forall_mem_cons.mpr ⟨hfirst, ih hrest hothers⟩

/-- `a` comes before `b`. -/
def Before (a b : α) (l : List α) : Prop := [a, b].Sublist l

theorem Before.append {a b : α} {l l' : List α} (ha : a ∈ l) (hb : b ∈ l') :
    Before a b (l ++ l') := by
  have h := (List.singleton_sublist.mpr ha).append (List.singleton_sublist.mpr hb)
  exact h

theorem Before.append_right {a b : α} {l' : List α} (h : Before a b l') (l : List α) :
    Before a b (l ++ l') :=
  List.Sublist.trans h (List.sublist_append_right l l')

theorem Before.mem_left {a b : α} {l l' : List α} (h : Before a b (l ++ l')) (hb : b ∉ l') :
    a ∈ l := by
  obtain ⟨k, k', hk, hkl, hkl'⟩ := List.sublist_append_iff.mp h
  cases k with
  | nil =>
    rw [List.nil_append] at hk
    subst hk
    exact absurd (hkl'.subset (List.mem_cons_of_mem a (List.mem_singleton_self b))) hb
  | cons c k =>
    obtain ⟨rfl, -⟩ := List.cons_eq_cons.mp hk
    exact hkl.subset List.mem_cons_self

end Gehtp.Lib.Sequences

/-!
## Lists with distinct keys

In a list whose elements have distinct keys a search for a key finds the one element that has it,
and what is left without that element is what has another key.
-/

namespace Gehtp.Lib.Keyed

section Keyed

variable {α κ : Type} [DecidableEq κ] (key : α → κ)

theorem find?_key {xs : List α} (hxs : (xs.map key).Nodup) {x : α} (hx : x ∈ xs) :
    xs.find? (fun y => key y == key x) = some x := by
  cases hfind : xs.find? (fun y => key y == key x) with
  | none => exact absurd (List.find?_eq_none.mp hfind x hx) (by simp)
  | some y =>
    have hkey : key y = key x := by simpa using List.find?_some hfind
    rw [List.inj_on_of_nodup_map hxs (List.mem_of_find?_eq_some hfind) hx hkey]

theorem filterMap_find?_key {xs ys : List α} (hxs : (xs.map key).Nodup) (hys : ys ⊆ xs) :
    (ys.map key).filterMap (fun k => xs.find? fun y => key y == k) = ys := by
  induction ys with
  | nil => rfl
  | cons y ys ih =>
    have hfind := find?_key key hxs (hys List.mem_cons_self)
    simp only [List.map_cons, List.filterMap_cons, hfind]
    rw [ih fun _ hz => hys (List.mem_cons_of_mem y hz)]

theorem eraseP_key (k : κ) {xs : List α} (hxs : (xs.map key).Nodup) :
    xs.eraseP (fun y => key y == k) = xs.filter fun y => !(key y == k) := by
  induction xs with
  | nil => rfl
  | cons x xs ih =>
    rw [List.map_cons, List.nodup_cons] at hxs
    by_cases hx : key x = k
    · have hrest : ∀ y ∈ xs, (!(key y == k)) = true := by
        intro y hy
        have hne : key y ≠ k := fun hyk => hxs.1 (hx.trans hyk.symm ▸ List.mem_map_of_mem hy)
        simpa using hne
      rw [List.eraseP_cons_of_pos (by simpa using hx), List.filter_cons_of_neg (by simpa using hx),
        List.filter_eq_self.mpr hrest]
    · rw [List.eraseP_cons_of_neg (by simpa using hx), List.filter_cons_of_pos (by simpa using hx),
        ih hxs.2]

theorem find?_filter_key (keep : κ → Bool) {k : κ} (hk : keep k = true) (xs : List α) :
    (xs.filter fun y => keep (key y)).find? (fun y => key y == k) =
      xs.find? fun y => key y == k := by
  rw [List.find?_filter]
  congr 1
  funext y
  by_cases hy : key y = k
  · simp [hy, hk]
  · simp [hy]

end Keyed

end Gehtp.Lib.Keyed

/-!
## Removing by the last element

An element of a vector is removed by giving its place to the last element. What is left is what the
vector had besides that element, in another order.
-/

namespace Gehtp.Lib.SwapRemove

variable {α : Type}

/-- The last element takes place `j` (`d` stands for the last element of an empty vector). -/
def swapRemove (d : α) (v : List α) (j : ℕ) : List α := (v.set j (v.getLastD d)).dropLast

theorem swapRemove_perm (d : α) {v : List α} {j : ℕ} (hj : j < v.length) :
    (swapRemove d v j).Perm (v.eraseIdx j) := by
  have hne : v ≠ [] := List.ne_nil_of_length_pos (Nat.zero_lt_of_lt hj)
  obtain ⟨front, last, rfl⟩ : ∃ front last, v = front ++ [last] :=
    ⟨v.dropLast, v.getLast hne, (List.dropLast_append_getLast hne).symm⟩
  unfold swapRemove
  rw [List.getLastD_concat]
  rw [List.length_append, List.length_singleton] at hj
  by_cases hlast : j < front.length
  · rw [List.set_append_left _ _ hlast, List.dropLast_concat,
      List.eraseIdx_append_of_lt_length hlast]
    exact (List.set_perm_cons_eraseIdx hlast last).trans (List.perm_append_singleton _ _).symm
  · have hj' : j = front.length := by omega
    subst hj'
    rw [List.set_append_right _ _ (Nat.le_refl _), List.eraseIdx_append_of_length_le (Nat.le_refl _)]
    simp

theorem length_swapRemove (d : α) (v : List α) (j : ℕ) :
    (swapRemove d v j).length = v.length - 1 := by
  unfold swapRemove
  rw [List.length_dropLast, List.length_set]

theorem getD_swapRemove (d : α) {v : List α} {i j : ℕ} (hij : i < j) (hj : j < v.length) :
    (swapRemove d v j).getD i d = v.getD i d := by
  unfold swapRemove
  rw [List.getD_eq_getElem?_getD, List.getD_eq_getElem?_getD, List.getElem?_dropLast,
    List.length_set, if_pos (by omega), List.getElem?_set_ne (by omega)]

theorem swapRemove_idxOf_perm [BEq α] [LawfulBEq α] (d : α) {v : List α} {x : α} (hx : x ∈ v) :
    (swapRemove d v (v.idxOf x)).Perm (v.erase x) := by
  rw [List.erase_eq_eraseIdx_of_idxOf rfl]
  exact swapRemove_perm d (List.idxOf_lt_length_of_mem hx)

end Gehtp.Lib.SwapRemove

/-!
## Counting the entries of a table

A table maps keys to entries, and a list names the keys in use. `tally` is the number of keys in
use whose entry has a property; it changes by at most one when one entry changes.
-/

namespace Gehtp.Lib

variable {κ ε : Type} [DecidableEq κ] {p : ε → Bool} {f : κ → ε} {l : List κ} {a : κ} {b : ε}

/-- The number of listed keys whose entries have the property. -/
def tally (p : ε → Bool) (f : κ → ε) (l : List κ) : ℕ := l.countP fun x => p (f x)

theorem tally_update_of_notMem (h : a ∉ l) : tally p (Function.update f a b) l = tally p f l := by
  apply List.countP_congr
  intro x hx
  have hxa : x ≠ a := by
    rintro rfl
    exact h hx
  rw [Function.update_of_ne hxa]

theorem tally_update (hl : l.Nodup) (h : a ∈ l) :
    tally p (Function.update f a b) l + (p (f a)).toNat = tally p f l + (p b).toNat := by
  induction l with
  | nil => cases h
  | cons x l ih =>
    obtain ⟨hx, hl⟩ := List.nodup_cons.mp hl
    simp only [tally, List.countP_cons] at ih ⊢
    by_cases hxa : x = a
    · subst hxa
      have hrest := tally_update_of_notMem (p := p) (f := f) (b := b) hx
      simp only [tally] at hrest
      rw [hrest, Function.update_self]
      cases p b <;> cases p (f x) <;> simp
    · have hal : a ∈ l := (List.mem_cons.mp h).resolve_left fun hax => hxa hax.symm
      rw [Function.update_of_ne hxa]
      have := ih hl hal
      omega

omit [DecidableEq κ] in
theorem tally_append_singleton : tally p f (l ++ [a]) = tally p f l + (p (f a)).toNat := by
  simp only [tally, List.countP_append, List.countP_cons, List.countP_nil, Nat.zero_add]
  cases p (f a) <;> rfl

end Gehtp.Lib
