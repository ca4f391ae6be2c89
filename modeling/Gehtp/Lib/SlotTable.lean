import Mathlib.Algebra.Order.Ring.Nat
import Mathlib.Data.List.Basic

/-!
# Tables of slots

A table has a fixed number of slots, each of which is live or not. A live slot has a key and a weight.
The table is used up to the sum of the weights, and its keys are those of one live slot each.
-/

set_option autoImplicit false

namespace Gehtp.Lib.SlotTable

variable {α κ : Type} (live : α → Bool) (weight : α → ℕ) (key : α → κ)

/-- What a slot takes. -/
def cost (a : α) : ℕ := if live a = true then weight a else 0

/-- What the live slots take together. -/
def used : List α → ℕ
  | [] => 0
  | a :: l => cost live weight a + used l

/-- No two live slots have the same key. -/
def KeysOnce (l : List α) : Prop :=
  ∀ (i j : ℕ) (a b : α), l[i]? = some a → l[j]? = some b → live a = true → live b = true →
    key a = key b → i = j

variable {live weight key} {l : List α} {i : ℕ} {a b : α}

theorem used_set (h : l[i]? = some a) :
    used live weight (l.set i b) + cost live weight a = used live weight l + cost live weight b := by
  induction l generalizing i with
  | nil => cases h
  | cons c l ih =>
    cases i with
    | zero =>
      cases h
      rw [List.set_cons_zero, used, used]
      omega
    | succ i =>
      have hrest := ih h
      rw [List.set_cons_succ, used, used]
      omega

theorem cost_le_used (h : l[i]? = some a) : cost live weight a ≤ used live weight l := by
  induction l generalizing i with
  | nil => cases h
  | cons c l ih =>
    rw [used]
    cases i with
    | zero =>
      cases h
      exact Nat.le_add_right _ _
    | succ i => exact (ih h).trans (Nat.le_add_left _ _)

theorem used_eq_zero (h : ∀ a ∈ l, live a = false) : used live weight l = 0 := by
  induction l with
  | nil => rfl
  | cons c l ih =>
    rw [List.forall_mem_cons] at h
    rw [used, ih h.2, cost, if_neg (by rw [h.1]; exact Bool.false_ne_true)]

theorem KeysOnce.set (h : KeysOnce live key l) (hi : i < l.length)
    (hnew : live b = true → ∀ (j : ℕ) (c : α), j ≠ i → l[j]? = some c → live c = true →
      key c ≠ key b) :
    KeysOnce live key (l.set i b) := by
  intro j k c d hj hk hc hd hkey
  by_cases hji : j = i
  · by_cases hki : k = i
    · rw [hji, hki]
    · rw [hji, List.getElem?_set_self hi] at hj
      rw [List.getElem?_set_ne (Ne.symm hki)] at hk
      cases hj
      exact absurd hkey.symm (hnew hc k d hki hk hd)
  · rw [List.getElem?_set_ne (Ne.symm hji)] at hj
    by_cases hki : k = i
    · rw [hki, List.getElem?_set_self hi] at hk
      cases hk
      exact absurd hkey (hnew hd j c hji hj hc)
    · rw [List.getElem?_set_ne (Ne.symm hki)] at hk
      exact h j k c d hj hk hc hd hkey

theorem countP_set_lt (h : l[i]? = some a) (ha : live a = true) (hb : live b = false) :
    (l.set i b).countP live < l.countP live := by
  induction l generalizing i with
  | nil => cases h
  | cons c l ih =>
    cases i with
    | zero =>
      cases h
      rw [List.set_cons_zero, List.countP_cons_of_pos ha,
        List.countP_cons_of_neg (by rw [hb]; exact Bool.false_ne_true)]
      exact Nat.lt_succ_self _
    | succ i =>
      have hrest := ih h
      rw [List.set_cons_succ, List.countP_cons, List.countP_cons]
      omega

end Gehtp.Lib.SlotTable
