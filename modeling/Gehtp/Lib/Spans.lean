import Mathlib.Data.List.Pairwise
import Mathlib.Data.List.Perm.Basic
import Mathlib.Algebra.Order.Group.Nat

/-!
# Byte spans and first fit

A span is a half-open range of addresses; two spans are apart when one ends where
the other begins or before. `firstFit` takes the front of the first span of a
list that is long enough, and `SpansBelow` is the invariant of an arena: its spans
are pairwise apart and end below a high-water mark. The lemmas say how the
invariant survives the three things an allocator does: reorder the spans, cut one
into two, and add one at the mark.
-/

set_option autoImplicit false

namespace Gehtp.Lib

/-- The addresses from `lo` to `hi`, `hi` excluded. -/
structure Span where
  lo : ℕ
  hi : ℕ
  deriving DecidableEq, Repr

namespace Span

/-- One span ends where the other begins, or before. -/
def Apart (a b : Span) : Prop := a.hi ≤ b.lo ∨ b.hi ≤ a.lo

theorem Apart.symm {a b : Span} (h : Apart a b) : Apart b a := Or.symm h

theorem Apart.mono {a b a' b' : Span} (h : Apart a b) (hal : a.lo ≤ a'.lo) (hah : a'.hi ≤ a.hi)
    (hbl : b.lo ≤ b'.lo) (hbh : b'.hi ≤ b.hi) : Apart a' b' := by
  rcases h with h | h
  · exact .inl (by omega)
  · exact .inr (by omega)

end Span

/-- The spans are well formed, pairwise apart, and end at or below `top`. -/
structure SpansBelow (top : ℕ) (l : List Span) : Prop where
  ordered : ∀ s ∈ l, s.lo ≤ s.hi
  below : ∀ s ∈ l, s.hi ≤ top
  apart : l.Pairwise Span.Apart

namespace SpansBelow

variable {top : ℕ} {l m : List Span}

theorem nil (top : ℕ) : SpansBelow top [] :=
  ⟨by simp, by simp, List.Pairwise.nil⟩

theorem perm (h : SpansBelow top l) (hp : l.Perm m) : SpansBelow top m where
  ordered := fun s hs => h.ordered s (hp.mem_iff.mpr hs)
  below := fun s hs => h.below s (hp.mem_iff.mpr hs)
  apart := (hp.pairwise_iff fun {_ _} h => Span.Apart.symm h).mp h.apart

theorem cons_top (h : SpansBelow top l) (n : ℕ) : SpansBelow (top + n) (⟨top, top + n⟩ :: l) where
  ordered := by
    intro s hs
    rcases List.mem_cons.mp hs with rfl | hs
    · exact Nat.le_add_right _ _
    · exact h.ordered s hs
  below := by
    intro s hs
    rcases List.mem_cons.mp hs with rfl | hs
    · exact le_rfl
    · exact (h.below s hs).trans (Nat.le_add_right _ _)
  apart := List.pairwise_cons.mpr ⟨fun s hs => .inr (h.below s hs), h.apart⟩

theorem tail {s : Span} (h : SpansBelow top (s :: l)) : SpansBelow top l where
  ordered := fun t ht => h.ordered t (List.mem_cons_of_mem _ ht)
  below := fun t ht => h.below t (List.mem_cons_of_mem _ ht)
  apart := h.apart.tail

theorem split {s : Span} (h : SpansBelow top (s :: l)) (n : ℕ) (hn : s.lo + n ≤ s.hi) :
    SpansBelow top (⟨s.lo, s.lo + n⟩ :: ⟨s.lo + n, s.hi⟩ :: l) where
  ordered := by
    intro t ht
    rcases List.mem_cons.mp ht with rfl | ht
    · exact Nat.le_add_right _ _
    rcases List.mem_cons.mp ht with rfl | ht
    · exact hn
    · exact h.tail.ordered t ht
  below := by
    intro t ht
    have hs := h.below s List.mem_cons_self
    rcases List.mem_cons.mp ht with rfl | ht
    · exact hn.trans hs
    rcases List.mem_cons.mp ht with rfl | ht
    · exact hs
    · exact h.tail.below t ht
  apart := by
    have hs := (List.pairwise_cons.mp h.apart).1
    refine List.pairwise_cons.mpr ⟨fun t ht => ?_, List.pairwise_cons.mpr ⟨fun t ht => ?_, ?_⟩⟩
    · rcases List.mem_cons.mp ht with rfl | ht
      · exact .inl le_rfl
      · exact (hs t ht).mono le_rfl hn le_rfl le_rfl
    · exact (hs t ht).mono (Nat.le_add_right _ _) le_rfl le_rfl le_rfl
    · exact (List.pairwise_cons.mp h.apart).2

end SpansBelow

/-- Take `need` bytes from the front of the first span that has them; a span that
is used up leaves the list. -/
def firstFit (need : ℕ) : List Span → Option (ℕ × List Span)
  | [] => none
  | s :: l =>
    if need ≤ s.hi - s.lo then
      some (s.lo, if s.hi ≤ s.lo + need then l else ⟨s.lo + need, s.hi⟩ :: l)
    else (firstFit need l).map fun p => (p.1, s :: p.2)

/-- First fit cuts a block out of the spans of an arena: the block and what is left
of the list are again the spans of an arena, together with any other spans `m` of
it. -/
theorem firstFit_spansBelow {top need off : ℕ} {l l' : List Span} (m : List Span)
    (h : SpansBelow top (l ++ m)) (hfit : firstFit need l = some (off, l')) :
    SpansBelow top (⟨off, off + need⟩ :: (l' ++ m)) := by
  induction l generalizing l' m with
  | nil => simp [firstFit] at hfit
  | cons s l ih =>
    unfold firstFit at hfit
    split at hfit
    · rename_i hneed
      obtain ⟨rfl, rfl⟩ : s.lo = off ∧
          (if s.hi ≤ s.lo + need then l else ⟨s.lo + need, s.hi⟩ :: l) = l' := by
        simpa using hfit
      have hord : s.lo ≤ s.hi := h.ordered s (by simp)
      have hcut := h.split need (by omega)
      split
      · exact hcut.perm (List.Perm.swap _ _ _) |>.tail
      · exact hcut
    · obtain ⟨⟨off', l''⟩, hrest, heq⟩ := Option.map_eq_some_iff.mp hfit
      obtain ⟨rfl, rfl⟩ : off' = off ∧ s :: l'' = l' := by
        simpa using heq
      have hmove : (s :: l ++ m).Perm (l ++ s :: m) := List.perm_middle.symm
      have hres := ih (s :: m) (h.perm hmove) hrest
      exact hres.perm (List.Perm.cons _ List.perm_middle)

end Gehtp.Lib
