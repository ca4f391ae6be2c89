import Mathlib.Data.List.Chain

/-!
# Blocks that tile a pool

A pool is cut into blocks that follow each other without a gap; a block is free or holds some
data. A coalescing allocator never leaves two free blocks side by side: it cuts a block from
the front of a free one, and a block that is given back is joined with the free blocks on both
of its sides. When no block holds data, one free block is left.
-/

set_option autoImplicit false

namespace Gehtp.Lib

/-- A part of a pool. It is free if it has no data. -/
structure Block (α : Type) where
  size : ℕ
  data : Option α

namespace Block

variable {α β : Type}

/-- The size of consecutive blocks. -/
def total : List (Block α) → ℕ
  | [] => 0
  | b :: l => b.size + total l

@[simp] theorem total_nil : total ([] : List (Block α)) = 0 := rfl

@[simp] theorem total_cons (b : Block α) (l : List (Block α)) :
    total (b :: l) = b.size + total l := rfl

@[simp] theorem total_append (l₁ l₂ : List (Block α)) :
    total (l₁ ++ l₂) = total l₁ + total l₂ := by
  induction l₁ with
  | nil => simp
  | cons b l ih =>
    simp only [List.cons_append, total_cons, ih]
    omega

@[simp] theorem total_reverse (l : List (Block α)) : total l.reverse = total l := by
  induction l with
  | nil => rfl
  | cons b l ih =>
    simp only [List.reverse_cons, total_append, total_cons, total_nil, ih]
    omega

/-- What the data of the blocks weighs. -/
def weight (f : α → ℕ) : List (Block α) → ℕ
  | [] => 0
  | b :: l => (b.data.map f).getD 0 + weight f l

@[simp] theorem weight_nil (f : α → ℕ) : weight f ([] : List (Block α)) = 0 := rfl

@[simp] theorem weight_cons (f : α → ℕ) (b : Block α) (l : List (Block α)) :
    weight f (b :: l) = (b.data.map f).getD 0 + weight f l := rfl

@[simp] theorem weight_append (f : α → ℕ) (l₁ l₂ : List (Block α)) :
    weight f (l₁ ++ l₂) = weight f l₁ + weight f l₂ := by
  induction l₁ with
  | nil => simp
  | cons b l ih =>
    simp only [List.cons_append, weight_cons, ih]
    omega

@[simp] theorem weight_reverse (f : α → ℕ) (l : List (Block α)) :
    weight f l.reverse = weight f l := by
  induction l with
  | nil => rfl
  | cons b l ih =>
    simp only [List.reverse_cons, weight_append, weight_cons, weight_nil, ih]
    omega

/-- What the blocks hold, each with the address of its block. -/
def held : ℕ → List (Block α) → List (ℕ × α)
  | _, [] => []
  | a, b :: l => (b.data.map fun d => (a, d)).toList ++ held (a + b.size) l

@[simp] theorem held_nil (a : ℕ) : held a ([] : List (Block α)) = [] := rfl

@[simp] theorem held_cons_none (a n : ℕ) (l : List (Block α)) :
    held a (⟨n, none⟩ :: l) = held (a + n) l := rfl

@[simp] theorem held_cons_some (a n : ℕ) (d : α) (l : List (Block α)) :
    held a (⟨n, some d⟩ :: l) = (a, d) :: held (a + n) l := rfl

theorem held_append (a : ℕ) (l₁ l₂ : List (Block α)) :
    held a (l₁ ++ l₂) = held a l₁ ++ held (a + total l₁) l₂ := by
  induction l₁ generalizing a with
  | nil => simp
  | cons b l ih =>
    simp only [List.cons_append, held, ih, total_cons, List.append_assoc, Nat.add_assoc]

theorem free_of_held_nil {a : ℕ} {l : List (Block α)} (h : held a l = []) :
    ∀ b ∈ l, b.data = none := by
  induction l generalizing a with
  | nil => simp
  | cons b l ih =>
    rcases b with ⟨n, _ | d⟩
    · intro c hc
      rcases List.mem_cons.mp hc with rfl | hc
      · rfl
      · exact ih h c hc
    · cases h

/-- Of two neighbours at least one holds data. -/
def Coalesced (l : List (Block α)) : Prop := l.IsChain fun a b => a.data.isSome ∨ b.data.isSome

theorem coalesced_singleton (b : Block α) : Coalesced [b] := List.isChain_singleton b

theorem coalesced_reverse {l : List (Block α)} : Coalesced l.reverse ↔ Coalesced l := by
  unfold Coalesced
  rw [List.isChain_reverse]
  simp only [or_comm]

theorem coalesced_around {l₁ l₂ : List (Block α)} {b : Block α} (hb : b.data.isSome) :
    Coalesced (l₁ ++ b :: l₂) ↔ Coalesced l₁ ∧ Coalesced l₂ := by
  unfold Coalesced
  rw [List.isChain_append, List.isChain_cons]
  simp [hb]

theorem coalesced_free {l₁ l₂ : List (Block α)} {n : ℕ} :
    Coalesced (l₁ ++ ⟨n, none⟩ :: l₂) ↔ Coalesced l₁ ∧ Coalesced l₂ ∧
      (∀ b ∈ l₁.getLast?, b.data.isSome) ∧ ∀ b ∈ l₂.head?, b.data.isSome := by
  unfold Coalesced
  rw [List.isChain_append, List.isChain_cons]
  simp
  tauto

theorem Coalesced.carve {l₁ l₂ rest : List (Block α)} {n : ℕ} {b : Block α}
    (h : Coalesced (l₁ ++ ⟨n, none⟩ :: l₂)) (hb : b.data.isSome)
    (hrest : rest = [] ∨ ∃ k, rest = [⟨k, none⟩]) :
    Coalesced (l₁ ++ b :: (rest ++ l₂)) := by
  obtain ⟨h₁, h₂, -, hhead⟩ := coalesced_free.mp h
  rw [coalesced_around hb]
  refine ⟨h₁, ?_⟩
  rcases hrest with rfl | ⟨k, rfl⟩
  · exact h₂
  · exact (@coalesced_free α [] l₂ k).mpr ⟨List.isChain_nil, h₂, by simp, hhead⟩

/-- The size of a free block at the front, and the blocks behind it. -/
def absorb : List (Block α) → ℕ × List (Block α)
  | ⟨n, none⟩ :: l => (n, l)
  | l => (0, l)

@[simp] theorem absorb_nil : absorb ([] : List (Block α)) = (0, []) := rfl

@[simp] theorem absorb_free (n : ℕ) (l : List (Block α)) : absorb (⟨n, none⟩ :: l) = (n, l) := rfl

@[simp] theorem absorb_some (n : ℕ) (d : α) (l : List (Block α)) :
    absorb (⟨n, some d⟩ :: l) = (0, ⟨n, some d⟩ :: l) := rfl

theorem exists_front (l : List (Block α)) :
    ∃ front, l = front ++ (absorb l).2 ∧ total front = (absorb l).1 := by
  rcases l with _ | ⟨⟨n, _ | d⟩, l⟩
  · exact ⟨[], rfl, rfl⟩
  · exact ⟨[⟨n, none⟩], rfl, rfl⟩
  · exact ⟨[], rfl, rfl⟩

theorem total_absorb (l : List (Block α)) : (absorb l).1 + total (absorb l).2 = total l := by
  rcases l with _ | ⟨⟨n, _ | d⟩, l⟩ <;> simp

theorem weight_absorb (f : α → ℕ) (l : List (Block α)) :
    weight f (absorb l).2 = weight f l := by
  rcases l with _ | ⟨⟨n, _ | d⟩, l⟩ <;> simp

theorem held_absorb (a : ℕ) (l : List (Block α)) :
    held (a + (absorb l).1) (absorb l).2 = held a l := by
  rcases l with _ | ⟨⟨n, _ | d⟩, l⟩ <;> simp

theorem Coalesced.absorb {l : List (Block α)} (h : Coalesced l) :
    Coalesced (absorb l).2 ∧ ∀ b ∈ (absorb l).2.head?, b.data.isSome := by
  rcases l with _ | ⟨⟨n, _ | d⟩, l⟩
  · exact ⟨h, by simp⟩
  · obtain ⟨-, h₂, -, hhead⟩ := (@coalesced_free α [] l n).mp h
    exact ⟨h₂, hhead⟩
  · exact ⟨h, by simp⟩

/-- A block of size `n` is given back between the blocks `ls`, nearest first, and `rs`. -/
def release (ls : List (Block α)) (n : ℕ) (rs : List (Block α)) : List (Block α) :=
  (absorb ls).2.reverse ++ ⟨(absorb ls).1 + n + (absorb rs).1, none⟩ :: (absorb rs).2

theorem total_release (ls : List (Block α)) (n : ℕ) (rs : List (Block α)) :
    total (release ls n rs) = total ls + n + total rs := by
  have hls := total_absorb ls
  have hrs := total_absorb rs
  simp only [release, total_append, total_reverse, total_cons]
  omega

theorem weight_release (f : α → ℕ) (ls : List (Block α)) (n : ℕ) (rs : List (Block α)) :
    weight f (release ls n rs) = weight f ls + weight f rs := by
  simp [release, weight_absorb]

theorem Coalesced.release {ls rs : List (Block α)} {n : ℕ} {d : α}
    (h : Coalesced (ls.reverse ++ ⟨n, some d⟩ :: rs)) : Coalesced (release ls n rs) := by
  obtain ⟨hls, hrs⟩ := (coalesced_around rfl).mp h
  obtain ⟨hl, hlhead⟩ := (coalesced_reverse.mp hls).absorb
  obtain ⟨hr, hrhead⟩ := hrs.absorb
  unfold Block.release
  rw [coalesced_free]
  refine ⟨coalesced_reverse.mpr hl, hr, ?_, hrhead⟩
  rw [List.getLast?_reverse]
  exact hlhead

theorem Coalesced.eq_singleton {l : List (Block α)} (h : Coalesced l) (hne : l ≠ [])
    (hfree : ∀ b ∈ l, b.data = none) : l = [⟨total l, none⟩] := by
  rcases l with _ | ⟨b, _ | ⟨c, l⟩⟩
  · exact absurd rfl hne
  · have hb : b.data = none := hfree b (by simp)
    rcases b with ⟨n, d⟩
    simp_all
  · have hb := hfree b (by simp)
    have hc := hfree c (by simp)
    have := (List.isChain_cons_cons.mp h).1
    simp [hb, hc] at this

end Block

end Gehtp.Lib
