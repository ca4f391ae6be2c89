import Mathlib.Logic.Function.Basic

/-!
# Things in the hands of owners

Owners hold at most one thing each. `Custody held live` says that the things that are live are
exactly those that are held, and that no two owners hold the same. It is kept when a new thing is
handed to an owner with empty hands, when a thing is handed on to one, and when a held thing ceases
to exist.
-/

set_option autoImplicit false

namespace Gehtp.Lib

variable {ω η : Type} [DecidableEq ω] {held : ω → Option η} {live : η → Prop} {o o' : ω} {h : η}

structure Custody (held : ω → Option η) (live : η → Prop) : Prop where
  sound : ∀ o h, held o = some h → live h
  unique : ∀ o o' h, held o = some h → held o' = some h → o = o'
  kept : ∀ h, live h → ∃ o, held o = some h

namespace Custody

theorem add (hc : Custody held live) (ho : held o = none) (hnew : ¬ live h) :
    Custody (Function.update held o (some h)) fun x => live x ∨ x = h where
  sound p x hp := by
    rw [Function.update_apply] at hp
    split at hp
    · exact Or.inr (Option.some_inj.mp hp).symm
    · exact Or.inl (hc.sound p x hp)
  unique p q x hp hq := by
    rw [Function.update_apply] at hp hq
    split at hp <;> split at hq <;> rename_i hpo hqo
    · rw [hpo, hqo]
    · cases hp
      exact absurd (hc.sound q h hq) hnew
    · cases hq
      exact absurd (hc.sound p h hp) hnew
    · exact hc.unique p q x hp hq
  kept x hx := by
    cases hx with
    | inl hx =>
      obtain ⟨p, hp⟩ := hc.kept x hx
      have hpo : p ≠ o := by
        rintro rfl
        rw [ho] at hp
        cases hp
      exact ⟨p, by rw [Function.update_of_ne hpo, hp]⟩
    | inr hx => exact ⟨o, by rw [Function.update_self, hx]⟩

theorem drop (hc : Custody held live) (ho : held o = some h) :
    Custody (Function.update held o none) fun x => live x ∧ x ≠ h where
  sound p x hp := by
    rw [Function.update_apply] at hp
    split at hp
    · cases hp
    · rename_i hpo
      refine ⟨hc.sound p x hp, ?_⟩
      rintro rfl
      exact hpo (hc.unique p o x hp ho)
  unique p q x hp hq := by
    rw [Function.update_apply] at hp hq
    split at hp
    · cases hp
    · split at hq
      · cases hq
      · exact hc.unique p q x hp hq
  kept x hx := by
    obtain ⟨p, hp⟩ := hc.kept x hx.1
    have hpo : p ≠ o := by
      rintro rfl
      rw [ho] at hp
      exact hx.2 (Option.some_inj.mp hp).symm
    exact ⟨p, by rw [Function.update_of_ne hpo, hp]⟩

theorem move [DecidableEq η] (hc : Custody held live) (ho : held o = some h)
    (ho' : held o' = none) :
    Custody (Function.update (Function.update held o none) o' (some h)) live := by
  have hempty : Function.update held o none o' = none := by
    rw [Function.update_apply, ho', ite_self]
  have hadd := (hc.drop ho).add hempty (fun hx => hx.2 rfl)
  refine ⟨?_, hadd.unique, ?_⟩
  · intro p x hp
    cases hadd.sound p x hp with
    | inl hx => exact hx.1
    | inr hx =>
      rw [hx]
      exact hc.sound o h ho
  · intro x hx
    apply hadd.kept
    by_cases hxh : x = h
    · exact Or.inr hxh
    · exact Or.inl ⟨hx, hxh⟩

omit [DecidableEq ω] in
theorem congr {held' : ω → Option η} {live' : η → Prop} (hc : Custody held live)
    (hheld : held' = held) (hlive : ∀ x, live' x ↔ live x) : Custody held' live' := by
  have hl : live' = live := funext fun x => propext (hlive x)
  rw [hheld, hl]
  exact hc

end Custody

end Gehtp.Lib
