import Mathlib.Tactic.IntervalCases
import Gehtp.Model.ChatServer

/-!
# Where a generated text is cut

Generation looks for the stop strings after each token, in the whole text so far. What has been
handed out before stays handed out: the text is cut at the stop only if the stop begins in the last
token, and the earliest stop of the text is the one that is found only if it is complete by then.
-/

set_option autoImplicit false

namespace Gehtp.Analysis.StopCut

open Model.ChatServer

/-! ### Occurrences of stop strings -/

/-- A stop string stands at a place of the text. -/
def Occurs (stops : List (List Char)) (text : List Char) (i : ℕ) : Prop :=
  ∃ seq ∈ stops, seq ≠ [] ∧ seq <+: text.drop i

instance (stops : List (List Char)) (text : List Char) (i : ℕ) : Decidable (Occurs stops text i) :=
  inferInstanceAs (Decidable (∃ seq ∈ stops, seq ≠ [] ∧ seq <+: text.drop i))

/-- The first place where a stop string stands. -/
def Earliest (stops : List (List Char)) (text : List Char) (i : ℕ) : Prop :=
  Occurs stops text i ∧ ∀ j < i, ¬ Occurs stops text j

/-- The text up to the first stop string, the whole text if there is none. -/
def IsCut (stops : List (List Char)) (text cut : List Char) : Prop :=
  (∃ i, Earliest stops text i ∧ cut = text.take i) ∨ ((∀ i, ¬ Occurs stops text i) ∧ cut = text)

variable {stops : List (List Char)} {text : List Char} {i j n k : ℕ}

theorem Occurs.lt_length (h : Occurs stops text i) : i < text.length := by
  obtain ⟨seq, -, hne, hpre⟩ := h
  have hlen := hpre.length_le
  have hpos := List.length_pos_iff.mpr hne
  rw [List.length_drop] at hlen
  omega

theorem Occurs.append (h : Occurs stops text i) (more : List Char) : Occurs stops (text ++ more) i := by
  have hlt := h.lt_length
  obtain ⟨seq, hseq, hne, hpre⟩ := h
  refine ⟨seq, hseq, hne, ?_⟩
  rw [List.drop_append_of_le_length (Nat.le_of_lt hlt)]
  exact hpre.trans (List.prefix_append _ _)

theorem Earliest.unique (h : Earliest stops text i) (h' : Earliest stops text j) : i = j := by
  apply Nat.le_antisymm
  · by_contra hlt
    exact h.2 j (Nat.lt_of_not_le hlt) h'.1
  · by_contra hlt
    exact h'.2 i (Nat.lt_of_not_le hlt) h.1

theorem exists_earliest (h : Occurs stops text i) : ∃ j ≤ i, Earliest stops text j := by
  classical
  have hex : ∃ j, Occurs stops text j := ⟨i, h⟩
  exact ⟨Nat.find hex, Nat.find_le h, Nat.find_spec hex, fun j hj => Nat.find_min hex hj⟩

/-! ### Finding them -/

theorem findSeq_eq_some {seq : List Char} (h : findSeq seq text = some i) :
    seq <+: text.drop i ∧ ∀ j < i, ¬ seq <+: text.drop j := by
  induction text generalizing i with
  | nil =>
    rw [findSeq] at h
    split at h
    · next hempty =>
      cases h
      rw [List.isEmpty_iff.mp hempty]
      exact ⟨List.nil_prefix, fun j hj => absurd hj (Nat.not_lt_zero j)⟩
    · cases h
  | cons c l ih =>
    rw [findSeq] at h
    split at h
    · next hpre =>
      cases h
      exact ⟨List.isPrefixOf_iff_prefix.mp hpre, fun j hj => absurd hj (Nat.not_lt_zero j)⟩
    · next hpre =>
      obtain ⟨i', hi', rfl⟩ := Option.map_eq_some_iff.mp h
      obtain ⟨hat, hbefore⟩ := ih hi'
      refine ⟨hat, fun j hj => ?_⟩
      cases j with
      | zero => exact fun hzero => hpre (List.isPrefixOf_iff_prefix.mpr hzero)
      | succ j => exact hbefore j (Nat.lt_of_succ_lt_succ hj)

theorem findSeq_eq_none {seq : List Char} (h : findSeq seq text = none) (hne : seq ≠ []) (i : ℕ) :
    ¬ seq <+: text.drop i := by
  induction text generalizing i with
  | nil =>
    rw [List.drop_nil, List.prefix_nil]
    exact hne
  | cons c l ih =>
    rw [findSeq] at h
    split at h
    · cases h
    · next hpre =>
      cases i with
      | zero => exact fun hzero => hpre (List.isPrefixOf_iff_prefix.mpr hzero)
      | succ i => exact ih (Option.map_eq_none_iff.mp h) i

/-- One stop string stands at a place of the text. -/
def At (seq text : List Char) (i : ℕ) : Prop := seq ≠ [] ∧ seq <+: text.drop i

theorem occurs_cons {seq : List Char} :
    Occurs (seq :: stops) text i ↔ At seq text i ∨ Occurs stops text i := by
  simp only [Occurs, At, List.mem_cons, exists_eq_or_imp]

theorem findStop_cons (text seq : List Char) (stops : List (List Char)) (best : Option ℕ) :
    ∃ best', findStop text (seq :: stops) best = findStop text stops best' ∧
      (∀ i, best' = some i → best = some i ∨ At seq text i) ∧
      ∀ j, best = some j ∨ At seq text j → ∃ i ≤ j, best' = some i := by
  have hround : findStop text (seq :: stops) best =
      if seq.isEmpty = true then findStop text stops best
      else findStop text stops (match findSeq seq text, best with
        | none, best => best
        | some i, none => some i
        | some i, some b => some (if i < b then i else b)) := by
    conv_lhs => unfold findStop
    cases findSeq seq text <;> cases best <;> rfl
  rw [hround]
  by_cases hempty : seq.isEmpty = true
  · rw [if_pos hempty]
    refine ⟨best, rfl, fun i h => Or.inl h, ?_⟩
    rintro j (hj | ⟨hne, -⟩)
    · exact ⟨j, le_rfl, hj⟩
    · exact absurd (List.isEmpty_iff.mp hempty) hne
  · rw [if_neg hempty]
    have hne : seq ≠ [] := fun h => hempty (List.isEmpty_iff.mpr h)
    cases hfind : findSeq seq text with
    | none =>
      refine ⟨best, rfl, fun i h => Or.inl h, ?_⟩
      rintro j (hj | ⟨-, hpre⟩)
      · exact ⟨j, le_rfl, hj⟩
      · exact absurd hpre (findSeq_eq_none hfind hne j)
    | some i =>
      obtain ⟨hat, hbefore⟩ := findSeq_eq_some hfind
      have hfirst : ∀ j, At seq text j → i ≤ j := by
        intro j hj
        by_contra hlt
        exact hbefore j (Nat.lt_of_not_le hlt) hj.2
      cases best with
      | none =>
        refine ⟨some i, rfl, fun i' h => Or.inr (Option.some.inj h ▸ ⟨hne, hat⟩), ?_⟩
        rintro j (hj | hj)
        · cases hj
        · exact ⟨i, hfirst j hj, rfl⟩
      | some b =>
        refine ⟨some (if i < b then i else b), rfl, fun i' h => ?_, ?_⟩
        · obtain rfl := Option.some.inj h
          split
          · exact Or.inr ⟨hne, hat⟩
          · exact Or.inl rfl
        · rintro j (hj | hj)
          · cases hj
            exact ⟨_, by split <;> omega, rfl⟩
          · have hle := hfirst j hj
            exact ⟨_, by split <;> omega, rfl⟩

theorem findStop_spec (text : List Char) (stops : List (List Char)) (best : Option ℕ) :
    (∀ i, findStop text stops best = some i → best = some i ∨ Occurs stops text i) ∧
    ∀ j, best = some j ∨ Occurs stops text j → ∃ i ≤ j, findStop text stops best = some i := by
  induction stops generalizing best with
  | nil =>
    refine ⟨fun i h => Or.inl h, ?_⟩
    rintro j (hj | ⟨seq, hseq, -⟩)
    · exact ⟨j, le_rfl, hj⟩
    · exact absurd hseq List.not_mem_nil
  | cons seq stops ih =>
    obtain ⟨best', heq, hfound, hkept⟩ := findStop_cons text seq stops best
    rw [heq]
    constructor
    · intro i h
      rw [occurs_cons]
      cases (ih best').1 i h with
      | inl hbest => exact (hfound i hbest).imp_right Or.inl
      | inr hocc => exact Or.inr (Or.inr hocc)
    · rintro j hj
      rw [occurs_cons, ← or_assoc] at hj
      cases hj with
      | inl hnow =>
        obtain ⟨b, hbj, hb⟩ := hkept j hnow
        obtain ⟨i, hib, hi⟩ := (ih best').2 b (Or.inl hb)
        exact ⟨i, hib.trans hbj, hi⟩
      | inr hlater => exact (ih best').2 j (Or.inr hlater)

theorem findStop_eq_some_iff : findStop text stops none = some i ↔ Earliest stops text i := by
  obtain ⟨hfound, hkept⟩ := findStop_spec text stops none
  constructor
  · intro h
    refine ⟨(hfound i h).resolve_left nofun, fun j hj hocc => ?_⟩
    obtain ⟨i', hi', h'⟩ := hkept j (Or.inr hocc)
    rw [h] at h'
    cases h'
    omega
  · rintro ⟨hocc, hbefore⟩
    obtain ⟨i', hi', h'⟩ := hkept i (Or.inr hocc)
    have hocc' := (hfound i' h').resolve_left nofun
    rcases Nat.lt_or_eq_of_le hi' with hlt | rfl
    · exact absurd hocc' (hbefore i' hlt)
    · exact h'

theorem findStop_eq_none_iff : findStop text stops none = none ↔ ∀ i, ¬ Occurs stops text i := by
  constructor
  · intro h i hocc
    obtain ⟨i', -, hi'⟩ := (findStop_spec text stops none).2 i (Or.inr hocc)
    rw [h] at hi'
    cases hi'
  · intro h
    by_contra hsome
    obtain ⟨i, hi⟩ := Option.ne_none_iff_exists'.mp hsome
    exact h i (findStop_eq_some_iff.mp hi).1

/-! ### The generated text -/

def textOf (w : ℕ → List Char) (n : ℕ) : List Char := (List.range n).flatMap w

variable {w : ℕ → List Char}

theorem textOf_succ (w : ℕ → List Char) (n : ℕ) : textOf w (n + 1) = textOf w n ++ w n := by
  rw [textOf, List.range_succ, List.flatMap_append, List.flatMap_singleton, ← textOf]

theorem textOf_isPrefix (w : ℕ → List Char) (h : k ≤ n) : textOf w k <+: textOf w n := by
  induction h with
  | refl => exact List.prefix_refl _
  | step _ ih =>
    rw [Nat.succ_eq_add_one, textOf_succ]
    exact ih.trans (List.prefix_append _ _)

theorem Occurs.mono (h : Occurs stops (textOf w k) i) (hkn : k ≤ n) :
    Occurs stops (textOf w n) i := by
  obtain ⟨more, hmore⟩ := textOf_isPrefix w hkn
  rw [← hmore]
  exact h.append more

/-! ### The loop -/

/-- The texts that have been handed out. -/
def emitted (g : Gen) : List Char := g.out.flatMap Prod.snd

/-- The results of the runs decode to these texts. -/
def Decodes (decode : ℤ → Option (List Char)) (c : Chat) (o : ℕ → Obs) (results : ℕ → Result)
    (w : ℕ → List Char) : Prop :=
  ∀ k, ∃ t, pickToken c (o k) (results k) = some t ∧ decode t = some (w k)

/-- The loop is about to take token number `k`, with `left` to come. -/
structure Going (c : Chat) (w : ℕ → List Char) (left k : ℕ) (g : Gen) : Prop where
  text : g.text = textOf w k
  emitted : emitted g = textOf w k
  count : g.out.length = k
  clear : ∀ i, ¬ Occurs c.stop (textOf w k) i
  room : g.kvPosition + left ≤ c.kvMax

/-- All tokens have been handed out and there is no stop. -/
structure Exhausted (c : Chat) (w : ℕ → List Char) (total : ℕ) (g : Gen) : Prop where
  pc : g.pc = .done .length
  emitted : emitted g = textOf w total
  count : g.out.length = total
  clear : ∀ i, ¬ Occurs c.stop (textOf w total) i

/-- With token number `n` the first stop string was complete, at the place `s`. -/
structure Stopped (c : Chat) (w : ℕ → List Char) (n s : ℕ) (g : Gen) : Prop where
  pc : g.pc = .done .stop
  emitted : emitted g = (textOf w (n + 1)).take (max (textOf w n).length s)
  count : g.out.length ≤ n + 1
  clear : ∀ i, ¬ Occurs c.stop (textOf w n) i
  stop : Earliest c.stop (textOf w (n + 1)) s

variable {decode : ℤ → Option (List Char)} {c : Chat} {o : ℕ → Obs} {results : ℕ → Result}
variable {left s : ℕ} {g : Gen}

theorem append_drop_take (l r : List Char) (s : ℕ) :
    l ++ ((l ++ r).take s).drop l.length = (l ++ r).take (max l.length s) := by
  by_cases h : l.length ≤ s
  · obtain ⟨d, rfl⟩ := Nat.exists_eq_add_of_le h
    rw [Nat.max_eq_right h, List.take_length_add_append, List.drop_left]
  · have hshort : ((l ++ r).take s).drop l.length = [] := by
      apply List.drop_eq_nil_of_le
      rw [List.length_take]
      omega
    rw [hshort, List.append_nil, Nat.max_eq_left (by omega), List.take_left]

theorem useResult_goes (hdec : Decodes decode c o results w) (hg : Going c w (left + 1) k g)
    (hclear : ∀ i, ¬ Occurs c.stop (textOf w (k + 1)) i) :
    ∃ g', useResult decode c (o k) left (results k) g = handOut g' left ∧
      Going c w left (k + 1) g' := by
  obtain ⟨t, hpick, htext⟩ := hdec k
  have hmerged : g.text ++ w k = textOf w (k + 1) := by
    rw [hg.text, textOf_succ]
  have hroom := hg.room
  refine ⟨{ g with
    result := none, lastToken := t, text := textOf w (k + 1), kvPosition := g.kvPosition + 1
    out := g.out ++ [(t, w k)] }, ?_, rfl, ?_, ?_, hclear, by show g.kvPosition + 1 + left ≤ _; omega⟩
  · simp only [useResult, hpick, htext, hmerged, findStop_eq_none_iff.mpr hclear, advanceSession]
    rw [if_neg (by omega)]
  · show (g.out ++ [(t, w k)]).flatMap Prod.snd = _
    rw [List.flatMap_append, List.flatMap_singleton, textOf_succ, ← hg.emitted]
    rfl
  · show (g.out ++ [(t, w k)]).length = _
    rw [List.length_append, hg.count]
    rfl

theorem useResult_stops (hdec : Decodes decode c o results w) (hg : Going c w (left + 1) k g)
    (hstop : Earliest c.stop (textOf w (k + 1)) s) :
    ∃ g', useResult decode c (o k) left (results k) g = g' ∧
      (g'.pc = .done .stop ∨ g'.pc = .last .stop) ∧ Stopped c w k s g'.sayEnd := by
  obtain ⟨t, hpick, htext⟩ := hdec k
  have hmerged : g.text ++ w k = textOf w (k + 1) := by
    rw [hg.text, textOf_succ]
  have hout : emitted g ++ ((textOf w (k + 1)).take s).drop g.text.length =
      (textOf w (k + 1)).take (max (textOf w k).length s) := by
    rw [hg.emitted, hg.text, textOf_succ, append_drop_take]
  by_cases hempty : (((textOf w (k + 1)).take s).drop g.text.length).isEmpty = true
  · have hrun : useResult decode c (o k) left (results k) g =
        { (advanceSession c { g with result := none, lastToken := t } 1).getD
            { g with result := none, lastToken := t } with
          text := (textOf w (k + 1)).take s
          pc := .done .stop } := by
      simp only [useResult, hpick, htext, hmerged, findStop_eq_some_iff.mpr hstop, hempty, if_true]
    have hsame : ((advanceSession c { g with result := none, lastToken := t } 1).getD
        { g with result := none, lastToken := t }).out = g.out := by
      unfold advanceSession
      split <;> rfl
    rw [List.isEmpty_iff.mp hempty, List.append_nil] at hout
    refine ⟨_, hrun, .inl rfl, rfl, ?_, ?_, hg.clear, hstop⟩
    · rw [← hout]
      exact congrArg (List.flatMap Prod.snd) hsame
    · exact (congrArg List.length hsame).le.trans (Nat.le_succ_of_le hg.count.le)
  · have hrun : useResult decode c (o k) left (results k) g =
        { (advanceSession c { g with result := none, lastToken := t } 1).getD
            { g with result := none, lastToken := t } with
          text := (textOf w (k + 1)).take s
          out := g.out ++ [(t, ((textOf w (k + 1)).take s).drop g.text.length)]
          pc := .last .stop } := by
      simp only [useResult, hpick, htext, hmerged, findStop_eq_some_iff.mpr hstop, hempty]
      rfl
    refine ⟨_, hrun, .inr rfl, rfl, ?_, ?_, hg.clear, hstop⟩
    · rw [← hout]
      show (g.out ++ [_]).flatMap Prod.snd = _
      rw [List.flatMap_append, List.flatMap_singleton]
      rfl
    · show (g.out ++ [_]).length ≤ _
      rw [List.length_append, hg.count]
      rfl

/-- When no token is to be taken, the loop is over. -/
theorem generationPhase_of_over (h : ∀ left, g.pc ≠ .check left) (n k : ℕ) :
    generationPhase decode c o results n k g = g.sayEnd := by
  cases n with
  | zero => rfl
  | succ n =>
    unfold generationPhase
    split
    · rename_i left hpc
      exact absurd hpc (h left)
    · rfl

theorem generationPhase_ends (hdec : Decodes decode c o results w) (hg : Going c w left k g)
    {g₀ : Gen} (hstart : g₀ = enterLoop g left ∨ g₀ = handOut g left) :
    Exhausted c w (k + left) (generationPhase decode c o results left k g₀) ∨
    ∃ n s, n < k + left ∧ Stopped c w n s (generationPhase decode c o results left k g₀) := by
  induction left generalizing k g g₀ with
  | zero =>
    rcases hstart with rfl | rfl
    · exact Or.inl ⟨rfl, hg.emitted, hg.count, hg.clear⟩
    · exact Or.inl ⟨rfl, hg.emitted, hg.count, hg.clear⟩
  | succ left ih =>
    obtain rfl : g₀ = { g with pc := .check left } := hstart.elim id id
    -- the position in the cache plays no part in what is handed out
    have hg' : Going c w (left + 1) k (if k = 0 then { g with pc := .check left }
        else { g with pc := .check left, position := g.position + 1 }) := by
      split
      · exact ⟨hg.text, hg.emitted, hg.count, hg.clear, hg.room⟩
      · exact ⟨hg.text, hg.emitted, hg.count, hg.clear, hg.room⟩
    have hround : generationPhase decode c o results (left + 1) k { g with pc := .check left } =
        generationPhase decode c o results left (k + 1) (useResult decode c (o k) left (results k)
          (if k = 0 then { g with pc := .check left }
            else { g with pc := .check left, position := g.position + 1 })) := rfl
    rw [hround]
    cases hfind : findStop (textOf w (k + 1)) c.stop none with
    | some s =>
      obtain ⟨g₁, hrun, hpc, hstopped⟩ :=
        useResult_stops hdec hg' (findStop_eq_some_iff.mp hfind)
      have hover : ∀ n, g₁.pc ≠ .check n := by
        intro n hn
        rcases hpc with hpc | hpc
        · exact GenPc.noConfusion (hpc.symm.trans hn)
        · exact GenPc.noConfusion (hpc.symm.trans hn)
      rw [hrun, generationPhase_of_over hover]
      exact Or.inr ⟨k, s, by omega, hstopped⟩
    | none =>
      obtain ⟨g₁, hrun, hgoing⟩ := useResult_goes hdec hg' (findStop_eq_none_iff.mp hfind)
      rw [hrun, show k + (left + 1) = k + 1 + left by omega]
      exact ih hgoing (.inr rfl)

/-! ### The loop and the steps of the generator -/

section Steps

variable {D : Type} {V : Device D} {slot : Slot D}

/-- The generator takes one step for each of these. -/
def genSteps (V : Device D) (decode : ℤ → Option (List Char)) (c : Chat) (obs : List Obs)
    (gs : Gen × Slot D) : Gen × Slot D :=
  obs.foldl (fun gs ob => genStep V decode c ob gs.1 gs.2) gs

/-- Generation has come to its end without an error. -/
def Ends (g : Gen) : Prop := g.pc = .done .stop ∨ g.pc = .done .length

theorem genSteps_done {how : Outcome} (h : g.pc = .done how) (obs : List Obs) :
    genSteps V decode c obs (g, slot) = (g, slot) := by
  induction obs with
  | nil => rfl
  | cons ob obs ih =>
    have hstep : genStep V decode c ob g slot = (g, slot) := by
      unfold genStep
      rw [h]
    show genSteps V decode c obs (genStep V decode c ob g slot) = _
    rw [hstep, ih]

theorem genSteps_last {how : Outcome} (h : g.pc = .last how) {obs : List Obs}
    (hend : Ends (genSteps V decode c obs (g, slot)).1) :
    genSteps V decode c obs (g, slot) = (g.finish how, slot) := by
  cases obs with
  | nil =>
    have hpc : (genSteps V decode c [] (g, slot)).1.pc = .last how := h
    rw [Ends, hpc] at hend
    cases hend with
    | inl hdone => cases hdone
    | inr hdone => cases hdone
  | cons ob obs =>
    have hstep : genStep V decode c ob g slot = (g.finish how, slot) := by
      unfold genStep
      rw [h]
    show genSteps V decode c obs (genStep V decode c ob g slot) = _
    rw [hstep]
    exact genSteps_done rfl obs

theorem useResult_pc (ob : Obs) (left : ℕ) (r : Result) (g : Gen) (p : GenPc) :
    useResult decode c ob left r { g with pc := p } = useResult decode c ob left r g := by
  unfold useResult advanceSession
  cases pickToken c ob r with
  | none => rfl
  | some t =>
    dsimp only
    cases decode t with
    | none => rfl
    | some word =>
      dsimp only
      cases findStop (g.text ++ word) c.stop none with
      | some i =>
        dsimp only
        split <;> split <;> rfl
      | none =>
        dsimp only
        by_cases hroom : c.kvMax < g.kvPosition + 1
        · rw [if_pos hroom, if_pos hroom]
          rfl
        · rw [if_neg hroom, if_neg hroom]
          cases left <;> rfl

/-- After a token the loop goes on without a result, or it is over. -/
theorem useResult_cases (ob : Obs) (left : ℕ) (r : Result) (g : Gen) :
    (∃ m, (useResult decode c ob left r g).pc = .check m ∧
        (useResult decode c ob left r g).result = none) ∨
      ∃ how, (useResult decode c ob left r g).pc = .last how ∨
        (useResult decode c ob left r g).pc = .done how := by
  unfold useResult advanceSession
  cases pickToken c ob r with
  | none => exact .inr ⟨_, .inr rfl⟩
  | some t =>
    dsimp only
    cases decode t with
    | none => exact .inr ⟨_, .inr rfl⟩
    | some word =>
      dsimp only
      cases findStop (g.text ++ word) c.stop none with
      | some i =>
        dsimp only
        split
        · exact .inr ⟨_, .inr rfl⟩
        · exact .inr ⟨_, .inl rfl⟩
      | none =>
        dsimp only
        by_cases hroom : c.kvMax < g.kvPosition + 1
        · rw [if_pos hroom]
          exact .inr ⟨_, .inr rfl⟩
        · rw [if_neg hroom]
          cases left with
          | zero => exact .inr ⟨_, .inl rfl⟩
          | succ left => exact .inl ⟨left, rfl, rfl⟩

/-- The loop does not look at what comes before its round. -/
theorem generationPhase_congr {o' : ℕ → Obs} {results' : ℕ → Result} (n k : ℕ) (g : Gen)
    (h : ∀ j, k ≤ j → o j = o' j ∧ results j = results' j) :
    generationPhase decode c o results n k g = generationPhase decode c o' results' n k g := by
  induction n generalizing k g with
  | zero => rfl
  | succ n ih =>
    unfold generationPhase
    split
    · obtain ⟨ho, hr⟩ := h k (Nat.le_refl k)
      dsimp only
      rw [ho, hr]
      exact ih _ _ fun j hj => h j (Nat.le_of_succ_le hj)
    · rfl

/-- One round more before a loop. -/
theorem generationPhase_cons {left : ℕ} (hpc : g.pc = .check left) (ob : Obs) (r : Result)
    (n k : ℕ) : ∃ o' results', generationPhase decode c o' results' (n + 1) k g =
      generationPhase decode c o results n (k + 1) (useResult decode c ob left r
        (if k = 0 then g else { g with position := g.position + 1 })) := by
  refine ⟨Function.update o k ob, Function.update results k r, ?_⟩
  rw [generationPhase, hpc]
  dsimp only
  rw [Function.update_self, Function.update_self]
  apply generationPhase_congr
  intro j hj
  have hne : j ≠ k := by omega
  exact ⟨Function.update_of_ne hne _ _, Function.update_of_ne hne _ _⟩

theorem not_ends_of_check {left : ℕ} (h : g.pc = .check left) : ¬ Ends g := by
  rintro (hdone | hdone)
  · cases h.symm.trans hdone
  · cases h.symm.trans hdone

/-- The steps of the generator for one token: one with a result at hand, else two. -/
theorem genSteps_round {left : ℕ} {obs : List Obs} (hstay : ∀ ob ∈ obs, ob.disconnected = false)
    (hpc : g.pc = .check left)
    (hresult : (k = 0 ∧ g.result.isSome = true) ∨ (k ≠ 0 ∧ g.result = none))
    (hend : Ends (genSteps V decode c obs (g, slot)).1) :
    ∃ ob r rest slot', rest.length < obs.length ∧ rest ⊆ obs ∧
      genSteps V decode c obs (g, slot) = genSteps V decode c rest
        (useResult decode c ob left r (if k = 0 then g else { g with position := g.position + 1 }),
          slot') := by
  cases obs with
  | nil => exact absurd hend (not_ends_of_check hpc)
  | cons ob obs =>
    have ho := hstay ob List.mem_cons_self
    rcases hresult with ⟨rfl, hsome⟩ | ⟨hk, hnone⟩
    · obtain ⟨r, hr⟩ := Option.isSome_iff_exists.mp hsome
      have hstep : genStep V decode c ob g slot = (useResult decode c ob left r g, slot) := by
        unfold genStep
        simp only [hpc, ho, hr, Bool.false_eq_true, if_false]
      refine ⟨ob, r, obs, slot, Nat.lt_succ_self _, List.subset_cons_self _ _, ?_⟩
      rw [if_pos rfl, ← hstep]
      rfl
    · have hstep : genStep V decode c ob g slot = ({ g with pc := .decodeRun left }, slot) := by
        unfold genStep
        simp only [hpc, ho, hnone, Bool.false_eq_true, if_false]
      have hfirst : genSteps V decode c (ob :: obs) (g, slot) =
          genSteps V decode c obs ({ g with pc := .decodeRun left }, slot) := by
        rw [← hstep]
        rfl
      rw [hfirst] at hend ⊢
      cases obs with
      | nil =>
        cases hend with
        | inl hdone => cases hdone
        | inr hdone => cases hdone
      | cons ob' obs =>
        change Ends (genSteps V decode c obs
          (genStep V decode c ob' { g with pc := .decodeRun left } slot)).1 at hend
        cases hrun : slot.run V c.kvMax g.lastToken g.position with
        | mk res slot' =>
          cases res with
          | none =>
            -- the device fails, which is not an end
            have hstep' : genStep V decode c ob' { g with pc := .decodeRun left } slot =
                (Gen.finish { g with pc := .decodeRun left } .error, slot') := by
              unfold genStep
              simp only [hrun]
            rw [hstep', genSteps_done rfl] at hend
            cases hend with
            | inl hdone => cases hdone
            | inr hdone => cases hdone
          | some r =>
            have hstep' : genStep V decode c ob' { g with pc := .decodeRun left } slot =
                (useResult decode c ob' left r { g with position := g.position + 1 }, slot') := by
              unfold genStep
              simp only [hrun]
              exact congrArg (·, slot') (useResult_pc ob' left r
                { g with position := g.position + 1 } (.decodeRun left))
            refine ⟨ob', r, obs, slot', Nat.lt_succ_of_lt (Nat.lt_succ_self _), ?_, ?_⟩
            · exact fun x hx => List.mem_cons_of_mem _ (List.mem_cons_of_mem _ hx)
            · rw [if_neg hk, ← hstep']
              rfl

/-- While the client stays, a generator that comes to its end goes through the loop, with the results
that the device has given. -/
theorem generationPhase_of_steps {left : ℕ} (obs : List Obs)
    (hstay : ∀ ob ∈ obs, ob.disconnected = false) (hpc : g.pc = .check left)
    (hresult : (k = 0 ∧ g.result.isSome = true) ∨ (k ≠ 0 ∧ g.result = none))
    (hend : Ends (genSteps V decode c obs (g, slot)).1) :
    ∃ o results n, generationPhase decode c o results n k g =
      (genSteps V decode c obs (g, slot)).1 := by
  induction hlen : obs.length using Nat.strong_induction_on generalizing obs k g slot left with
  | _ len ih =>
    obtain ⟨ob, r, rest, slot', hlt, hsub, heq⟩ := genSteps_round hstay hpc hresult hend
    rw [heq] at hend ⊢
    have hcases := @useResult_cases decode c ob left r
      (if k = 0 then g else { g with position := g.position + 1 })
    have hcons := fun {o : ℕ → Obs} {results : ℕ → Result} (n : ℕ) =>
      @generationPhase_cons decode c o results g left hpc ob r n k
    generalize useResult decode c ob left r
      (if k = 0 then g else { g with position := g.position + 1 }) = g₁ at hend hcases hcons ⊢
    have hround : ∃ o results n, generationPhase decode c o results n (k + 1) g₁ =
        (genSteps V decode c rest (g₁, slot')).1 := by
      rcases hcases with ⟨m, hcheck, hnone⟩ | ⟨how, hlast | hdone⟩
      · exact ih rest.length (hlen ▸ hlt) rest (fun x hx => hstay x (hsub hx)) hcheck
          (.inr ⟨Nat.succ_ne_zero k, hnone⟩) hend rfl
      · refine ⟨fun _ => ob, fun _ => r, 0, ?_⟩
        rw [genSteps_last hlast hend, generationPhase, Gen.sayEnd, hlast]
      · refine ⟨fun _ => ob, fun _ => r, 0, ?_⟩
        rw [genSteps_done hdone, generationPhase, Gen.sayEnd, hdone]
    obtain ⟨o, results, n, hphase⟩ := hround
    obtain ⟨o', results', hmore⟩ := @hcons o results n
    exact ⟨o', results', n + 1, hmore.trans hphase⟩

end Steps

/-! ### The cut -/

/-- What is handed out is the text up to the first stop string, and nothing after it. -/
structure StopsRight (c : Chat) (w : ℕ → List Char) (g : Gen) : Prop where
  ended : g.pc = .done .stop ∨ g.pc = .done .length
  cut : IsCut c.stop (textOf w c.maxTokens) (emitted g)
  quiet : ∀ n i, Occurs c.stop (textOf w n) i → g.out.length ≤ n

/-- The first stop string of the whole text begins in the token with which a stop string is complete
for the first time, and is complete with it. -/
def StopInToken (stops : List (List Char)) (w : ℕ → List Char) (total : ℕ) : Prop :=
  ∀ n s, n < total → (∀ i, ¬ Occurs stops (textOf w n) i) →
    (∃ i, Occurs stops (textOf w (n + 1)) i) → Earliest stops (textOf w total) s →
    (textOf w n).length ≤ s ∧ Occurs stops (textOf w (n + 1)) s

theorem first_le (hclear : ∀ i, ¬ Occurs stops (textOf w n) i) (hk : Occurs stops (textOf w k) i) :
    n + 1 ≤ k := by
  by_contra hlt
  exact hclear i (hk.mono (by omega))

theorem Exhausted.right {total : ℕ} (h : Exhausted c w total g) (htotal : total = c.maxTokens) :
    StopsRight c w g where
  ended := Or.inr h.pc
  cut := by
    rw [h.emitted, ← htotal]
    exact Or.inr ⟨h.clear, rfl⟩
  quiet n i hi := by
    have hle := first_le h.clear hi
    rw [h.count]
    omega

theorem Stopped.right_iff (h : Stopped c w n s g) (hn : n < c.maxTokens) :
    StopsRight c w g ↔ StopInToken c.stop w c.maxTokens := by
  have hstop : Occurs c.stop (textOf w c.maxTokens) s := h.stop.1.mono hn
  have hlen : (textOf w n).length ≤ (textOf w (n + 1)).length := (textOf_isPrefix w (by omega)).length_le
  have hs : s < (textOf w (n + 1)).length := h.stop.1.lt_length
  constructor
  · intro hright n' s' hn' hclear hcomplete hfirst
    obtain ⟨i, hi⟩ := hcomplete
    -- there is only one token with which a stop string is complete for the first time
    obtain rfl : n' = n := by
      have hle := first_le h.clear hi
      have hle' := first_le hclear h.stop.1
      omega
    have hle : s' ≤ s := by
      by_contra hlt
      exact hfirst.2 s (by omega) hstop
    obtain ⟨s₀, hs₀, hcut⟩ | ⟨hnone, -⟩ := hright.cut
    · obtain rfl := hs₀.unique hfirst
      have hlength := congrArg List.length (h.emitted.symm.trans hcut)
      have hbound := hfirst.1.lt_length
      rw [List.length_take, List.length_take] at hlength
      obtain rfl : s₀ = s := by omega
      exact ⟨by omega, h.stop.1⟩
    · exact absurd hfirst.1 (hnone s')
  · intro hin
    obtain ⟨s', -, hfirst⟩ := exists_earliest hstop
    obtain ⟨hbegin, hcomplete⟩ := hin n s' hn h.clear ⟨s, h.stop.1⟩ hfirst
    obtain rfl : s' = s := by
      apply Nat.le_antisymm
      · by_contra hlt
        exact hfirst.2 s (by omega) hstop
      · by_contra hlt
        exact h.stop.2 s' (by omega) hcomplete
    refine ⟨Or.inl h.pc, Or.inl ⟨s', hfirst, ?_⟩, fun n' i hi => ?_⟩
    · obtain ⟨more, hmore⟩ := textOf_isPrefix w (show n + 1 ≤ c.maxTokens from hn)
      rw [h.emitted, Nat.max_eq_right hbegin, ← hmore, List.take_append_of_le_length hs.le]
    · exact h.count.trans (first_le h.clear hi)

/-- Generation after the prompt cuts its text at the first stop string exactly if that string begins
in, and is complete with, the token that completes the first one. -/
theorem stop_cut_iff (decode : ℤ → Option (List Char)) (c : Chat) (o : ℕ → Obs)
    (results : ℕ → Result) (w : ℕ → List Char) (r : Result) (hdec : Decodes decode c o results w)
    (hroom : c.inputIds.length + c.maxTokens ≤ c.kvMax) :
    StopsRight c w
        (generationPhase decode c o results c.maxTokens 0 (promptDone c (Gen.fed c r))) ↔
      StopInToken c.stop w c.maxTokens := by
  have hprompt : promptDone c (Gen.fed c r) =
      enterLoop { Gen.fed c r with kvPosition := c.inputIds.length } c.maxTokens := by
    have hfits : ¬ c.kvMax < (Gen.fed c r).kvPosition + c.inputIds.length := by
      show ¬ c.kvMax < 0 + c.inputIds.length
      omega
    rw [promptDone, advanceSession, if_neg hfits]
    show enterLoop { Gen.fed c r with kvPosition := 0 + c.inputIds.length } c.maxTokens = _
    rw [Nat.zero_add]
  have hgoing : Going c w c.maxTokens 0 { Gen.fed c r with kvPosition := c.inputIds.length } :=
    ⟨rfl, rfl, rfl, fun i hi => absurd hi.lt_length (Nat.not_lt_zero i), hroom⟩
  rw [hprompt]
  obtain hexhausted | ⟨n, s, hn, hstopped⟩ := generationPhase_ends hdec hgoing (.inl rfl)
  · refine iff_of_true (hexhausted.right (Nat.zero_add _)) fun n s hn _ hcomplete _ => ?_
    obtain ⟨i, hi⟩ := hcomplete
    exact absurd (hi.mono (show n + 1 ≤ 0 + c.maxTokens by omega)) (hexhausted.clear i)
  · exact hstopped.right_iff (by omega)

/-- A request for two tokens with one stop string. -/
def twoTokens (stop : List Char) : Chat := ⟨[1], 2, [stop], true, false, 8⟩

/-- The token 0 is `a`, all others are `b`. -/
def letters (t : ℤ) : List Char := if t = 0 then ['a'] else ['b']

/-- The device hands out the tokens 0 and 1. -/
def lettersOut (stop : List Char) : Gen :=
  generationPhase (fun t => some (letters t)) (twoTokens stop) (fun _ => ⟨false, 0⟩)
    (fun k => .token k) 2 0 (promptDone (twoTokens stop) (Gen.fed (twoTokens stop) (.token 0)))

/-- The stop string `b` is cut off. -/
theorem letter_cut : StopsRight (twoTokens ['b']) (fun k => letters k) (lettersOut ['b']) := by
  refine (stop_cut_iff (fun t => some (letters t)) (twoTokens ['b']) _ _ _ (.token 0)
    (fun k => ⟨k, rfl, rfl⟩) (by decide)).mpr ?_
  intro n s hn _ hcomplete hfirst
  obtain ⟨i, hi⟩ := hcomplete
  have hs : s = 1 := hfirst.unique ⟨by decide, by decide⟩
  subst hs
  have htwo : n < 2 := hn
  interval_cases n
  · have hlt : i < 1 := hi.lt_length
    interval_cases i
    exact absurd hi (by decide)
  · exact ⟨by decide, by decide⟩

/-- Half of the stop string `ab` has been handed out before it is found. -/
theorem split_stop_not_cut :
    ¬ StopsRight (twoTokens ['a', 'b']) (fun k => letters k) (lettersOut ['a', 'b']) := by
  intro h
  have hout : emitted (lettersOut ['a', 'b']) = ['a'] := rfl
  have hcut := h.cut
  rw [hout] at hcut
  obtain ⟨i, hfirst, htake⟩ | ⟨hnone, -⟩ := hcut
  · have hi : i = 0 := hfirst.unique ⟨by decide, fun j hj => absurd hj (Nat.not_lt_zero j)⟩
    rw [hi, List.take_zero] at htake
    cases htake
  · exact hnone 0 (by decide)

end Gehtp.Analysis.StopCut
