import Gehtp.Model.DdrOffsets
import Gehtp.Analysis.FancyAllocatorSafe

/-!
# The memory plan keeps live outputs apart

`LiveAt` says, from the graph and the execution order alone, at which steps an
output is needed. The planning pass asks the allocator for an interval that covers
these steps as long as no 32-bit position in it wraps, and each pass of the allocator
is correct as long as its steps meet the condition of the allocator. Sizes are multiples
of the alignment, so all of this holds when the sizes add up to less than `2 ^ 64`. The
plan is then correct as a whole: co-live entries of a pool are apart, entries are inside
their pool, every eligible output has exactly one place, and spills are apart.
-/

set_option autoImplicit false

namespace Gehtp.Analysis.DdrOffsetsSafe

open Lib Model.OpGraph Model.FancyAllocator Model.DdrOffsets Analysis.FancyAllocatorSafe

/-! ### What a plan is for -/

/-- The output of `id` is needed at step `t`: it is produced then, or it was
produced before and some live consumer does not run before `t`, or it has no live
consumer and is kept to the end. -/
def LiveAt (g : OpMap) (order : List ℕ) (id t : ℕ) : Prop :=
  ∃ p od, order[p]? = some id ∧ g.getOpAt id = some od ∧ p ≤ t ∧ t < order.length ∧
    (t = p ∨ (∃ c ∈ liveConsumers g od, ∀ q, order[q]? = some c → t ≤ q) ∨
      liveConsumers g od = [])

/-- The outputs that need memory, with their sizes. -/
def outputs (g : OpMap) (order : List ℕ) : List (ℕ × ℕ) :=
  order.filterMap fun id =>
    (g.getOpAt id).bind fun od => if eligible od then some (id, outputBytes od.outputDef) else none

/-- The bytes that all outputs need together. -/
def plannedBytes (g : OpMap) (order : List ℕ) : ℕ := ((outputs g order).map Prod.snd).sum

/-- A correct plan. -/
structure PlanOk (g : OpMap) (order : List ℕ) (budget vtcmBudget : ℕ) (plan : DdrPlan) : Prop where
  caps : plan.cap = (if budget = 0 then plannedBytes g order % 2 ^ 64 else budget) ∧
    plan.vtcmCap = vtcmBudget
  apart : ∀ e ∈ plan.entries, ∀ f ∈ plan.entries, e.opId ≠ f.opId → e.inVtcm = f.inVtcm →
    (∃ t, LiveAt g order e.opId t ∧ LiveAt g order f.opId t) →
    e.offset + e.size ≤ f.offset ∨ f.offset + f.size ≤ e.offset
  inside : ∀ e ∈ plan.entries, e.offset + e.size ≤ if e.inVtcm then plan.vtcmCap else plan.cap
  once : (plan.entries.map (fun e => (e.opId, e.size)) ++
    plan.spilled.map fun e => (e.opId, e.size)).Perm (outputs g order)
  spillsApart : plan.spilled.Pairwise fun e f =>
    e.offset + e.size ≤ f.offset ∨ f.offset + f.size ≤ e.offset

/-! ### Lifetimes -/

theorem posOf_keys (order : List ℕ) :
    (order.zipIdx.map fun e => (e.1, e.2 % 2 ^ 32)).map Prod.fst = order := by
  rw [List.map_map]
  exact List.zipIdx_map_fst 0 order

variable {order : List ℕ} {c budget : ℕ} {g : OpMap} {l reqs : List AllocRequest}

theorem posOf_of_getElem (hnd : order.Nodup) {q : ℕ} (h : order[q]? = some c) :
    posOf order c = some (q % 2 ^ 32) := by
  unfold posOf
  apply store_of_mem
  · rw [posOf_keys]
    exact hnd
  · exact List.mem_map.mpr ⟨(c, q), List.mem_zipIdx_iff_getElem?.mpr h, rfl⟩

theorem posOf_eq_none (h : c ∉ order) : posOf order c = none := by
  unfold posOf
  rw [store_of_notMem]
  rw [posOf_keys]
  exact h

/-- No 32-bit position wraps that the interval of the output at position `p` is made from.
SOURCE: ddr_offsets.cpp:61-75 -/
structure PositionsFit (g : OpMap) (order : List ℕ) (p : ℕ) (od : OpDef) : Prop where
  own : p + 1 < 2 ^ 32
  uses : ∀ c ∈ liveConsumers g od, ∀ q, order[q]? = some c → q + 1 < 2 ^ 32
  last : (liveConsumers g od = [] ∨ ∃ c ∈ liveConsumers g od, c ∉ order) → order.length < 2 ^ 32

/-- The step of the consumer loop. -/
def useStep (order : List ℕ) (le c : ℕ) : ℕ :=
  match posOf order c with
  | some q => max le ((q + 1) % 2 ^ 32)
  | none => orderLen order

theorem useStep_of_getElem (hnd : order.Nodup) {q : ℕ} (h : order[q]? = some c)
    (hq : q + 1 < 2 ^ 32) (le : ℕ) : useStep order le c = max le (q + 1) := by
  unfold useStep
  rw [posOf_of_getElem hnd h, Nat.mod_eq_of_lt (show q < 2 ^ 32 by omega)]
  simp only
  rw [Nat.mod_eq_of_lt hq]

theorem useStep_of_notMem (h : c ∉ order) (hlen : order.length < 2 ^ 32) (le : ℕ) :
    useStep order le c = order.length := by
  unfold useStep
  rw [posOf_eq_none h]
  exact Nat.mod_eq_of_lt hlen

theorem useStep_bounds (hnd : order.Nodup) {le : ℕ} (hle : le ≤ order.length)
    (huse : ∀ q, order[q]? = some c → q + 1 < 2 ^ 32) (hlast : c ∉ order → order.length < 2 ^ 32) :
    le ≤ useStep order le c ∧ useStep order le c ≤ order.length := by
  by_cases hc : c ∈ order
  · obtain ⟨q, hq, hqc⟩ := List.getElem_of_mem hc
    have hget : order[q]? = some c := List.getElem?_eq_some_iff.mpr ⟨hq, hqc⟩
    rw [useStep_of_getElem hnd hget (huse q hget)]
    omega
  · rw [useStep_of_notMem hc (hlast hc)]
    omega

theorem foldl_useStep_ge (hnd : order.Nodup) (cs : List ℕ) {le : ℕ} (hle : le ≤ order.length)
    (huse : ∀ c ∈ cs, ∀ q, order[q]? = some c → q + 1 < 2 ^ 32)
    (hlast : ∀ c ∈ cs, c ∉ order → order.length < 2 ^ 32) :
    le ≤ cs.foldl (useStep order) le ∧
      ∀ c ∈ cs, ∃ x ≤ order.length, useStep order x c ≤ cs.foldl (useStep order) le := by
  induction cs generalizing le with
  | nil => simp
  | cons c cs ih =>
    obtain ⟨hlo, hhi⟩ := useStep_bounds hnd hle (huse c (by simp)) (hlast c (by simp))
    obtain ⟨h1, h2⟩ := ih hhi (fun d hd => huse d (by simp [hd])) fun d hd => hlast d (by simp [hd])
    refine ⟨hlo.trans h1, fun d hd => ?_⟩
    rcases List.mem_cons.mp hd with rfl | hd
    · exact ⟨le, hle, h1⟩
    · exact h2 d hd

theorem lt_lifeEndOf (hnd : order.Nodup) {p t : ℕ} {od : OpDef} (hfit : PositionsFit g order p od)
    (hp : p < order.length) (ht : t < order.length)
    (huse : t = p ∨ (∃ c ∈ liveConsumers g od, ∀ q, order[q]? = some c → t ≤ q) ∨
      liveConsumers g od = []) :
    t < lifeEndOf g order p od := by
  have hstart : (p + 1) % 2 ^ 32 = p + 1 := Nat.mod_eq_of_lt hfit.own
  unfold lifeEndOf
  simp only
  split
  · rename_i hnil
    rw [orderLen, Nat.mod_eq_of_lt (hfit.last (.inl hnil))]
    exact ht
  · rename_i hne
    rw [hstart]
    change t < (liveConsumers g od).foldl (useStep order) (p + 1)
    have hstep : p + 1 ≤ order.length := hp
    obtain ⟨hge, hcons⟩ := foldl_useStep_ge hnd (liveConsumers g od) hstep hfit.uses
      fun c hc hno => hfit.last (.inr ⟨c, hc, hno⟩)
    rcases huse with rfl | ⟨c, hc, hq⟩ | hnil
    · exact hge
    · obtain ⟨x, -, hx⟩ := hcons c hc
      refine lt_of_lt_of_le ?_ hx
      by_cases hmem : c ∈ order
      · obtain ⟨q, hqlt, hqc⟩ := List.getElem_of_mem hmem
        have hget : order[q]? = some c := List.getElem?_eq_some_iff.mpr ⟨hqlt, hqc⟩
        have := hq q hget
        rw [useStep_of_getElem hnd hget (hfit.uses c hc q hget)]
        omega
      · rw [useStep_of_notMem hmem (hfit.last (.inr ⟨c, hc, hmem⟩))]
        exact ht
    · exact absurd hnil hne

/-! ### The requests -/

/-- No position wraps that the interval of an output is made from. -/
def LifetimesFit (g : OpMap) (order : List ℕ) : Prop :=
  ∀ p id od, order[p]? = some id → g.getOpAt id = some od → eligible od = true →
    PositionsFit g order p od

theorem lifetimesFit_of_length (hlen : order.length < 2 ^ 32) : LifetimesFit g order := by
  intro p id od hp _ _
  obtain ⟨hlt, -⟩ := List.getElem?_eq_some_iff.mp hp
  refine ⟨by omega, fun c _ q hq => ?_, fun _ => hlen⟩
  obtain ⟨hqlt, -⟩ := List.getElem?_eq_some_iff.mp hq
  omega

theorem mem_requests {r : AllocRequest} (h : r ∈ requests g order) :
    ∃ p od, order[p]? = some r.opId ∧ g.getOpAt r.opId = some od ∧
      r.size = outputBytes od.outputDef ∧ r.lifeBegin = p % 2 ^ 32 ∧
      r.lifeEnd = lifeEndOf g order p od ∧ eligible od = true := by
  obtain ⟨⟨id, p⟩, hmem, hr⟩ := List.mem_filterMap.mp h
  have hget := List.mem_zipIdx_iff_getElem?.mp hmem
  unfold requestAt at hr
  split at hr
  · simp at hr
  · rename_i od hod
    split at hr
    · rw [← Option.some.inj hr]
      have hid := g.keyed _ _ hod
      simp only at hget hod hid ⊢
      exact ⟨p, od, by rw [hid]; exact hget, by rw [hid]; exact hod, rfl, rfl, rfl, ‹_›⟩
    · simp at hr

theorem liveAt_request (hnd : order.Nodup) (hlife : LifetimesFit g order) {r : AllocRequest}
    (hr : r ∈ requests g order) {t : ℕ} (h : LiveAt g order r.opId t) :
    r.lifeBegin ≤ t ∧ t < r.lifeEnd := by
  obtain ⟨p, od, hp, hod, -, hb, he, hel⟩ := mem_requests hr
  obtain ⟨p', od', hp', hod', hpt, htlen, huse⟩ := h
  obtain ⟨hplt, -⟩ := List.getElem?_eq_some_iff.mp hp'
  obtain rfl : p' = p := (List.getElem?_inj hplt hnd).mp (hp'.trans hp.symm)
  obtain rfl : od' = od := Option.some.inj (hod'.symm.trans hod)
  refine ⟨?_, ?_⟩
  · rw [hb]
    exact (Nat.mod_le _ _).trans hpt
  · rw [he]
    exact lt_lifeEndOf hnd (hlife p' _ _ hp hod hel) (by omega) htlen huse

theorem requests_map (g : OpMap) (order : List ℕ) :
    (requests g order).map (fun r => (r.opId, r.size)) = outputs g order := by
  unfold requests outputs
  rw [List.map_filterMap]
  conv_rhs => rw [← List.zipIdx_map_fst 0 order, List.filterMap_map]
  refine List.filterMap_congr fun e _ => ?_
  simp only [Function.comp, requestAt]
  cases hod : g.getOpAt e.1 with
  | none => rfl
  | some od =>
    have hid := g.keyed _ _ hod
    by_cases hel : eligible od = true
    · simp [hel, hid]
    · simp [hel]

/-! ### One pass of the allocator -/

theorem pass_of_stepsFit (hids : (reqs.map (·.opId)).Nodup) (hb : budget < 2 ^ 64)
    (hfits : StepsFit budget 128 reqs) :
    allocateWithLifetime reqs budget 128 = some (allocMap reqs budget 128) ∧
      Placement reqs budget (allocMap reqs budget 128) :=
  ⟨allocateWithLifetime_eq_allocMap hids hb hfits, allocMap_placement hids hb hfits⟩

theorem mem_placedEntries {allocs : ℕ → Option AllocResult} {v : Bool} {e : DdrTempEntry}
    (h : e ∈ placedEntries allocs v reqs) :
    ∃ r ∈ reqs, ∃ x, allocs r.opId = some x ∧ x.spilled = false ∧
      e = ⟨r.opId, x.offset, r.size, v⟩ := by
  obtain ⟨r, hr, he⟩ := List.mem_filterMap.mp h
  split at he
  · rename_i x hx
    split at he
    · simp at he
    · rename_i hs
      exact ⟨r, hr, x, hx, Bool.eq_false_iff.mpr hs, (Option.some.inj he).symm⟩
  · simp at he

theorem placed_unplaced_perm (allocs : ℕ → Option AllocResult) (v : Bool)
    (reqs : List AllocRequest) :
    ((placedEntries allocs v reqs).map (fun e => (e.opId, e.size)) ++
      (unplaced allocs reqs).map fun r => (r.opId, r.size)).Perm
      (reqs.map fun r => (r.opId, r.size)) := by
  induction reqs with
  | nil => simp [placedEntries, unplaced]
  | cons r reqs ih =>
    simp only [placedEntries, unplaced] at ih ⊢
    cases hr : allocs r.opId with
    | none => simpa [hr] using List.perm_middle.trans (ih.cons _)
    | some x =>
      cases hs : x.spilled with
      | true => simpa [hr, hs] using List.perm_middle.trans (ih.cons _)
      | false => simpa [hr, hs] using ih.cons (r.opId, r.size)

theorem placedEntries_spec (hnd : order.Nodup) (hlife : LifetimesFit g order)
    (hsub : reqs.Sublist (requests g order)) {allocs : ℕ → Option AllocResult}
    (h : Placement reqs budget allocs) (v : Bool) :
    (∀ e ∈ placedEntries allocs v reqs, e.inVtcm = v ∧ e.offset + e.size ≤ budget) ∧
      ∀ e ∈ placedEntries allocs v reqs, ∀ f ∈ placedEntries allocs v reqs, e.opId ≠ f.opId →
        (∃ t, LiveAt g order e.opId t ∧ LiveAt g order f.opId t) →
        e.offset + e.size ≤ f.offset ∨ f.offset + f.size ≤ e.offset := by
  constructor
  · intro e he
    obtain ⟨r, hr, x, hx, hxs, rfl⟩ := mem_placedEntries he
    exact ⟨rfl, h.inside r hr x hx hxs⟩
  · intro e he f hf hne hlive
    obtain ⟨r, hr, x, hx, hxs, rfl⟩ := mem_placedEntries he
    obtain ⟨s, hs, y, hy, hys, rfl⟩ := mem_placedEntries hf
    obtain ⟨t, hrt, hst⟩ := hlive
    obtain ⟨hr1, hr2⟩ := liveAt_request hnd hlife (hsub.subset hr) hrt
    obtain ⟨hs1, hs2⟩ := liveAt_request hnd hlife (hsub.subset hs) hst
    exact h.apart r hr s hs hne x y hx hy hxs hys (by omega) (by omega)

/-! ### Spills -/

/-- The offsets of the spills do not wrap. -/
def OffsetsFit : ℕ → List AllocRequest → Prop
  | _, [] => True
  | total, r :: rest => total < 2 ^ 64 ∧ OffsetsFit (total + r.size) rest

instance decidableOffsetsFit : (total : ℕ) → (l : List AllocRequest) → Decidable (OffsetsFit total l)
  | _, [] => .isTrue trivial
  | total, r :: rest =>
    have := decidableOffsetsFit (total + r.size) rest
    inferInstanceAs (Decidable (_ ∧ _))

/-- The spills in the order in which they get their offsets. -/
def spillOrder (l : List AllocRequest) : List AllocRequest :=
  l.insertionSort fun a b => a.opId ≤ b.opId

theorem bumpSpills_spec (total : ℕ) (l : List AllocRequest) (h : OffsetsFit total l) :
    (bumpSpills (total % 2 ^ 64) l).1.map (fun e => (e.opId, e.size)) =
        l.map (fun r => (r.opId, r.size)) ∧
      (∀ e ∈ (bumpSpills (total % 2 ^ 64) l).1, total ≤ e.offset) ∧
      (bumpSpills (total % 2 ^ 64) l).1.Pairwise fun e f =>
        e.offset + e.size ≤ f.offset ∨ f.offset + f.size ≤ e.offset := by
  induction l generalizing total with
  | nil => simp [bumpSpills]
  | cons r l ih =>
    obtain ⟨hlt, hrest⟩ := h
    obtain ⟨h1, h2, h3⟩ := ih (total + r.size) hrest
    simp only [bumpSpills, Nat.mod_eq_of_lt hlt]
    refine ⟨?_, ?_, List.pairwise_cons.mpr ⟨fun e he => .inl (h2 e he), h3⟩⟩
    · rw [List.map_cons, h1, List.map_cons]
    intro e he
    rcases List.mem_cons.mp he with rfl | he
    · exact le_rfl
    · have := h2 e he
      omega

theorem finalizeSpills_spec (h : OffsetsFit 0 (spillOrder l)) :
    ((finalizeSpills l).1.map fun e => (e.opId, e.size)).Perm
        (l.map fun r => (r.opId, r.size)) ∧
      (finalizeSpills l).1.Pairwise fun e f =>
        e.offset + e.size ≤ f.offset ∨ f.offset + f.size ≤ e.offset := by
  have hperm := List.perm_insertionSort (fun a b : AllocRequest => a.opId ≤ b.opId) l
  obtain ⟨h1, -, h3⟩ := bumpSpills_spec 0 (spillOrder l) h
  refine ⟨?_, h3⟩
  unfold finalizeSpills
  refine (List.Perm.of_eq h1).trans ?_
  exact hperm.map _

/-! ### The plan -/

theorem outputBytes_aligned (od : OutputDef) : outputBytes od % 128 = 0 :=
  Nat.mul_mod_left _ 128

theorem sizeSum_requests (g : OpMap) (order : List ℕ) :
    sizeSum (requests g order) = plannedBytes g order := by
  unfold sizeSum plannedBytes
  rw [← requests_map, List.map_map]
  rfl

theorem requests_nodup (hnd : order.Nodup) : ((requests g order).map (·.opId)).Nodup := by
  have hids : (requests g order).map (·.opId) = (outputs g order).map Prod.fst := by
    rw [← requests_map, List.map_map]
    rfl
  have hout : (outputs g order).map Prod.fst =
      order.filter fun id => ((g.getOpAt id).map eligible).getD false := by
    unfold outputs
    rw [List.map_filterMap, ← List.filterMap_eq_filter]
    refine List.filterMap_congr fun id _ => ?_
    cases hod : g.getOpAt id with
    | none => simp [Option.guard, hod]
    | some od => cases hel : eligible od <;> simp [Option.guard, hod, hel]
  rw [hids, hout]
  exact hnd.filter _

theorem totalSize_eq (reqs : List AllocRequest) : totalSize reqs = sizeSum reqs % 2 ^ 64 := by
  have hfold : ∀ (l : List AllocRequest) (t : ℕ),
      l.foldl (fun t r => (t + r.size) % 2 ^ 64) (t % 2 ^ 64) = (t + sizeSum l) % 2 ^ 64 := by
    intro l
    induction l with
    | nil => simp [sizeSum]
    | cons r l ih =>
      intro t
      have hs : sizeSum (r :: l) = r.size + sizeSum l := rfl
      rw [List.foldl_cons, Nat.mod_add_mod, ih, hs, Nat.add_assoc]
  simpa [totalSize] using hfold reqs 0

/-- The capacity of the DDR pool. SOURCE: ddr_offsets.cpp:80 -/
def ddrCap (reqs : List AllocRequest) (budget : ℕ) : ℕ :=
  if budget = 0 then totalSize reqs else budget

/-- What the VTCM pool leaves to the DDR pool. -/
def leftForDdr (reqs : List AllocRequest) (vtcmBudget : ℕ) : List AllocRequest :=
  if 0 < vtcmBudget then unplaced (allocMap reqs vtcmBudget 128) reqs else reqs

/-- The steps of both passes of the allocator meet its condition, and the offsets of the spills do
not wrap. -/
structure PassesFit (reqs : List AllocRequest) (budget vtcmBudget : ℕ) : Prop where
  vtcm : 0 < vtcmBudget → StepsFit vtcmBudget 128 reqs
  ddr : StepsFit (ddrCap reqs budget) 128 (leftForDdr reqs vtcmBudget)
  spills : OffsetsFit 0 (spillOrder (unplaced (allocMap (leftForDdr reqs vtcmBudget)
    (ddrCap reqs budget) 128) (leftForDdr reqs vtcmBudget)))

theorem passesFit_iff {vtcmBudget : ℕ} : PassesFit reqs budget vtcmBudget ↔
    (0 < vtcmBudget → StepsFit vtcmBudget 128 reqs) ∧
      StepsFit (ddrCap reqs budget) 128 (leftForDdr reqs vtcmBudget) ∧
      OffsetsFit 0 (spillOrder (unplaced (allocMap (leftForDdr reqs vtcmBudget)
        (ddrCap reqs budget) 128) (leftForDdr reqs vtcmBudget))) :=
  ⟨fun h => ⟨h.vtcm, h.ddr, h.spills⟩, fun h => ⟨h.1, h.2.1, h.2.2⟩⟩

instance (reqs : List AllocRequest) (budget vtcmBudget : ℕ) :
    Decidable (PassesFit reqs budget vtcmBudget) := decidable_of_iff' _ passesFit_iff

section Plan

variable (hnd : order.Nodup) (hlife : LifetimesFit g order)

include hnd hlife

theorem planDdr_spec (hids : (reqs.map (·.opId)).Nodup) (hsub : reqs.Sublist (requests g order))
    {vtcmBudget cap : ℕ} (hcap : cap < 2 ^ 64)
    (hcapeq : cap = if budget = 0 then plannedBytes g order % 2 ^ 64 else budget)
    (hfits : StepsFit cap 128 reqs)
    (hspills : OffsetsFit 0 (spillOrder (unplaced (allocMap reqs cap 128) reqs)))
    {resident : List DdrTempEntry}
    (hin : ∀ e ∈ resident, e.inVtcm = true ∧ e.offset + e.size ≤ vtcmBudget)
    (hapart : ∀ e ∈ resident, ∀ f ∈ resident, e.opId ≠ f.opId →
      (∃ t, LiveAt g order e.opId t ∧ LiveAt g order f.opId t) →
        e.offset + e.size ≤ f.offset ∨ f.offset + f.size ≤ e.offset)
    (honce : (resident.map (fun e => (e.opId, e.size)) ++
      reqs.map fun r => (r.opId, r.size)).Perm (outputs g order)) :
    ∃ plan, planDdr reqs cap vtcmBudget resident = .planned plan ∧
      PlanOk g order budget vtcmBudget plan := by
  obtain ⟨hrun, hplace⟩ := pass_of_stepsFit hids hcap hfits
  obtain ⟨hdin, hdapart⟩ := placedEntries_spec hnd hlife hsub hplace false
  have hspill := finalizeSpills_spec hspills
  refine ⟨_, by simp only [planDdr, hrun]; rfl, ⟨hcapeq, rfl⟩, ?_, ?_, ?_, hspill.2⟩
  · intro e he f hf hne hpool hlive
    rcases List.mem_append.mp he with he | he <;> rcases List.mem_append.mp hf with hf | hf
    · exact hapart e he f hf hne hlive
    · rw [(hin e he).1, (hdin f hf).1] at hpool
      exact absurd hpool (by simp)
    · rw [(hdin e he).1, (hin f hf).1] at hpool
      exact absurd hpool (by simp)
    · exact hdapart e he f hf hne hlive
  · intro e he
    rcases List.mem_append.mp he with he | he
    · rw [(hin e he).1]
      exact (hin e he).2
    · rw [(hdin e he).1]
      exact (hdin e he).2
  · rw [List.map_append, List.append_assoc]
    have hrest := (hspill.1.append_left _).trans (placed_unplaced_perm _ false reqs)
    exact (hrest.append_left _).trans honce

theorem planRequests_spec {vtcmBudget : ℕ} (hb : budget < 2 ^ 64) (hv : vtcmBudget < 2 ^ 64)
    (hfits : PassesFit (requests g order) budget vtcmBudget) :
    ∃ plan, planRequests (requests g order) budget vtcmBudget = .planned plan ∧
      PlanOk g order budget vtcmBudget plan := by
  obtain ⟨hvtcm, hddr, hspills⟩ := hfits
  have hids := requests_nodup (g := g) hnd
  have hcapeq : ddrCap (requests g order) budget =
      if budget = 0 then plannedBytes g order % 2 ^ 64 else budget := by
    rw [ddrCap, totalSize_eq, sizeSum_requests]
  have hcap : ddrCap (requests g order) budget < 2 ^ 64 := by
    rw [hcapeq]
    split
    · exact Nat.mod_lt _ (by decide)
    · exact hb
  unfold planRequests
  simp only
  change ∃ plan, (if 0 < vtcmBudget then _ else
    planDdr (requests g order) (ddrCap (requests g order) budget) vtcmBudget []) = _ ∧ _
  unfold leftForDdr at hddr hspills
  split at hddr
  · rename_i hpos
    rw [if_pos hpos] at hspills
    obtain ⟨hrun, hplace⟩ := pass_of_stepsFit hids hv (hvtcm hpos)
    obtain ⟨hin, hapart⟩ := placedEntries_spec hnd hlife (List.Sublist.refl _) hplace true
    have hsub : (unplaced (allocMap (requests g order) vtcmBudget 128) (requests g order)).Sublist
        (requests g order) := List.filter_sublist
    rw [if_pos hpos, hrun]
    refine planDdr_spec hnd hlife (hids.sublist (hsub.map _)) hsub hcap hcapeq hddr hspills hin
      hapart ?_
    rw [← requests_map]
    exact placed_unplaced_perm _ true _
  · rename_i hzero
    rw [if_neg hzero] at hspills ⊢
    refine planDdr_spec hnd hlife hids (List.Sublist.refl _) hcap hcapeq hddr hspills (by simp)
      (by simp) ?_
    rw [← requests_map]
    simp

end Plan

/-- For every graph and every execution order without repetitions: if no position wraps that an
interval is made from, the steps of both passes of the allocator meet its condition and the offsets
of the spills do not wrap, the planning pass returns a correct plan, whatever the two capacities are.
SOURCE: ddr_offsets.cpp:23-147 -/
theorem computeDdrOffsets_ok (g : OpMap) (planOrder ordering : List ℕ) (budget vtcmBudget : ℕ)
    (hnd : (execOrder planOrder ordering).Nodup) (hne : execOrder planOrder ordering ≠ [])
    (hb : budget < 2 ^ 64) (hv : vtcmBudget < 2 ^ 64)
    (hlife : LifetimesFit g (execOrder planOrder ordering))
    (hfits : PassesFit (requests g (execOrder planOrder ordering)) budget vtcmBudget) :
    ∃ plan, computeDdrOffsets g planOrder ordering budget vtcmBudget = .planned plan ∧
      PlanOk g (execOrder planOrder ordering) budget vtcmBudget plan := by
  unfold computeDdrOffsets
  simp only [if_neg hne]
  exact planRequests_spec hnd hlife hb hv hfits

/-! ### Sizes that add up to less than 2^64 -/

/-- Requests with sizes in whole alignment units. -/
def Aligned (l : List AllocRequest) : Prop := ∀ r ∈ l, r.size % 128 = 0

theorem roundedSum_aligned (h : Aligned l) : roundedSum 128 l = sizeSum l := by
  unfold roundedSum sizeSum
  congr 1
  exact List.map_congr_left fun r hr => if_pos (h r hr)

theorem sizeSum_aligned (h : Aligned l) : sizeSum l % 128 = 0 := by
  induction l with
  | nil => rfl
  | cons r l ih =>
    have h1 := h r (by simp)
    have h2 := ih fun x hx => h x (by simp [hx])
    simp only [sizeSum, List.map_cons, List.sum_cons] at h2 ⊢
    omega

theorem sizeSum_append (l m : List AllocRequest) : sizeSum (l ++ m) = sizeSum l + sizeSum m := by
  simp [sizeSum]

theorem sizeSum_sublist (h : l.Sublist reqs) : sizeSum l ≤ sizeSum reqs :=
  (h.map _).sum_le_sum (by simp)

theorem highWater_bump_le (need lifeEnd : ℕ) (ar : Arena) :
    (bump budget need lifeEnd ar).2.highWater ≤ ar.highWater + need := by
  unfold bump
  split
  · exact Nat.le_add_right _ _
  · exact Nat.mod_le _ _

theorem highWater_placeGroup_le (a : ℕ) (ar : Arena) (gr : Model.FancyAllocator.Group) :
    (placeGroup budget a ar gr).2.highWater ≤ ar.highWater + needOf a gr := by
  unfold placeGroup
  simp only
  split
  · split
    · exact Nat.le_add_right _ _
    · exact highWater_bump_le _ _ _
  · exact highWater_bump_le _ _ _

theorem runFits_of_sum {gs : List Model.FancyAllocator.Group} {ar : Arena}
    (hok : ∀ gr ∈ gs, GroupOk gr) (hal : Aligned (gs.flatMap (·.members)))
    (hsum : ar.highWater + sizeSum (gs.flatMap (·.members)) < 2 ^ 64) :
    RunFits budget 128 ar gs := by
  induction gs generalizing ar with
  | nil => trivial
  | cons gr gs ih =>
    rw [List.flatMap_cons, sizeSum_append] at hsum
    have halg : Aligned gr.members := fun r hr => hal r (List.mem_append_left _ hr)
    have hneed : needOf 128 gr = sizeSum gr.members := by
      rw [needOf, (hok gr (by simp)).total, Nat.mod_eq_of_lt (by omega), alignUp_eq_roundUp]
      · exact if_pos (sizeSum_aligned halg)
      · rw [roundUp, if_pos (sizeSum_aligned halg)]
        omega
    have hle := @highWater_placeGroup_le budget 128 ar gr
    refine ⟨⟨fun _ => ?_, fun _ _ => by omega⟩, ?_⟩
    · rw [roundedSum_aligned halg, hneed]
    · exact ih (fun x hx => hok x (by simp [hx])) (fun r hr => hal r (List.mem_append_right _ hr))
        (by omega)

theorem stepsFit_of_sum (hal : Aligned reqs) (hsum : sizeSum reqs < 2 ^ 64) :
    StepsFit budget 128 reqs := by
  obtain ⟨hok, -, hflat⟩ := groupsOf_spec reqs
  have hperm := sortRequests_perm reqs
  have hsub : ((groupsOf (sortRequests reqs)).flatMap (·.members)).Sublist (sortRequests reqs) := by
    rw [hflat]
    exact List.filter_sublist
  apply runFits_of_sum hok
  · exact fun r hr => hal r (hperm.mem_iff.mp (hsub.subset hr))
  · have hle := sizeSum_sublist hsub
    have heq : sizeSum (sortRequests reqs) = sizeSum reqs := (hperm.map _).sum_eq
    simp only
    omega

theorem offsetsFit_of_sum {total : ℕ} (h : total + sizeSum l < 2 ^ 64) : OffsetsFit total l := by
  induction l generalizing total with
  | nil => trivial
  | cons r l ih =>
    have hs : sizeSum (r :: l) = r.size + sizeSum l := rfl
    exact ⟨by omega, ih (by omega)⟩

/-- A plan for outputs that take less than `2 ^ 64` bytes together. -/
theorem planRequests_ok {vtcmBudget : ℕ} (hnd : order.Nodup) (hb : budget < 2 ^ 64)
    (hv : vtcmBudget < 2 ^ 64) (hlen : order.length < 2 ^ 32)
    (hsum : plannedBytes g order < 2 ^ 64) :
    ∃ plan, planRequests (requests g order) budget vtcmBudget = .planned plan ∧
      PlanOk g order budget vtcmBudget plan := by
  have hal : Aligned (requests g order) := by
    intro r hr
    obtain ⟨p, od, -, -, hsize, -⟩ := mem_requests hr
    rw [hsize]
    exact outputBytes_aligned _
  rw [← sizeSum_requests] at hsum
  have hleft : (leftForDdr (requests g order) vtcmBudget).Sublist (requests g order) := by
    unfold leftForDdr
    split
    · exact List.filter_sublist
    · exact List.Sublist.refl _
  have hle := sizeSum_sublist hleft
  refine planRequests_spec hnd (lifetimesFit_of_length hlen) hb hv
    ⟨fun _ => stepsFit_of_sum hal hsum,
      stepsFit_of_sum (fun r hr => hal r (hleft.subset hr)) (by omega), offsetsFit_of_sum ?_⟩
  have hperm := List.perm_insertionSort (fun a b : AllocRequest => a.opId ≤ b.opId)
    (unplaced (allocMap (leftForDdr (requests g order) vtcmBudget)
      (ddrCap (requests g order) budget) 128) (leftForDdr (requests g order) vtcmBudget))
  have heq := (hperm.map (·.size)).sum_eq
  have hspilled := sizeSum_sublist (l := unplaced (allocMap (leftForDdr (requests g order) vtcmBudget)
    (ddrCap (requests g order) budget) 128) (leftForDdr (requests g order) vtcmBudget))
    List.filter_sublist
  unfold spillOrder
  simp only [sizeSum] at *
  omega

/-- An operator with a one-dimensional output of `elems` four-byte elements. -/
def vectorOp (id elems : ℕ) (consumers : List ℕ) : OpDef :=
  ⟨id, 1, some "Relu", OutputDef.vector elems 0 4 0, [], consumers, [], []⟩

/-- A chain of three operators; the VTCM pool has room for one output. -/
def chain : OpMap := OpMap.ofList [vectorOp 7 32 [8], vectorOp 8 64 [9], vectorOp 9 10 []]

/-- Two outputs of `2 ^ 63` bytes after a small one: both are spilled, and nothing wraps. -/
def heavyChain : OpMap :=
  OpMap.ofList [vectorOp 7 32 [8], vectorOp 8 (2 ^ 61) [9], vectorOp 9 (2 ^ 61) []]

/-- Both chains get a correct plan: one that uses both pools, and one whose large outputs, of
`2 ^ 64` bytes together, fit in neither. -/
theorem chain_planned :
    (∃ plan, computeDdrOffsets chain [7, 8, 9] [] 256 128 = .planned plan ∧
      PlanOk chain [7, 8, 9] 256 128 plan) ∧
    ∃ plan, computeDdrOffsets heavyChain [7, 8, 9] [] 1024 128 = .planned plan ∧
      PlanOk heavyChain [7, 8, 9] 1024 128 plan :=
  ⟨computeDdrOffsets_ok chain [7, 8, 9] [] 256 128 (by decide) (by decide) (by decide) (by decide)
      (lifetimesFit_of_length (by decide)) (by decide +kernel),
    computeDdrOffsets_ok heavyChain [7, 8, 9] [] 1024 128 (by decide) (by decide) (by decide)
      (by decide) (lifetimesFit_of_length (by decide)) (by decide +kernel)⟩

/-- An output of 128 bytes and one of `2 ^ 64 - 128` bytes. -/
def wrapping : OpMap := OpMap.ofList [vectorOp 1 32 [2], vectorOp 2 (2 ^ 62 - 32) []]

/-- The end of the second output wraps to 0, which is below the capacity. -/
theorem wrapping_outside_pool :
    [1, 2].Nodup ∧ plannedBytes wrapping [1, 2] = 2 ^ 64 ∧
      computeDdrOffsets wrapping [1, 2] [] 1024 0 =
        .planned ⟨[⟨1, 0, 128, false⟩, ⟨2, 128, 2 ^ 64 - 128, false⟩], 1024, 0, [], 0⟩ ∧
      ¬ ∃ plan, computeDdrOffsets wrapping [1, 2] [] 1024 0 = .planned plan ∧
        PlanOk wrapping [1, 2] 1024 0 plan := by
  have hrun : computeDdrOffsets wrapping [1, 2] [] 1024 0 =
      .planned ⟨[⟨1, 0, 128, false⟩, ⟨2, 128, 2 ^ 64 - 128, false⟩], 1024, 0, [], 0⟩ := by
    decide +kernel
  refine ⟨by decide, by decide +kernel, hrun, ?_⟩
  rintro ⟨plan, hplan, hok⟩
  rw [hrun] at hplan
  obtain rfl := PlanOutcome.planned.inj hplan
  have := hok.inside ⟨2, 128, 2 ^ 64 - 128, false⟩ (by simp)
  simp at this

end Gehtp.Analysis.DdrOffsetsSafe
