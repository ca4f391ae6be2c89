import Gehtp.Model.PlanOrder

/-!
# When the final order is topological

The sweep records an edge only if the producer stands before the consumer in the
plan order: the edge to a producer that comes later is lost, and nothing keeps the
two in order. All recorded edges are respected, and the result is a permutation of
the plan order in any case. So the pass keeps an order that is topological already,
and the fallback of the emitter, which runs only on other orders, gives no guarantee.
-/

set_option autoImplicit false

namespace Gehtp.Analysis.PlanOrderTopo

open Lib Model.OpGraph Model.PlanOrder

/-- Every operator of the list stands after those of its producers that are in the
list. -/
def InOrder (g : OpMap) (l : List ℕ) : Prop :=
  ∀ pre id post od, l = pre ++ id :: post → g.getOpAt id = some od →
    ∀ c ∈ od.inputs, c.srcId ∈ l → c.srcId ∈ pre

/-- No operator of the list reads an id of the list that has no operator. -/
def ReadsDefined (g : OpMap) (l : List ℕ) : Prop :=
  ∀ id ∈ l, ∀ od, g.getOpAt id = some od → ∀ c ∈ od.inputs, c.srcId ∈ l →
    (g.getOpAt c.srcId).isSome = true

/-! ### The sweep -/

/-- The number of recorded edges into `v`. -/
def edgesInto (sw : Sweep) (v : ℕ) : ℕ := (sw.seen.map fun u => (sw.succ u).count v).sum

theorem sum_map_update {l : List ℕ} (hl : l.Nodup) {s : ℕ} (hs : s ∈ l) (f : ℕ → ℕ) (k : ℕ) :
    (l.map (Function.update f s (f s + k))).sum = (l.map f).sum + k := by
  induction l with
  | nil => simp at hs
  | cons a l ih =>
    rw [List.nodup_cons] at hl
    rcases List.mem_cons.mp hs with rfl | hs
    · have hsame : l.map (Function.update f s (f s + k)) = l.map f :=
        List.map_congr_left fun x hx => Function.update_of_ne (fun he : x = s => hl.1 (he ▸ hx)) _ _
      rw [List.map_cons, List.sum_cons, hsame, Function.update_self, List.map_cons, List.sum_cons]
      omega
    · have hne : a ≠ s := fun he => hl.1 (he ▸ hs)
      rw [List.map_cons, List.sum_cons, ih hl.2 hs, Function.update_of_ne hne, List.map_cons,
        List.sum_cons]
      omega

/-- What holds while the inputs of `id` are counted. -/
structure Counting (sw : Sweep) : Prop where
  nodup : sw.seen.Nodup
  sources : ∀ u, sw.succ u ≠ [] → u ∈ sw.seen
  inSeen : ∀ u, ∀ v ∈ sw.succ u, v ∈ sw.seen
  counts : ∀ v, sw.indeg v = edgesInto sw v

variable {sw : Sweep} {id : ℕ} {g : OpMap} {order : List ℕ}

theorem countInput_counting (h : Counting sw) (hid : id ∈ sw.seen) (c : InputConn) :
    Counting (countInput id sw c) := by
  unfold countInput
  by_cases hc : c.srcId ∈ sw.seen
  · rw [if_pos hc]
    refine ⟨h.nodup, fun u hne => ?_, fun u v hv => ?_, fun v => ?_⟩
    · by_cases hu : u = c.srcId
      · rw [hu]
        exact hc
      · simp only [Function.update_of_ne hu] at hne
        exact h.sources u hne
    · by_cases hu : u = c.srcId
      · simp only [hu, Function.update_self, List.mem_append, List.mem_singleton] at hv
        rcases hv with hv | rfl
        · exact h.inSeen c.srcId v hv
        · exact hid
      · simp only [Function.update_of_ne hu] at hv
        exact h.inSeen u v hv
    · -- the new edge counts once, for `id`
      have hsum : (fun u => (Function.update sw.succ c.srcId (sw.succ c.srcId ++ [id]) u).count v) =
          Function.update (fun u => (sw.succ u).count v) c.srcId
            ((sw.succ c.srcId).count v + if id = v then 1 else 0) := by
        funext u
        by_cases hu : u = c.srcId
        · simp [hu, List.count_append, List.count_singleton]
        · simp [Function.update_of_ne hu]
      show Function.update sw.indeg id (sw.indeg id + 1) v = (sw.seen.map fun u =>
        (Function.update sw.succ c.srcId (sw.succ c.srcId ++ [id]) u).count v).sum
      rw [hsum, sum_map_update h.nodup hc]
      have hv := h.counts v
      unfold edgesInto at hv
      rw [← hv]
      by_cases hvid : v = id
      · simp [hvid]
      · simp [Function.update_of_ne hvid, Ne.symm hvid]
  · rw [if_neg hc]
    exact h

/-- The loop over the inputs of `id`: nothing but edges to `id` is added, and every
input from a swept operator becomes an edge. -/
theorem foldl_countInput (id : ℕ) (l : List InputConn) (h : Counting sw) (hid : id ∈ sw.seen) :
    Counting (l.foldl (countInput id) sw) ∧ (l.foldl (countInput id) sw).seen = sw.seen ∧
      (l.foldl (countInput id) sw).orphans = sw.orphans ∧
      (∀ u, ∀ v ∈ sw.succ u, v ∈ (l.foldl (countInput id) sw).succ u) ∧
      ∀ c ∈ l, c.srcId ∈ sw.seen → id ∈ (l.foldl (countInput id) sw).succ c.srcId := by
  induction l generalizing sw with
  | nil => exact ⟨h, rfl, rfl, fun _ _ hv => hv, by simp⟩
  | cons c l ih =>
    have hseen : (countInput id sw c).seen = sw.seen := by
      unfold countInput
      split <;> rfl
    have horph : (countInput id sw c).orphans = sw.orphans := by
      unfold countInput
      split <;> rfl
    have hgrow : ∀ u, ∀ v ∈ sw.succ u, v ∈ (countInput id sw c).succ u := by
      intro u v hv
      unfold countInput
      split
      · by_cases hu : u = c.srcId
        · simp only [hu, Function.update_self, List.mem_append]
          exact .inl (hu ▸ hv)
        · simpa only [Function.update_of_ne hu] using hv
      · exact hv
    have hedge : c.srcId ∈ sw.seen → id ∈ (countInput id sw c).succ c.srcId := by
      intro hc
      simp [countInput, hc]
    obtain ⟨h1, h2, h3, h4, h5⟩ := ih (countInput_counting h hid c) (by rw [hseen]; exact hid)
    rw [hseen] at h2 h5
    rw [horph] at h3
    refine ⟨h1, h2, h3, fun u v hv => h4 u v (hgrow u v hv), fun d hd hin => ?_⟩
    rcases List.mem_cons.mp hd with rfl | hd
    · exact h4 _ _ (hedge hin)
    · exact h5 d hd hin

/-- What the sweep knows after the ids `swept`. -/
structure SweepInv (g : OpMap) (swept : List ℕ) (sw : Sweep) : Prop extends Counting sw where
  perm : (sw.seen ++ sw.orphans).Perm swept
  defined : ∀ id ∈ sw.seen, (g.getOpAt id).isSome = true
  undefined : ∀ id ∈ sw.orphans, g.getOpAt id = none
  recorded : ∀ pre id post od, swept = pre ++ id :: post → g.getOpAt id = some od →
    ∀ c ∈ od.inputs, c.srcId ∈ pre → (g.getOpAt c.srcId).isSome = true → id ∈ sw.succ c.srcId

theorem mem_seen {swept : List ℕ} (h : SweepInv g swept sw) (hid : id ∈ swept)
    (hdef : (g.getOpAt id).isSome = true) : id ∈ sw.seen := by
  rcases List.mem_append.mp (h.perm.mem_iff.mpr hid) with hs | ho
  · exact hs
  · rw [h.undefined id ho] at hdef
    simp at hdef

theorem counting_insert (h : Counting sw) (hid : id ∉ sw.seen) :
    Counting { sw with seen := sw.seen ++ [id], indeg := Function.update sw.indeg id 0 } where
  nodup := by
    rw [List.nodup_append]
    refine ⟨h.nodup, by simp, ?_⟩
    intro a ha b hb
    rw [List.mem_singleton.mp hb]
    exact fun he => hid (he ▸ ha)
  sources := fun u hne => List.mem_append_left _ (h.sources u hne)
  inSeen := fun u v hv => List.mem_append_left _ (h.inSeen u v hv)
  counts := by
    intro v
    have hnone : sw.succ id = [] := by
      by_contra hne
      exact hid (h.sources id hne)
    have hv := h.counts v
    unfold edgesInto at hv ⊢
    simp only [List.map_append, List.sum_append, List.map_cons, List.map_nil, List.sum_cons,
      List.sum_nil, hnone, List.count_nil]
    by_cases hvid : v = id
    · rw [hvid, Function.update_self]
      have hzero : ∀ u ∈ sw.seen, (sw.succ u).count id = 0 := fun u _ =>
        List.count_eq_zero.mpr fun hmem => hid (h.inSeen u id hmem)
      rw [List.map_congr_left hzero]
      simp
    · rw [Function.update_of_ne hvid, hv]
      omega

theorem sweepOp_inv {swept : List ℕ} (h : SweepInv g swept sw) (hnew : id ∉ swept) :
    SweepInv g (swept ++ [id]) (sweepOp g sw id) := by
  have hid : id ∉ sw.seen := fun hs => hnew (h.perm.mem_iff.mp (List.mem_append_left _ hs))
  unfold sweepOp
  cases hod : g.getOpAt id with
  | none =>
    refine ⟨⟨h.nodup, h.sources, h.inSeen, h.counts⟩, ?_, h.defined, ?_, ?_⟩
    · rw [← List.append_assoc]
      exact h.perm.append_right _
    · intro x hx
      rcases List.mem_append.mp hx with hx | hx
      · exact h.undefined x hx
      · rw [List.mem_singleton.mp hx]
        exact hod
    · intro pre x post od heq hxd c hc hpre hdef
      rcases Kahn.concat_eq_append_cons heq with ⟨rfl, -⟩ | ⟨post', hsw⟩
      · rw [hod] at hxd
        simp at hxd
      · exact h.recorded pre x post' od hsw hxd c hc hpre hdef
  | some od =>
    simp only [if_neg hid]
    obtain ⟨h1, h2, h3, h4, h5⟩ := foldl_countInput id od.inputs
      (counting_insert h.toCounting hid) (by simp)
    refine ⟨h1, ?_, ?_, ?_, ?_⟩
    · rw [h2, h3]
      have hmove : (sw.seen ++ [id] ++ sw.orphans).Perm ((sw.seen ++ sw.orphans) ++ [id]) := by
        rw [List.append_assoc, List.append_assoc]
        exact List.perm_append_comm.append_left _
      exact hmove.trans (h.perm.append_right _)
    · intro x hx
      rw [h2] at hx
      rcases List.mem_append.mp hx with hx | hx
      · exact h.defined x hx
      · rw [List.mem_singleton.mp hx, hod]
        rfl
    · intro x hx
      rw [h3] at hx
      exact h.undefined x hx
    · intro pre x post od' heq hxd c hc hpre hdef
      rcases Kahn.concat_eq_append_cons heq with ⟨rfl, rfl⟩ | ⟨post', hsw⟩
      · obtain rfl : od = od' := by
          rw [hod] at hxd
          exact Option.some.inj hxd
        exact h5 c hc (List.mem_append_left _ (mem_seen h hpre hdef))
      · exact h4 _ _ (h.recorded pre x post' od' hsw hxd c hc hpre hdef)

theorem sweep_inv (g : OpMap) (hnd : order.Nodup) : SweepInv g order (sweep g order) := by
  have hfold : ∀ (rest swept : List ℕ) (sw : Sweep), (swept ++ rest).Nodup →
      SweepInv g swept sw → SweepInv g (swept ++ rest) (rest.foldl (sweepOp g) sw) := by
    intro rest
    induction rest with
    | nil =>
      intro swept sw _ h
      rw [List.append_nil]
      exact h
    | cons id rest ih =>
      intro swept sw hnd h
      have hmove : swept ++ id :: rest = (swept ++ [id]) ++ rest := by simp
      have hnew : id ∉ swept := by
        intro hmem
        have := List.nodup_append.mp hnd
        exact this.2.2 id hmem id (by simp) rfl
      rw [hmove] at hnd ⊢
      exact ih (swept ++ [id]) (sweepOp g sw id) hnd (sweepOp_inv h hnew)
  have hstart : SweepInv g [] ⟨[], fun _ => 0, fun _ => [], []⟩ :=
    ⟨⟨by simp, by simp, by simp, by simp [edgesInto]⟩, by simp, by simp, by simp, by simp⟩
  exact hfold order [] _ hnd hstart

/-! ### The loop -/

theorem kahn_start (h : Counting sw) :
    Kahn.Inv sw.seen sw.succ ⟨(readyOps sw).reverse, sw.indeg, []⟩ := by
  have hperm := List.perm_insertionSort (· ≤ ·) (sw.seen.filter fun id => decide (sw.indeg id = 0))
  have hmem : ∀ v ∈ (readyOps sw).reverse ++ [], v ∈ sw.seen ∧ sw.indeg v = 0 := by
    intro v hv
    rw [List.append_nil, List.mem_reverse] at hv
    have := List.mem_filter.mp (hperm.mem_iff.mp hv)
    exact ⟨this.1, by simpa using this.2⟩
  refine ⟨?_, fun v hv => (hmem v hv).1, fun v => ?_, fun v hv => (hmem v hv).2,
    Kahn.precededBy_nil _⟩
  · rw [List.append_nil, List.nodup_reverse]
    exact hperm.nodup_iff.mpr (h.nodup.filter _)
  · simp only [Kahn.pending, List.not_mem_nil, not_false_eq_true, decide_true, List.filter_true]
    exact h.counts v

theorem kahnOrder_perm (g : OpMap) (hnd : order.Nodup) : (kahnOrder g order).Perm order := by
  have h := sweep_inv g hnd
  have hinv := Kahn.drain_inv h.nodup h.inSeen order.length (kahn_start h.toCounting)
  unfold kahnOrder
  simp only
  split
  · rename_i hlen
    refine List.Perm.trans ?_ h.perm
    apply List.Perm.append_right
    have hsub : (kahn (sweep g order) order.length).done ⊆ (sweep g order).seen :=
      fun v hv => hinv.inNodes v (List.mem_append_right _ hv)
    have hdone : (kahn (sweep g order) order.length).done.Nodup :=
      (List.nodup_append.mp hinv.nodup).2.1
    apply (List.subperm_of_subset hdone hsub).perm_of_length_le
    have hall := h.perm.length_eq
    rw [List.length_append] at hlen hall
    omega
  · exact List.Perm.refl _

theorem kahnOrder_inOrder (hnd : order.Nodup) (hsorted : InOrder g order)
    (hreads : ReadsDefined g order) : InOrder g (kahnOrder g order) := by
  have h := sweep_inv g hnd
  have hinv := Kahn.drain_inv h.nodup h.inSeen order.length (kahn_start h.toCounting)
  have hperm := kahnOrder_perm g hnd
  intro pre id post od heq hod c hc hmem
  have hidorder : id ∈ order := by
    rw [← hperm.mem_iff, heq]
    simp
  have hcorder : c.srcId ∈ order := hperm.mem_iff.mp hmem
  have hdef := hreads id hidorder od hod c hc hcorder
  -- the edge was recorded, because the producer stands before the consumer
  obtain ⟨pre0, post0, horder⟩ := List.append_of_mem hidorder
  have hpre0 := hsorted pre0 id post0 od horder hod c hc hcorder
  have hedge : id ∈ (sweep g order).succ c.srcId :=
    h.recorded pre0 id post0 od horder hod c hc hpre0 hdef
  unfold kahnOrder at heq
  simp only at heq
  split at heq
  · -- an operator stands among the finished ones, not among the orphans
    rcases List.append_eq_append_iff.mp heq with ⟨mid, rfl, hmid⟩ | ⟨mid, hdone, hpost⟩
    · have hor : id ∈ (sweep g order).orphans := by
        rw [hmid]
        simp
      rw [h.undefined id hor] at hod
      simp at hod
    · cases mid with
      | nil =>
        have hor : id ∈ (sweep g order).orphans := by
          have : id :: post = (sweep g order).orphans := by simpa using hpost
          rw [← this]
          simp
        rw [h.undefined id hor] at hod
        simp at hod
      | cons x mid =>
        obtain rfl : id = x := by
          have := List.cons.inj hpost
          exact this.1
        exact hinv.ordered pre id mid hdone c.srcId ⟨mem_seen h hcorder hdef, hedge⟩
  · exact hsorted pre id post od heq hod c hc hcorder

/-! ### The emitter -/

theorem placeOf_of_getElem (hnd : order.Nodup) {q : ℕ} (h : order[q]? = some id) :
    placeOf order id = some q := by
  unfold placeOf
  apply store_of_mem
  · rw [List.zipIdx_map_fst]
    exact hnd
  · exact List.mem_zipIdx_iff_getElem?.mpr h

theorem violated_eq_false (hnd : order.Nodup) (hsorted : InOrder g order) :
    violated g order = false := by
  rw [violated, List.any_eq_false]
  intro id hid
  cases hod : g.getOpAt id with
  | none => simp
  | some od =>
    simp only [Bool.not_eq_true, List.any_eq_false]
    intro c hc
    obtain ⟨pre, post, horder⟩ := List.append_of_mem hid
    have hplace : placeOf order id = some pre.length :=
      placeOf_of_getElem hnd (by rw [horder]; simp)
    unfold inputLater
    rw [hplace]
    by_cases hmem : c.srcId ∈ order
    · have hpre := hsorted pre id post od horder hod c hc hmem
      obtain ⟨p, hp, hpc⟩ := List.getElem_of_mem hpre
      have hget : order[p]? = some c.srcId := by
        rw [horder, List.getElem?_append_left hp, List.getElem?_eq_getElem hp, hpc]
      rw [placeOf_of_getElem hnd hget]
      have : ¬ pre.length < p := by omega
      simp [this]
    · have hnone : placeOf order c.srcId = none := by
        unfold placeOf
        rw [store_of_notMem]
        rw [List.zipIdx_map_fst]
        exact hmem
      rw [hnone]

/-- For every graph and every plan order without repetitions, the final order of the
preparation and the one of the emitter are permutations of the plan order; if the plan
order lists every operator after its producers, and no operator reads a listed id that
has no operator, so do both. SOURCE: graph_prepare.cpp:614-643, wtop_emit.cpp:431-481 -/
theorem planOrder_topological (g : OpMap) (order : List ℕ) (hnd : order.Nodup) :
    ((finalizeOrder g order).Perm order ∧ (emitOrder g order).Perm order) ∧
      (InOrder g order → ReadsDefined g order →
        InOrder g (finalizeOrder g order) ∧ InOrder g (emitOrder g order)) := by
  refine ⟨⟨?_, ?_⟩, fun hsorted hreads => ⟨?_, ?_⟩⟩
  · unfold finalizeOrder
    split
    · exact List.Perm.refl _
    · exact kahnOrder_perm g hnd
  · unfold emitOrder
    split
    · exact kahnOrder_perm g hnd
    · exact List.Perm.refl _
  · unfold finalizeOrder
    split
    · exact hsorted
    · exact kahnOrder_inOrder hnd hsorted hreads
  · unfold emitOrder
    rw [violated_eq_false hnd hsorted]
    exact hsorted

/-- An operator that reads the outputs of `srcs`. -/
def opReading (id : ℕ) (srcs : List ℕ) : OpDef :=
  ⟨id, 1, some "Add", OutputDef.vector 1 0 4 0,
    srcs.map fun s => ⟨s, 0⟩, [], [], []⟩

/-- Operator 2 reads operator 1; id 7 has no operator. -/
def pair : OpMap := OpMap.ofList [opReading 1 [], opReading 2 [1]]

/-- An operator and its reader, with an id of no operator between them. -/
theorem pair_topological :
    InOrder pair (finalizeOrder pair [1, 7, 2]) ∧ InOrder pair (emitOrder pair [1, 7, 2]) := by
  refine (planOrder_topological pair [1, 7, 2] (by decide)).2 ?_ ?_
  · intro pre id post od heq hod c hc _
    rcases pre with _ | ⟨a, _ | ⟨b, pre⟩⟩
    · obtain rfl : 1 = id := (List.cons.inj heq).1
      obtain rfl : opReading 1 [] = od := Option.some.inj hod
      simp [opReading] at hc
    · obtain rfl : 7 = id := (List.cons.inj (List.cons.inj heq).2).1
      simp [pair, OpMap.ofList, opReading] at hod
    · obtain ⟨rfl, rfl⟩ : 1 = a ∧ 7 = b :=
        ⟨(List.cons.inj heq).1, (List.cons.inj (List.cons.inj heq).2).1⟩
      obtain rfl : 2 = id := by
        cases pre with
        | nil => exact (List.cons.inj (List.cons.inj (List.cons.inj heq).2).2).1
        | cons x pre => simp at heq
      obtain rfl : opReading 2 [1] = od := Option.some.inj hod
      simp only [opReading, List.map_cons, List.map_nil, List.mem_singleton] at hc
      simp [hc]
  · intro id _ od hod c hc _
    have hsrc : c.srcId = 1 := by
      have hmem := List.mem_of_find?_eq_some hod
      simp only [List.mem_cons, List.not_mem_nil, or_false] at hmem
      rcases hmem with rfl | rfl <;> simp_all [opReading]
    rw [hsrc]
    rfl

/-- The producer stands last, so the sweep does not see the edge; both operators are
ready, and the larger id is on top of the stack. -/
theorem pair_reversed :
    [2, 1].Nodup ∧ finalizeOrder pair [2, 1] = [2, 1] ∧ emitOrder pair [2, 1] = [2, 1] ∧
      ¬ InOrder pair (finalizeOrder pair [2, 1]) ∧ ¬ InOrder pair (emitOrder pair [2, 1]) := by
  have hfinal : finalizeOrder pair [2, 1] = [2, 1] := by decide
  have hemit : emitOrder pair [2, 1] = [2, 1] := by decide
  have hbad : ¬ InOrder pair [2, 1] := by
    intro h
    have := h [] 2 [1] (opReading 2 [1]) rfl rfl ⟨1, 0⟩ (by decide) (by decide)
    simp at this
  refine ⟨by decide, hfinal, hemit, ?_, ?_⟩
  · rw [hfinal]
    exact hbad
  · rw [hemit]
    exact hbad

end Gehtp.Analysis.PlanOrderTopo
