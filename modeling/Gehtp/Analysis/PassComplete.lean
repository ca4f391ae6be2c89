import Gehtp.Analysis.PassPhase

/-!
# When a phase leaves no match

A rewriting puts the operators back that it read from and that read it, but not the rewritten
operator, and not the other readers of its source. A rewritten operator that matches again, or a
reader that becomes the only one of its source, is missed. When no rewriting of the run makes such
a match, no live operator matches at the end.
-/

set_option autoImplicit false

namespace Gehtp.Analysis.PassComplete

open Lib Model.OpGraph Model.Cse Model.PassManager Analysis.PassRewrites Analysis.PassPhase

/-- Every live reader of an operator is listed with it. -/
def Listed (g : PassGraph) : Prop :=
  ∀ b ob, g.getOpAt b = some ob → isLive ob = true → ∀ conn ∈ ob.inputs, ∀ s,
    g.getOpAt conn.srcId = some s → b ∈ s.consumers

/-- The operators listed with `od`, but for `i`. -/
def others (i : ℕ) (od : OpDef) : List ℕ := od.consumers.filter fun c => decide (c ≠ i)

/-- Dropping `op` leaves no reshape behind as the only reader of a reshape. -/
def DropOk (g : PassGraph) (op prod : OpDef) : Prop :=
  ∀ b ob, g.getOpAt b = some ob → isLive ob = true → b ∉ neighbours op → isReshape ob = true →
    (∃ conn, ob.inputs = [conn] ∧ conn.srcId = prod.opId) → isReshape prod = true →
      others op.opId prod = [b] → presentConsumers g op = [] →
        odEqual prod.outputDef ob.outputDef = true

/-- What `op` reads after it is joined with `src` is neither of its shape nor a reshape that only
`src` reads. -/
def MergeOk (g : PassGraph) (op src : OpDef) : Prop :=
  op.opId ∉ neighbours op → ∀ conn s, src.inputs = [conn] → g.getOpAt conn.srcId = some s →
    s.isEnabled = true → s.isDead = false → conn.srcId ≠ src.opId →
      odEqual s.outputDef op.outputDef = false ∧ (isReshape s = true → others src.opId s ≠ [])

/-- The fused operator is no consumer of a further fusion with what it reads now. -/
def FuseOk (rules : List FusionRule) (r : FusionRule) (g : PassGraph) (op prod : OpDef) : Prop :=
  op.opId ∉ neighbours op → ∀ next ∈ rules, next.consumer = r.fused → ∀ conn s,
    prod.inputs = [conn] → g.getOpAt conn.srcId = some s → s.isEnabled = true →
      s.isConst = false →
        (if conn.srcId = op.opId then r.fused else nameOf s) = next.producer →
          others prod.opId s ≠ []

/-- The rewriting of `op` makes no match that the loop does not visit. -/
structure StepOk (rules : List FusionRule) (phase : ℕ) (g : PassGraph) (op : OpDef) : Prop where
  drop : phase = 10190 → ∀ conn src, op.inputs = [conn] → g.getOpAt conn.srcId = some src →
    matchPattern g op = .identReshape ∨ matchPattern g op = .identTranspose → DropOk g op src
  merge : phase = 10190 → ∀ conn src, op.inputs = [conn] → g.getOpAt conn.srcId = some src →
    matchPattern g op = .reshapeChain → MergeOk g op src
  fuse : phase = 12492 → ∀ r ∈ rules, ∀ conn src, op.inputs = [conn] →
    g.getOpAt conn.srcId = some src → fusionMatch r g op = true → FuseOk rules r g op src

/-- A live operator matches a pass. -/
def Due (active : List GraphPass) (g : PassGraph) (b : ℕ) : Prop :=
  ∃ ob, g.getOpAt b = some ob ∧ isLive ob = true ∧ ∃ p ∈ active, p.matcher g ob = true

/-! ### Operators that keep what the patterns look at -/

/-- Only the edges differ. -/
structure Alike (od od' : OpDef) : Prop where
  flags : od'.flags = od.flags
  nameTag : od'.nameTag = od.nameTag
  outputDef : od'.outputDef = od.outputDef
  params : od'.tensorParamIds = od.tensorParamIds

namespace Alike

variable {od od' : OpDef}

theorem isEnabled (h : Alike od od') : od'.isEnabled = od.isEnabled := by
  unfold OpDef.isEnabled
  rw [h.flags]

theorem isDead (h : Alike od od') : od'.isDead = od.isDead := by
  unfold OpDef.isDead
  rw [h.flags]

theorem isConst (h : Alike od od') : od'.isConst = od.isConst := by
  unfold OpDef.isConst
  rw [h.flags]

theorem live (h : Alike od od') : isLive od' = isLive od := by
  unfold isLive
  rw [h.isEnabled, h.isDead, h.isConst]

theorem reshape (h : Alike od od') : isReshape od' = isReshape od := by
  unfold isReshape
  rw [h.nameTag]

theorem name (h : Alike od od') : nameOf od' = nameOf od := by
  unfold nameOf
  rw [h.nameTag]

end Alike

theorem paramIdentity_congr {g g' : PassGraph} (hdata : SameData g g')
    (hconst : ∀ t, (g'.getOpAt t).map OpDef.isConst = (g.getOpAt t).map OpDef.isConst) (t : ℕ) :
    paramIdentity g' t = paramIdentity g t := by
  unfold paramIdentity
  rw [hdata.size, hdata.offset, hdata.pool]
  have ht := hconst t
  cases hg : g.getOpAt t with
  | none =>
    rw [hg, Option.map_none, Option.map_eq_none_iff] at ht
    rw [ht]
  | some pc =>
    rw [hg, Option.map_some, Option.map_eq_some_iff] at ht
    obtain ⟨pc', hpc', hsame⟩ := ht
    rw [hpc']
    simp only [hsame]

theorem allParamsIdentity_congr {g g' : PassGraph} (hdata : SameData g g')
    (hconst : ∀ t, (g'.getOpAt t).map OpDef.isConst = (g.getOpAt t).map OpDef.isConst)
    {od od' : OpDef} (h : od'.tensorParamIds = od.tensorParamIds) :
    allParamsIdentity g' od' = allParamsIdentity g od := by
  unfold allParamsIdentity
  rw [h]
  congr 1
  apply List.all_congr rfl
  exact paramIdentity_congr hdata hconst

theorem patternFrom_ne_none_iff {g : PassGraph} {op src : OpDef} :
    patternFrom g op src ≠ .none ↔ (src.isEnabled = true ∧ src.isDead = false) ∧
      if isReshape op then (isReshape src = true ∧ src.consumers.length = 1) ∨
        odEqual src.outputDef op.outputDef = true
      else odEqual src.outputDef op.outputDef = true ∧ allParamsIdentity g op = true := by
  unfold patternFrom
  cases src.isEnabled with
  | false => simp
  | true =>
    cases src.isDead with
    | true => simp
    | false =>
      by_cases hlen : src.consumers.length = 1
      · cases isReshape op <;> cases isReshape src <;>
          cases odEqual src.outputDef op.outputDef <;> simp [hlen]
      · cases isReshape op <;> cases isReshape src <;>
          cases odEqual src.outputDef op.outputDef <;> simp [hlen]

theorem matchPattern_ne_none_iff {g : PassGraph} {op : OpDef} :
    matchPattern g op ≠ .none ↔ isLive op = true ∧
      (isReshape op = true ∨ op.nameTag = some "Transpose") ∧
      ∃ conn src, op.inputs = [conn] ∧ g.getOpAt conn.srcId = some src ∧
        patternFrom g op src ≠ .none := by
  constructor
  · intro h
    obtain ⟨hlive, conn, src, hinputs, hsrc, hpat, hname⟩ := matchPattern_source h
    exact ⟨hlive, hname, conn, src, hinputs, hsrc, hpat ▸ h⟩
  · rintro ⟨hlive, hname, conn, src, hinputs, hsrc, h⟩
    rwa [matchPattern_eq hlive hname hinputs hsrc]

variable {r : FusionRule} {ob ob' : OpDef} {conn : InputConn} {j i b a : ℕ} {t : PhaseState}

theorem fusionMatch_iff {g : PassGraph} {op : OpDef} :
    fusionMatch r g op = true ↔ (op.isEnabled = true ∧ op.isConst = false) ∧
      nameOf op = r.consumer ∧ ∃ conn prod, op.inputs = [conn] ∧
        g.getOpAt conn.srcId = some prod ∧ fusionProducer r prod = true := by
  constructor
  · intro h
    obtain ⟨hname, hsource⟩ := fusionMatch_source h
    unfold fusionMatch at h
    simp only [Bool.and_eq_true, Bool.not_eq_true'] at h
    exact ⟨h.1.1, hname, hsource⟩
  · rintro ⟨⟨hen, hconst⟩, hname, conn, prod, hinputs, hprod, h⟩
    unfold fusionMatch
    simp only [hen, hconst, hname, hinputs, hprod, h, decide_true, Bool.not_false, Bool.and_self]

theorem fusionProducer_iff {prod : OpDef} :
    fusionProducer r prod = true ↔ prod.isEnabled = true ∧ prod.isConst = false ∧
      nameOf prod = r.producer ∧ prod.consumers.length = 1 := by
  unfold fusionProducer
  simp only [Bool.and_eq_true, Bool.not_eq_true', decide_eq_true_eq, and_assoc]

/-! ### Matches that were there before -/

/-- A shape pattern goes back over a change of edges elsewhere, unless the source has lost all its
other readers. -/
theorem matchPattern_back {g g' : PassGraph} (hdata : SameData g g')
    (hconst : ∀ t, (g'.getOpAt t).map OpDef.isConst = (g.getOpAt t).map OpDef.isConst)
    {src src' : OpDef} (hob : Alike ob ob') (hinputs : ob.inputs = [conn])
    (hinputs' : ob'.inputs = [conn]) (hsrc : g.getOpAt conn.srcId = some src)
    (hsrc' : g'.getOpAt conn.srcId = some src') (halike : Alike src src')
    (hcount : isReshape ob = true → isReshape src = true → src'.consumers.length = 1 →
      src.consumers.length = 1 ∨ odEqual src.outputDef ob.outputDef = true)
    (h : matchPattern g' ob' ≠ .none) : matchPattern g ob ≠ .none := by
  obtain ⟨hlive, hname, conn₁, src₁, hinputs₁, hsrc₁, hpat⟩ := matchPattern_ne_none_iff.mp h
  rw [hinputs'] at hinputs₁
  cases hinputs₁
  rw [hsrc'] at hsrc₁
  cases hsrc₁
  rw [hob.live] at hlive
  rw [hob.reshape, hob.nameTag] at hname
  refine matchPattern_ne_none_iff.mpr ⟨hlive, hname, conn, src, hinputs, hsrc, ?_⟩
  rw [patternFrom_ne_none_iff, hob.reshape, hob.outputDef, halike.isEnabled, halike.isDead,
    halike.reshape, halike.outputDef, allParamsIdentity_congr hdata hconst hob.params] at hpat
  refine patternFrom_ne_none_iff.mpr ⟨hpat.1, ?_⟩
  by_cases hshape : isReshape ob = true
  · rw [if_pos hshape] at hpat ⊢
    obtain ⟨-, ⟨hres, hlen⟩ | hequal⟩ := hpat
    · exact (hcount hshape hres hlen).imp (And.intro hres) id
    · exact Or.inr hequal
  · rw [if_neg hshape] at hpat ⊢
    exact hpat.2

theorem exists_before {g g' : PassGraph} {od' : OpDef}
    (hsome : (g'.getOpAt j).isSome = (g.getOpAt j).isSome) (h : g'.getOpAt j = some od') :
    ∃ od, g.getOpAt j = some od := by
  rw [h] at hsome
  exact Option.isSome_iff_exists.mp hsome.symm

theorem isConst_of_flags {od od' : OpDef}
    (h : od'.flags = if i = j then od.flags ||| 4 else od.flags) : od'.isConst = od.isConst := by
  unfold OpDef.isConst
  rw [h]
  split
  · exact testBit_setDead od.flags 1 (by decide)
  · rfl

/-! ### After an operator is dropped -/

section Drop

variable {g : PassGraph} {op prod : OpDef}

theorem dropped_const (t : ℕ) : ((rewireConsumers g op prod).getOpAt t).map OpDef.isConst =
    (g.getOpAt t).map OpDef.isConst := by
  cases ht : g.getOpAt t with
  | none =>
    have hnone : (rewireConsumers g op prod).getOpAt t = none := by
      rw [← Option.not_isSome_iff_eq_none, isSome_rewireConsumers, ht]
      exact Bool.false_ne_true
    rw [hnone]
  | some od =>
    rw [getOpAt_rewireConsumers op prod ht, Option.map_some, Option.map_some]
    exact congrArg some (isConst_of_flags rfl)

theorem dropped_alive {od' : OpDef} (h : (rewireConsumers g op prod).getOpAt j = some od')
    (halive : od'.isDead = false) :
    j ≠ op.opId ∧ ∃ od, g.getOpAt j = some od ∧ Alike od od' ∧
      (od'.inputs = if j ∈ op.consumers then od.inputs.map (redirectInput op.opId prod.opId)
        else od.inputs) ∧
      (od'.consumers = if j = prod.opId then others op.opId od ++ presentConsumers g op
        else od.consumers) := by
  obtain ⟨od, hod⟩ := exists_before (isSome_rewireConsumers g op prod j) h
  rw [getOpAt_rewireConsumers op prod hod] at h
  cases h
  have hne : j ≠ op.opId := by
    intro hj
    rw [isDead_of_flags (if_pos hj)] at halive
    cases halive
  exact ⟨hne, od, hod, ⟨if_neg hne, rfl, rfl, rfl⟩, rfl, rfl⟩

theorem isDead_of_isLive {od : OpDef} (h : isLive od = true) : od.isDead = false :=
  (isLive_iff.mp h).2.1

/-- Dropping an operator keeps the lists of readers. -/
theorem dropped_listed (hlisted : Listed g) :
    Listed (rewireConsumers g op prod) := by
  intro b ob' hob' hlive conn' hconn' s' hs'
  obtain ⟨hne, ob, hob, halike, hinputs, -⟩ := dropped_alive hob' (isDead_of_isLive hlive)
  rw [halike.live] at hlive
  obtain ⟨s, hs⟩ := exists_before (isSome_rewireConsumers g op prod _) hs'
  rw [getOpAt_rewireConsumers op prod hs] at hs'
  cases hs'
  have hkept : b ∈ s.consumers → b ∈ if conn'.srcId = prod.opId then
      s.consumers.filter (fun c => decide (c ≠ op.opId)) ++ presentConsumers g op
        else s.consumers := by
    intro hmem
    split
    · exact List.mem_append_left _ (List.mem_filter.mpr ⟨hmem, decide_eq_true hne⟩)
    · exact hmem
  by_cases hcons : b ∈ op.consumers
  · rw [if_pos hcons] at hinputs
    rw [hinputs, List.mem_map] at hconn'
    obtain ⟨conn, hconn, rfl⟩ := hconn'
    by_cases hread : conn.srcId = op.opId
    · -- the reader of the dropped operator is listed with the source
      have hsource : (redirectInput op.opId prod.opId conn).srcId = prod.opId := by
        unfold redirectInput
        rw [if_pos hread]
      simp only [hsource, if_true]
      apply List.mem_append_right
      exact List.mem_filter.mpr ⟨hcons, by rw [hob]; rfl⟩
    · have hsame : redirectInput op.opId prod.opId conn = conn := if_neg hread
      rw [hsame] at hs hkept
      rw [hsame]
      exact hkept (hlisted b ob hob hlive conn hconn s hs)
  · rw [if_neg hcons] at hinputs
    rw [hinputs] at hconn'
    exact hkept (hlisted b ob hob hlive conn' hconn' s hs)

/-- A match after a drop is near it or is an old one. -/
theorem dropped_back (hlisted : Listed g) (hok : DropOk g op prod)
    (hprod : g.getOpAt prod.opId = some prod)
    (hob' : (rewireConsumers g op prod).getOpAt b = some ob')
    (h : matchPattern (rewireConsumers g op prod) ob' ≠ .none) :
    b ∈ neighbours op ∨ (b ≠ op.opId ∧ ∃ ob, g.getOpAt b = some ob ∧ isLive ob = true ∧
      matchPattern g ob ≠ .none) := by
  obtain ⟨hlive, -, conn, src', hinputs', hsrc', hpat⟩ := matchPattern_ne_none_iff.mp h
  obtain ⟨hne, ob, hob, halike, hinputs, -⟩ := dropped_alive hob' (isDead_of_isLive hlive)
  rw [halike.live] at hlive
  by_cases hnear : b ∈ neighbours op
  · exact Or.inl hnear
  · have hcons : b ∉ op.consumers := fun hmem => hnear (List.mem_append_right _ hmem)
    rw [if_neg hcons, hinputs'] at hinputs
    obtain ⟨-, src, hsrc, hsame, -, hconsumers⟩ :=
      dropped_alive hsrc' (patternFrom_ne_none_iff.mp hpat).1.2
    refine Or.inr ⟨hne, ob, hob, hlive, ?_⟩
    apply matchPattern_back (SameData.of_rewireConsumers g op prod) dropped_const halike
      hinputs.symm hinputs' hsrc hsrc' hsame _ h
    intro hshape hres hlen
    by_cases hread : conn.srcId = prod.opId
    · right
      rw [hread, hprod] at hsrc
      cases hsrc
      rw [hconsumers, if_pos hread, List.length_append] at hlen
      have hmem : b ∈ others op.opId prod := by
        apply List.mem_filter.mpr
        refine ⟨?_, decide_eq_true hne⟩
        exact hlisted b ob hob hlive conn (hinputs ▸ List.mem_singleton_self conn) prod
          (hread ▸ hprod)
      have hpos := List.length_pos_of_mem hmem
      have hone : others op.opId prod = [b] := by
        obtain ⟨c, hc⟩ := List.length_eq_one_iff.mp (by omega : (others op.opId prod).length = 1)
        rw [hc, List.mem_singleton] at hmem
        rw [hc, hmem]
      have hnil : presentConsumers g op = [] := List.length_eq_zero_iff.mp (by omega)
      exact hok b ob hob hlive hnear hshape ⟨conn, hinputs.symm, hread⟩ hres hone hnil
    · left
      rwa [hconsumers, if_neg hread] at hlen

end Drop

/-! ### After an operator takes the place of its source -/

/-- `op` reads what `src` read, `src` is dead, and only `op` may have another name. -/
structure Joined (g g' : PassGraph) (op src : OpDef) : Prop where
  data : SameData g g'
  present : ∀ j, (g'.getOpAt j).isSome = (g.getOpAt j).isSome
  flags : ∀ j od od', g.getOpAt j = some od → g'.getOpAt j = some od' →
    od'.flags = if j = src.opId then od.flags ||| 4 else od.flags
  alike : ∀ j od od', g.getOpAt j = some od → g'.getOpAt j = some od' → j ≠ src.opId →
    j ≠ op.opId → Alike od od'
  params : ∀ j od od', g.getOpAt j = some od → g'.getOpAt j = some od' →
    od'.tensorParamIds = od.tensorParamIds
  inputs : ∀ j od od', g.getOpAt j = some od → g'.getOpAt j = some od' →
    od'.inputs = if j = op.opId then src.inputs else od.inputs
  consumers : ∀ j od od', g.getOpAt j = some od → g'.getOpAt j = some od' →
    od'.consumers = passedConsumers src.opId op.opId j src.inputs od.consumers

theorem joined_mergeChain (g : PassGraph) (op src : OpDef) :
    Joined g (mergeChain g op src) op src := by
  refine ⟨SameData.of_mergeChain g op src, isSome_mergeChain g op src, ?_, ?_, ?_, ?_, ?_⟩
  all_goals
    intro j od od' hod hod'
    rw [getOpAt_mergeChain op src hod] at hod'
    cases hod'
  · rfl
  · intro hsrc _
    exact ⟨if_neg hsrc, rfl, rfl, rfl⟩
  · rfl
  · rfl
  · rfl

theorem joined_fused (r : FusionRule) (g : PassGraph) (op prod : OpDef) :
    Joined g (mergeChain (renamed r g op) op prod) op prod := by
  refine ⟨(SameData.of_modify g _ _ _).trans (SameData.of_mergeChain _ op prod),
    isSome_fused r g op prod, ?_, ?_, ?_, ?_, ?_⟩
  all_goals
    intro j od od' hod hod'
    rw [getOpAt_fused hod] at hod'
    cases hod'
  · rfl
  · intro hsrc hop
    exact ⟨if_neg hsrc, if_neg hop, rfl, rfl⟩
  · rfl
  · rfl
  · rfl

namespace Joined

variable {g g' : PassGraph} {op src : OpDef} (hj : Joined g g' op src)
include hj

theorem const (t : ℕ) : (g'.getOpAt t).map OpDef.isConst = (g.getOpAt t).map OpDef.isConst := by
  cases ht : g.getOpAt t with
  | none =>
    have hnone : g'.getOpAt t = none := by
      rw [← Option.not_isSome_iff_eq_none, hj.present, ht]
      exact Bool.false_ne_true
    rw [hnone]
  | some od =>
    obtain ⟨od', hod'⟩ := Option.isSome_iff_exists.mp ((hj.present t).trans (ht ▸ rfl))
    rw [hod', Option.map_some, Option.map_some, isConst_of_flags (hj.flags t od od' ht hod')]

theorem ne_of_alive {od od' : OpDef} (hod : g.getOpAt j = some od)
    (hod' : g'.getOpAt j = some od') (h : od'.isDead = false) : j ≠ src.opId := by
  intro heq
  rw [isDead_of_flags ((hj.flags j od od' hod hod').trans (if_pos heq))] at h
  cases h

theorem isLive_before {od od' : OpDef} (hod : g.getOpAt j = some od)
    (hod' : g'.getOpAt j = some od') (h : isLive od' = true) : isLive od = true := by
  have hne := hj.ne_of_alive hod hod' (isDead_of_isLive h)
  have hflags := (hj.flags j od od' hod hod').trans (if_neg hne)
  unfold isLive OpDef.isEnabled OpDef.isDead OpDef.isConst at h ⊢
  rwa [hflags] at h

theorem listed (hlisted : Listed g) : Listed g' := by
  intro b ob' hob' hlive conn hconn s' hs'
  obtain ⟨ob, hob⟩ := exists_before (hj.present b) hob'
  obtain ⟨s, hs⟩ := exists_before (hj.present _) hs'
  have hne := hj.ne_of_alive hob hob' (isDead_of_isLive hlive)
  rw [hj.inputs b ob ob' hob hob'] at hconn
  rw [hj.consumers _ s s' hs hs']
  by_cases hbop : b = op.opId
  · rw [if_pos hbop] at hconn
    rw [hbop] at hne ⊢
    exact op_mem_passedConsumers hne ⟨conn, hconn, rfl⟩
  · rw [if_neg hbop] at hconn
    apply mem_passedConsumers hne
    exact hlisted b ob hob (hj.isLive_before hob hob' hlive) conn hconn s hs

omit hj in
theorem sole_before {s : OpDef} (hbop : b ≠ op.opId) (hbsrc : b ≠ src.opId)
    (hself : op.opId = src.opId → ∀ conn ∈ src.inputs, conn.srcId ≠ i) (hmem : b ∈ s.consumers)
    (hlen : (passedConsumers src.opId op.opId i src.inputs s.consumers).length = 1) :
    s.consumers.length = 1 := by
  by_cases hread : ∃ conn ∈ src.inputs, conn.srcId = i
  · have hne : op.opId ≠ src.opId := by
      intro heq
      obtain ⟨conn, hconn, hi⟩ := hread
      exact hself heq conn hconn hi
    have hfirst : op.opId ∈ passedConsumers src.opId op.opId i src.inputs s.consumers :=
      op_mem_passedConsumers hne hread
    have hsecond : b ∈ passedConsumers src.opId op.opId i src.inputs s.consumers :=
      mem_passedConsumers hbsrc hmem
    obtain ⟨c, hc⟩ := List.length_eq_one_iff.mp hlen
    rw [hc, List.mem_singleton] at hfirst hsecond
    exact absurd (hsecond.trans hfirst.symm) hbop
  · rwa [passedConsumers_of_not_read s.consumers fun conn hconn hi => hread ⟨conn, hconn, hi⟩]
      at hlen

end Joined

theorem self_read {g : PassGraph} {op src : OpDef} (hop : g.getOpAt op.opId = some op)
    (hsrc : g.getOpAt src.opId = some src) (hinputs : op.inputs = [conn])
    (hread : conn.srcId = src.opId) (hi : i ≠ src.opId) (h : op.opId = src.opId) :
    ∀ c ∈ src.inputs, c.srcId ≠ i := by
  rw [h, hsrc] at hop
  cases hop
  intro c hc
  rw [hinputs, List.mem_singleton] at hc
  rw [hc, hread]
  exact Ne.symm hi

section Join

variable {g : PassGraph} {op src : OpDef} {conn₀ : InputConn}
  (hlisted : Listed g) (hop : g.getOpAt op.opId = some op)
  (hsrc : g.getOpAt src.opId = some src) (hinputs : op.inputs = [conn₀])
  (hread : conn₀.srcId = src.opId)
include hlisted hop hsrc hinputs hread

theorem eq_of_reads_source (hlive : isLive op = true) (hsole : src.consumers.length = 1)
    (hob : g.getOpAt b = some ob) (hlive' : isLive ob = true) (hconn : conn ∈ ob.inputs)
    (h : conn.srcId = src.opId) : b = op.opId := by
  obtain ⟨c, hc⟩ := List.length_eq_one_iff.mp hsole
  have hmem := hlisted op.opId op hop hlive conn₀ (hinputs ▸ List.mem_singleton_self conn₀) src
    (hread ▸ hsrc)
  have hmem' := hlisted b ob hob hlive' conn hconn src (h ▸ hsrc)
  rw [hc, List.mem_singleton] at hmem hmem'
  exact hmem'.trans hmem.symm

theorem merged_back (hshape : isReshape op = true) (hok : MergeOk g op src)
    (hob' : (mergeChain g op src).getOpAt b = some ob')
    (h : matchPattern (mergeChain g op src) ob' ≠ .none) :
    b ∈ neighbours op ∨ (b ≠ op.opId ∧ ∃ ob, g.getOpAt b = some ob ∧ isLive ob = true ∧
      matchPattern g ob ≠ .none) := by
  have hj := joined_mergeChain g op src
  obtain ⟨hlive', -, conn, s', hinputs', hs', hpat⟩ := matchPattern_ne_none_iff.mp h
  obtain ⟨ob, hob⟩ := exists_before (hj.present b) hob'
  obtain ⟨s, hs⟩ := exists_before (hj.present _) hs'
  have hbsrc := hj.ne_of_alive hob hob' (isDead_of_isLive hlive')
  have hssrc := hj.ne_of_alive hs hs' (patternFrom_ne_none_iff.mp hpat).1.2
  have hconsumers := hj.consumers _ s s' hs hs'
  have hsame : Alike s s' := by
    rw [getOpAt_mergeChain op src hs] at hs'
    cases hs'
    exact ⟨if_neg hssrc, rfl, rfl, rfl⟩
  by_cases hbop : b = op.opId
  · by_cases hnear : op.opId ∈ neighbours op
    · exact Or.inl (hbop ▸ hnear)
    · -- the joined operator itself would match again
      exfalso
      have hread' := hj.inputs b ob ob' hob hob'
      rw [if_pos hbop, hinputs'] at hread'
      have hob'op : ob'.outputDef = op.outputDef ∧ isReshape ob' = true := by
        rw [hbop, getOpAt_mergeChain op src hop] at hob'
        cases hob'
        exact ⟨rfl, hshape⟩
      rw [patternFrom_ne_none_iff, hob'op.1, hob'op.2, if_pos rfl, hsame.isEnabled, hsame.isDead,
        hsame.reshape, hsame.outputDef, hconsumers] at hpat
      obtain ⟨⟨hen, hdead⟩, hcase⟩ := hpat
      obtain ⟨hequal, hothers⟩ := hok hnear conn s hread'.symm hs hen hdead hssrc
      rw [hequal] at hcase
      obtain ⟨hres, hlen⟩ := hcase.resolve_right Bool.false_ne_true
      rw [← hread', passedConsumers_cons, if_pos rfl] at hlen
      have hnil : (others src.opId s ++ [op.opId]).length = 1 := hlen
      rw [List.length_append, List.length_singleton] at hnil
      exact hothers hres (List.length_eq_zero_iff.mp (by omega))
  · right
    have halike := hj.alike b ob ob' hob hob' hbsrc hbop
    have hread' := hj.inputs b ob ob' hob hob'
    rw [if_neg hbop, hinputs'] at hread'
    have hlive'' : isLive ob = true := halike.live ▸ hlive'
    refine ⟨hbop, ob, hob, hlive'', ?_⟩
    apply matchPattern_back hj.data hj.const halike hread'.symm hinputs' hs hs' hsame _ h
    intro _ _ hlen
    left
    rw [hconsumers] at hlen
    apply Joined.sole_before hbop hbsrc (self_read hop hsrc hinputs hread hssrc) _ hlen
    exact hlisted b ob hob hlive'' conn (hread' ▸ List.mem_singleton_self conn) s hs

theorem fused_back (hlive : isLive op = true) (hsole : src.consumers.length = 1)
    {rules : List FusionRule} {next : FusionRule} (hnext : next ∈ rules)
    (hok : FuseOk rules r g op src)
    (hob' : (mergeChain (renamed r g op) op src).getOpAt b = some ob')
    (hlive' : isLive ob' = true)
    (h : fusionMatch next (mergeChain (renamed r g op) op src) ob' = true) :
    b ∈ neighbours op ∨ (b ≠ op.opId ∧ ∃ ob, g.getOpAt b = some ob ∧ isLive ob = true ∧
      fusionMatch next g ob = true) := by
  have hj := joined_fused r g op src
  obtain ⟨hfree, hname, conn, s', hinputs', hs', hprod⟩ := fusionMatch_iff.mp h
  obtain ⟨hen, hconst, hsname, hlen⟩ := fusionProducer_iff.mp hprod
  obtain ⟨ob, hob⟩ := exists_before (hj.present b) hob'
  obtain ⟨s, hs⟩ := exists_before (hj.present _) hs'
  have hbsrc := hj.ne_of_alive hob hob' (isDead_of_isLive hlive')
  have hread' := hj.inputs b ob ob' hob hob'
  have hconst' : s'.isConst = s.isConst := isConst_of_flags (hj.flags _ s s' hs hs')
  have hen' : s'.isEnabled = s.isEnabled := by
    unfold OpDef.isEnabled
    rw [hj.flags _ s s' hs hs']
    split
    · exact testBit_setDead s.flags 0 (by decide)
    · rfl
  rw [hconst'] at hconst
  rw [hen'] at hen
  rw [hj.consumers _ s s' hs hs'] at hlen
  have hnames : nameOf s' = if conn.srcId = op.opId then r.fused else nameOf s := by
    rw [getOpAt_fused hs] at hs'
    cases hs'
    unfold nameOf
    by_cases hconnop : conn.srcId = op.opId
    · simp only [if_pos hconnop]
      rfl
    · simp only [if_neg hconnop]
  rw [hnames] at hsname
  by_cases hbop : b = op.opId
  · by_cases hnear : op.opId ∈ neighbours op
    · exact Or.inl (hbop ▸ hnear)
    · exfalso
      rw [if_pos hbop, hinputs'] at hread'
      have hfused : nameOf ob' = r.fused := by
        rw [hbop, getOpAt_fused hop] at hob'
        cases hob'
        unfold nameOf
        simp only [if_true]
        rfl
      have hothers := hok hnear next hnext (hname.symm.trans hfused) conn s hread'.symm hs hen
        hconst hsname
      rw [← hread', passedConsumers_cons, if_pos rfl] at hlen
      have hnil : (others src.opId s ++ [op.opId]).length = 1 := hlen
      rw [List.length_append, List.length_singleton] at hnil
      exact hothers (List.length_eq_zero_iff.mp (by omega))
  · have halike := hj.alike b ob ob' hob hob' hbsrc hbop
    rw [if_neg hbop, hinputs'] at hread'
    have hlive'' : isLive ob = true := halike.live ▸ hlive'
    have hconn : conn ∈ ob.inputs := hread' ▸ List.mem_singleton_self conn
    by_cases hconnop : conn.srcId = op.opId
    · left
      apply List.mem_append_right
      exact hlisted b ob hob hlive'' conn hconn op (hconnop ▸ hop)
    · right
      rw [if_neg hconnop] at hsname
      have hssrc : conn.srcId ≠ src.opId := by
        intro heq
        exact hbop (eq_of_reads_source hlisted hop hsrc hinputs hread hlive hsole hob hlive'' hconn
          heq)
      refine ⟨hbop, ob, hob, hlive'', fusionMatch_iff.mpr ⟨?_, ?_, conn, s, hread'.symm, hs, ?_⟩⟩
      · rwa [halike.isEnabled, halike.isConst] at hfree
      · rwa [halike.name] at hname
      · refine fusionProducer_iff.mpr ⟨hen, hconst, hsname, ?_⟩
        apply Joined.sole_before hbop hbsrc (self_read hop hsrc hinputs hread hssrc) _ hlen
        exact hlisted b ob hob hlive'' conn hconn s hs

end Join

/-! ### After an operator becomes a constant -/

section Fold

variable {g g' : PassGraph} {op : OpDef} {data : List UInt8} (h : foldOpToConst g op data = some g')
include h

theorem folded_alive (hob : g'.getOpAt b = some ob) (hlive : isLive ob = true) :
    b ≠ op.opId ∧ g.getOpAt b = some ob := by
  rw [(foldOpToConst_eq h).2.1, Option.map_eq_some_iff] at hob
  obtain ⟨od, hod, rfl⟩ := hob
  by_cases hb : b = op.opId
  · rw [if_pos hb] at hlive
    have hconst : Nat.testBit 3 1 = true := by decide
    have hno := (isLive_iff.mp hlive).2.2
    unfold constOf OpDef.isConst at hno
    rw [hconst] at hno
    cases hno
  · rw [if_neg hb]
    exact ⟨hb, hod⟩

/-- Folding keeps the lists of readers. -/
theorem folded_listed (hlisted : Listed g) : Listed g' := by
  intro b ob hob hlive conn hconn s hs
  obtain ⟨-, hbefore⟩ := folded_alive h hob hlive
  rw [(foldOpToConst_eq h).2.1, Option.map_eq_some_iff] at hs
  obtain ⟨od, hod, rfl⟩ := hs
  have hmem := hlisted b ob hbefore hlive conn hconn od hod
  split
  · exact hmem
  · exact hmem

/-- A match after folding is near it or is an old one. -/
theorem folded_back (hlisted : Listed g) (hop : g.getOpAt op.opId = some op)
    (hob : g'.getOpAt b = some ob) (hlive : isLive ob = true)
    (hmatch : constFoldMatcher g' ob = true) :
    b ∈ neighbours op ∨ (b ≠ op.opId ∧ ∃ ob, g.getOpAt b = some ob ∧ isLive ob = true ∧
      constFoldMatcher g ob = true) := by
  obtain ⟨hne, hbefore⟩ := folded_alive h hob hlive
  by_cases hread : ∃ conn ∈ ob.inputs, conn.srcId = op.opId
  · obtain ⟨conn, hconn, hsrc⟩ := hread
    left
    apply List.mem_append_right
    exact hlisted b ob hbefore hlive conn hconn op (hsrc ▸ hop)
  · refine Or.inr ⟨hne, ob, hbefore, hlive, ?_⟩
    unfold constFoldMatcher at hmatch ⊢
    rw [← hmatch]
    congr 1
    rw [Bool.eq_iff_iff, List.all_eq_true, List.all_eq_true]
    have hsame : ∀ conn ∈ ob.inputs, constInput g conn = constInput g' conn := by
      intro conn hconn
      have hsrc : conn.srcId ≠ op.opId := fun heq => hread ⟨conn, hconn, heq⟩
      unfold constInput
      rw [(foldOpToConst_eq h).2.1, (foldOpToConst_eq h).2.2 _ hsrc]
      simp only [if_neg hsrc, Option.map_id']
    constructor
    · intro hall conn hconn
      rw [← hsame conn hconn]
      exact hall conn hconn
    · intro hall conn hconn
      rw [hsame conn hconn]
      exact hall conn hconn

end Fold

/-! ### The run -/

/-- The rules of the fusions that are switched on. -/
def activeRules (switch : GraphPass → Bool) : List FusionRule :=
  kLegacyFusionRules.filter fun r => switch (fusionPass r)

section Run

variable {kernels : Kernels} {switch : GraphPass → Bool} {phase : ℕ}

theorem patternFrom_chain {g : PassGraph} {op src : OpDef}
    (h : patternFrom g op src = .reshapeChain) :
    isReshape op = true ∧ isReshape src = true := by
  unfold patternFrom at h
  split at h
  · cases h
  · split at h
    · rename_i hshape
      split at h
      · rename_i hchain
        rw [Bool.and_eq_true] at hchain
        exact ⟨hshape, hchain.1⟩
      · split at h <;> cases h
    · split at h <;> cases h

theorem active_cases {p : GraphPass} (hp : p ∈ activePasses (builtinPasses kernels switch) phase) :
    (phase = 3000 ∧ p.matcher = constFoldMatcher ∧ p.rewrite = constFoldRewrite kernels) ∨
    (phase = 10190 ∧ (p.matcher = fun g op => decide (matchPattern g op ≠ .none)) ∧
      p.rewrite = shapeFoldRewrite) ∨
    (phase = 12492 ∧ ∃ r ∈ activeRules switch, p.matcher = fusionMatch r ∧
      p.rewrite = fusePair r) := by
  obtain ⟨hbuiltin, hphase, henabled⟩ := mem_activePasses hp
  cases hbuiltin with
  | constFold hphase' hmatcher hrewrite =>
    exact Or.inl ⟨hphase.symm.trans hphase', hmatcher, hrewrite⟩
  | shapeFold hphase' hmatcher hrewrite =>
    exact Or.inr (Or.inl ⟨hphase.symm.trans hphase', hmatcher, hrewrite⟩)
  | fusion r hr hphase' hswitch hmatcher hrewrite =>
    refine Or.inr (Or.inr ⟨hphase.symm.trans hphase', r, ?_, hmatcher, hrewrite⟩)
    exact List.mem_filter.mpr ⟨hr, hswitch.symm.trans henabled⟩

theorem rewrite_due {g g' : PassGraph} {op : OpDef} {p : GraphPass}
    (hp : p ∈ activePasses (builtinPasses kernels switch) phase) (hlisted : Listed g)
    (hop : g.getOpAt op.opId = some op) (hlive : isLive op = true)
    (hok : StepOk (activeRules switch) phase g op) (hmatch : p.matcher g op = true)
    (hrewrite : p.rewrite g op = some g') :
    Listed g' ∧ ∀ b, Due (activePasses (builtinPasses kernels switch) phase) g' b →
      b ∈ neighbours op ∨
        (b ≠ op.opId ∧ Due (activePasses (builtinPasses kernels switch) phase) g b) := by
  obtain ⟨hphase, hm, hr⟩ | ⟨hphase, hm, hr⟩ | ⟨hphase, r, hrule, hm, hr⟩ := active_cases hp
  · rw [hr] at hrewrite
    refine ⟨folded_listed hrewrite hlisted, ?_⟩
    rintro b ⟨ob, hob, hlive', q, hq, hmatch'⟩
    obtain ⟨-, hqm, -⟩ | ⟨hother, -⟩ | ⟨hother, -⟩ := active_cases hq
    · rw [hqm] at hmatch'
      refine (folded_back hrewrite hlisted hop hob hlive' hmatch').imp id (And.imp id ?_)
      rintro ⟨od, hod, hlive'', hback⟩
      exact ⟨od, hod, hlive'', q, hq, hqm ▸ hback⟩
    · exact absurd (hphase.symm.trans hother) (by decide)
    · exact absurd (hphase.symm.trans hother) (by decide)
  · rw [hr] at hrewrite
    obtain ⟨conn, src, hinputs, hconn, -, hpat, hcase⟩ := shapeFoldRewrite_cases hrewrite
    have hid := opId_eq hconn
    have hsrc : g.getOpAt src.opId = some src := hid ▸ hconn
    have hback : Listed g' ∧ ∀ b ob, g'.getOpAt b = some ob → matchPattern g' ob ≠ .none →
        b ∈ neighbours op ∨ (b ≠ op.opId ∧ ∃ ob, g.getOpAt b = some ob ∧ isLive ob = true ∧
          matchPattern g ob ≠ .none) := by
      obtain ⟨hdrop, rfl⟩ | ⟨hchain, rfl⟩ := hcase
      · refine ⟨dropped_listed hlisted, fun b ob hob h => ?_⟩
        exact dropped_back hlisted (hok.drop hphase conn src hinputs hconn hdrop) hsrc hob h
      · refine ⟨(joined_mergeChain g op src).listed hlisted, fun b ob hob h => ?_⟩
        rw [hpat] at hchain
        exact merged_back hlisted hop hsrc hinputs hid.symm (patternFrom_chain hchain).1
          (hok.merge hphase conn src hinputs hconn (hpat.trans hchain)) hob h
    refine ⟨hback.1, ?_⟩
    rintro b ⟨ob, hob, hlive', q, hq, hmatch'⟩
    obtain ⟨hother, -⟩ | ⟨-, hqm, -⟩ | ⟨hother, -⟩ := active_cases hq
    · exact absurd (hphase.symm.trans hother) (by decide)
    · rw [hqm, decide_eq_true_eq] at hmatch'
      refine (hback.2 b ob hob hmatch').imp id (And.imp id ?_)
      rintro ⟨od, hod, hlive'', h⟩
      refine ⟨od, hod, hlive'', q, hq, ?_⟩
      rw [hqm]
      exact decide_eq_true h
    · exact absurd (hphase.symm.trans hother) (by decide)
  · rw [hr] at hrewrite
    rw [hm] at hmatch
    obtain ⟨conn, src, hinputs, hconn, rfl⟩ := fusePair_eq hrewrite
    have hid := opId_eq hconn
    have hsrc : g.getOpAt src.opId = some src := hid ▸ hconn
    refine ⟨(joined_fused r g op src).listed hlisted, ?_⟩
    rintro b ⟨ob, hob, hlive', q, hq, hmatch'⟩
    obtain ⟨hother, -⟩ | ⟨hother, -⟩ | ⟨-, next, hnext, hqm, -⟩ := active_cases hq
    · exact absurd (hphase.symm.trans hother) (by decide)
    · exact absurd (hphase.symm.trans hother) (by decide)
    · rw [hqm] at hmatch'
      have hsole : src.consumers.length = 1 := by
        obtain ⟨-, -, conn', src', hinputs', hconn', hprod⟩ := fusionMatch_iff.mp hmatch
        rw [hinputs] at hinputs'
        cases hinputs'
        rw [hconn] at hconn'
        cases hconn'
        exact (fusionProducer_iff.mp hprod).2.2.2
      refine (fused_back hlisted hop hsrc hinputs hid.symm hlive hsole hnext
        (hok.fuse hphase r hrule conn src hinputs hconn hmatch) hob hlive' hmatch').imp id
        (And.imp id ?_)
      rintro ⟨od, hod, hlive'', h⟩
      exact ⟨od, hod, hlive'', q, hq, hqm ▸ h⟩

/-- The visit of `a` makes no match that is missed. -/
def VisitOk (rules : List FusionRule) (phase : ℕ) (t : PhaseState) (a : ℕ) : Prop :=
  ∀ op, t.graph.getOpAt a = some op → isLive op = true → StepOk rules phase t.graph op

/-- So do all visits of a run of the phase. -/
def VisitsOk (kernels : Kernels) (switch : GraphPass → Bool) (phase : ℕ) (order : List ℕ)
    (g : PassGraph) : Prop :=
  ∀ t a v, Worklist.Steps (visitOp (activePasses (builtinPasses kernels switch) phase))
    (⟨g, 0⟩, seeds g order) (t, a :: v) → VisitOk (activeRules switch) phase t a

theorem visitOp_none {active : List GraphPass} (hactive : ∀ p ∈ active, Builtin kernels switch p)
    (h : visitOp active t a = none) : ¬ Due active t.graph a := by
  rintro ⟨ob, hob, hlive, p, hp, hmatch⟩
  unfold visitOp at h
  simp only [hob, if_pos hlive, Option.map_eq_none_iff] at h
  rw [tryPasses_none hactive h p hp] at hmatch
  cases hmatch

theorem visitOp_due {t' : PhaseState} {l : List ℕ} (hlisted : Listed t.graph)
    (hok : VisitOk (activeRules switch) phase t a)
    (h : visitOp (activePasses (builtinPasses kernels switch) phase) t a = some (t', l)) :
    Listed t'.graph ∧ ∀ b, Due (activePasses (builtinPasses kernels switch) phase) t'.graph b →
      b ∈ l ∨ (b ≠ a ∧ Due (activePasses (builtinPasses kernels switch) phase) t.graph b) := by
  obtain ⟨op, hop, hlive, htry, rfl⟩ := visitOp_some h
  obtain ⟨q, hq, hmatch, hrewrite⟩ := tryPasses_some htry
  have hid := opId_eq hop
  subst hid
  exact rewrite_due hq hlisted hop hlive (hok op hop hlive) hmatch hrewrite

theorem mem_seeds {g : PassGraph} {order : List ℕ} (horder : order.Perm g.keys)
    (hob : g.getOpAt b = some ob) (hlive : isLive ob = true) : b ∈ seeds g order := by
  apply Worklist.mem_foldl_push.mpr
  right
  apply List.mem_filter.mpr
  refine ⟨horder.mem_iff.mpr (g.covered b ?_), ?_⟩
  · exact Option.isSome_iff_exists.mpr ⟨ob, hob⟩
  · rw [hob]
    exact hlive

/-- A phase ends on every graph, and no live operator matches at the end, when the readers are
listed and every rewriting leaves its new matches to the work list. -/
theorem runPhase_complete (kernels : Kernels) (switch : GraphPass → Bool) (phase : ℕ)
    (order : List ℕ) (g : PassGraph) (horder : order.Perm g.keys) :
    ∃ n s, (∀ k, n ≤ k → runPhase (builtinPasses kernels switch) phase order g k = some s) ∧
      (Listed g → VisitsOk kernels switch phase order g →
        ∀ i op, s.graph.getOpAt i = some op → isLive op = true →
          ∀ p ∈ activePasses (builtinPasses kernels switch) phase,
            p.matcher s.graph op = false) := by
  obtain ⟨n, s, hrun⟩ := runPhase_terminates kernels switch phase order g
  refine ⟨n, s, hrun, fun hlisted hok i op hop hlive p hp => ?_⟩
  have hlast := hrun n le_rfl
  unfold runPhase at hlast
  simp only at hlast
  split at hlast
  · rename_i hempty
    rw [hempty] at hp
    cases hp
  · have hdue : ∀ b, Due (activePasses (builtinPasses kernels switch) phase) g b →
        b ∈ seeds g order := by
      rintro b ⟨ob, hob, hlive', -⟩
      exact mem_seeds horder hob hlive'
    have hend := @Worklist.run_complete PhaseState ℕ _ _ (fun t => Listed t.graph)
      (fun t => Due (activePasses (builtinPasses kernels switch) phase) t.graph)
      (VisitOk (activeRules switch) phase)
      (fun t a _ => visitOp_none fun q hq => (mem_activePasses hq).1)
      (fun t a t' l => visitOp_due) n ⟨g, 0⟩ s (seeds g order) hlisted hdue hok hlast
    apply Bool.eq_false_iff.mpr
    intro hmatch
    exact hend.2 i ⟨op, hop, hlive, p, hp, hmatch⟩

end Run

/-! ### A reshape that is dropped -/

/-- The graph of a list of operators without constants. -/
def graphOf (l : List OpDef) (h : (l.map (·.opId)).Nodup) : PassGraph where
  keys := l.map (·.opId)
  ops := OpMap.ofList l
  constDataOffset _ := 0
  constDataSize _ := 0
  constPool := []
  keys_nodup := h
  covered := by
    intro i hi
    obtain ⟨od, hod⟩ := Option.isSome_iff_exists.mp hi
    obtain ⟨hmem, hid⟩ := OpMap.mem_of_ofList hod
    exact List.mem_map.mpr ⟨od, hmem, hid⟩

theorem graphOf_listed {l : List OpDef} {h : (l.map (·.opId)).Nodup}
    (hl : ∀ ob ∈ l, ∀ conn ∈ ob.inputs, ∀ s ∈ l, s.opId = conn.srcId → ob.opId ∈ s.consumers) :
    Listed (graphOf l h) := by
  intro b ob hob _ conn hconn s hs
  obtain ⟨hmem, rfl⟩ := OpMap.mem_of_ofList hob
  obtain ⟨hsmem, hid⟩ := OpMap.mem_of_ofList hs
  exact hl ob hmem conn hconn s hsmem hid

/-- An enabled operator whose output is a vector. -/
def linkOp (id : ℕ) (name : String) (dim : ℕ) (inputs : List InputConn) (consumers : List ℕ) :
    OpDef :=
  ⟨id, 1, some name, .vector dim 0 4 0, inputs, consumers, [], []⟩

/-- No shape pattern; or two reshapes of which the first reads neither a third nor the shape of the
second; or another pattern whose source is no reshape. -/
def calm (t : PhaseState) (a : ℕ) : Bool :=
  match t.graph.getOpAt a with
  | none => true
  | some op => decide (matchPattern t.graph op = .none) || op.inputs.all fun conn =>
    (t.graph.getOpAt conn.srcId).all fun src =>
      if matchPattern t.graph op = .reshapeChain then
        src.inputs.all fun conn' => (t.graph.getOpAt conn'.srcId).all fun s =>
          !odEqual s.outputDef op.outputDef && !isReshape s
      else !isReshape src

theorem visitOk_of_calm {rules : List FusionRule} (h : calm t a = true) :
    VisitOk rules 10190 t a := by
  intro op hop _
  unfold calm at h
  simp only [hop] at h
  have hcalm : ∀ conn src, op.inputs = [conn] → t.graph.getOpAt conn.srcId = some src →
      matchPattern t.graph op ≠ .none →
        (if matchPattern t.graph op = .reshapeChain then
          src.inputs.all fun conn' => (t.graph.getOpAt conn'.srcId).all fun s =>
            !odEqual s.outputDef op.outputDef && !isReshape s
        else !isReshape src) = true := by
    intro conn src hinputs hsrc hne
    rw [decide_eq_false hne, Bool.false_or] at h
    have hall := List.all_eq_true.mp h conn (hinputs ▸ List.mem_singleton_self conn)
    rwa [hsrc, Option.all_some] at hall
  constructor
  · intro _ conn src hinputs hsrc hmatch b ob _ _ _ _ _ hres
    have hne : matchPattern t.graph op ≠ .none ∧ matchPattern t.graph op ≠ .reshapeChain := by
      obtain h | h := hmatch <;> rw [h] <;> decide
    have hsource := hcalm conn src hinputs hsrc hne.1
    rw [if_neg hne.2, hres] at hsource
    cases hsource
  · intro _ conn src hinputs hsrc hchain _ conn' s hinputs' hs _ _ _
    have hsource := hcalm conn src hinputs hsrc (by rw [hchain]; decide)
    rw [if_pos hchain] at hsource
    have hall := List.all_eq_true.mp hsource conn' (hinputs' ▸ List.mem_singleton_self conn')
    rw [hs, Option.all_some, Bool.and_eq_true, Bool.not_eq_true', Bool.not_eq_true'] at hall
    exact ⟨hall.1, fun hres => absurd (hall.2.symm.trans hres) Bool.false_ne_true⟩
  · intro hphase
    exact absurd hphase (by decide)

/-- An input, two reshapes, an output of the second one's shape. -/
def twoReshapes : PassGraph :=
  graphOf [linkOp 0 "Input" 4 [] [1], linkOp 1 "Reshape" 2 [⟨0, 0⟩] [2],
    linkOp 2 "Reshape" 3 [⟨1, 0⟩] [3], linkOp 3 "Output" 3 [⟨2, 0⟩] []] (by decide)

/-- The second reshape takes the place of the first, and nothing matches any more. -/
theorem twoReshapes_complete : ∃ n s,
    (∀ k, n ≤ k → runPhase (builtinPasses (fun _ _ _ _ => 0) fun _ => true) 10190 [0, 1, 2, 3]
      twoReshapes k = some s) ∧
    ∀ i op, s.graph.getOpAt i = some op → isLive op = true →
      ∀ p ∈ activePasses (builtinPasses (fun _ _ _ _ => 0) fun _ => true) 10190,
        p.matcher s.graph op = false := by
  obtain ⟨n, s, hrun, hnone⟩ := runPhase_complete (fun _ _ _ _ => 0) (fun _ => true) 10190
    [0, 1, 2, 3] twoReshapes (by decide)
  refine ⟨n, s, hrun, hnone (graphOf_listed (by decide)) fun t a v hsteps => ?_⟩
  have hcalm : Worklist.everyVisit
      (visitOp (activePasses (builtinPasses (fun _ _ _ _ => 0) fun _ => true) 10190)) calm 9
      ⟨twoReshapes, 0⟩ (seeds twoReshapes [0, 1, 2, 3]) = true := by decide
  exact visitOk_of_calm (Worklist.of_everyVisit hcalm hsteps)

/-- An input, three reshapes in a row, an output. -/
def threeReshapes : PassGraph :=
  graphOf [linkOp 0 "Input" 1 [] [1], linkOp 1 "Reshape" 2 [⟨0, 0⟩] [2],
    linkOp 2 "Reshape" 3 [⟨1, 0⟩] [3], linkOp 3 "Reshape" 4 [⟨2, 0⟩] [4],
    linkOp 4 "Output" 4 [⟨3, 0⟩] []] (by decide)

/-- The last of three reshapes takes the place of the second and is not visited again, although it
now reads the first. -/
theorem threeReshapes_missed : ¬ ∀ (kernels : Kernels) (switch : GraphPass → Bool) (phase : ℕ)
    (order : List ℕ) (g : PassGraph), order.Perm g.keys → ∀ n s,
      runPhase (builtinPasses kernels switch) phase order g n = some s →
        ∀ i op, s.graph.getOpAt i = some op → isLive op = true →
          ∀ p ∈ activePasses (builtinPasses kernels switch) phase,
            p.matcher s.graph op = false := by
  intro h
  have hleft : (runPhase (builtinPasses (fun _ _ _ _ => 0) fun _ => true) 10190 [0, 1, 2, 3, 4]
      threeReshapes 20).any (fun s => (s.graph.getOpAt 3).any fun op => isLive op &&
        (activePasses (builtinPasses (fun _ _ _ _ => 0) fun _ => true) 10190).any
          fun p => p.matcher s.graph op) = true := by decide
  obtain ⟨s, hs, hop⟩ := (Option.any_eq_true _ _).mp hleft
  obtain ⟨op, hop, hmatch⟩ := (Option.any_eq_true _ _).mp hop
  rw [Bool.and_eq_true, List.any_eq_true] at hmatch
  obtain ⟨hlive, p, hp, hmatch⟩ := hmatch
  rw [h (fun _ _ _ _ => 0) (fun _ => true) 10190 [0, 1, 2, 3, 4] threeReshapes (by decide) 20 s hs
    3 op hop hlive p hp] at hmatch
  cases hmatch

end Gehtp.Analysis.PassComplete
