import Mathlib.Data.List.Nodup
import Gehtp.Analysis.FileQueueFrames

/-!
# When a call gets its own response

Nothing in the two files says whose they are, and nothing keeps two calls apart. If a call starts
only when no other call waits, `req.bin` is gone and the runner is between two requests, then
until the next call starts everything in the two files and in the runner is this call's. Each
request is then executed at most once, and a response that is returned is the one to the call's own
request.

Both ways to break the condition break the result: two calls at once read each other's responses,
and so does a call that follows one whose request is still with the runner.
-/

set_option autoImplicit false

namespace Gehtp.Analysis.FileQueueExact

open Lib Model.FileQueue FileQueueFrames

variable {D : Type} {inBytes : ℕ}

/-! ### The condition and the result -/

/-- The call has touched the files and has not got a response yet. -/
def Waiting : Stage → Prop
  | .cleaned | .pushing _ | .polling | .seen => True
  | _ => False

def Quiet (s : Sys D) : Prop :=
  (∀ c, ¬ Waiting (s.calls c)) ∧ s.req = none ∧ (s.runner = .idle ∨ s.runner = .stopped)

/-- A call starts only in a quiet state. -/
def StartsQuiet : Event → Sys D → Prop
  | .rmResp _, s => Quiet s
  | _, _ => True

/-- The calls whose requests were executed. -/
def served (s : Sys D) : List ℕ := s.log.map Handled.call

/-- A returned response is the one to the call's own request, which was executed exactly once, and
no request was executed twice. -/
structure Exact (reqs : ℕ → Request inBytes) (s : Sys D) : Prop where
  own : ∀ c out, s.calls c = .returned out → ⟨c, (reqs c).payload, out⟩ ∈ s.log
  executed : ∀ c out, s.calls c = .returned out → (served s).count c = 1
  once : ∀ c, (served s).count c ≤ 1

/-! ### Whose turn it is -/

/-- A refusal, or the response to the request of `c`. -/
def Answers (reqs : ℕ → Request inBytes) (c : ℕ) (s : Sys D) (json : List UInt8) : Prop :=
  json.length < 2 ^ 32 ∧ (rcOf json ≠ 0 ∨ ⟨c, (reqs c).payload, json⟩ ∈ s.log)

/-- What the runner holds is of the call `c`. -/
def RunnerOk (reqs : ℕ → Request inBytes) (c : ℕ) (s : Sys D) : Runner → Prop
  | .idle | .drop _ | .stopped => True
  | .header hdrLen => hdrLen = (reqs c).hdr.length
  | .body want => want = (reqs c).payload.length
  | .claim d buf => d = c ∧ buf = (reqs c).payload ∧ c ∉ served s
  | .serve d buf => d = c ∧ buf = (reqs c).payload ∧ c ∉ served s ∧ s.req = none
  | .reply json _ => Answers reqs c s json
  | .opened json _ => Answers reqs c s json ∧ ∀ data, s.resp = some data → data = []
  | .half json _ =>
    Answers reqs c s json ∧ ∀ data, s.resp = some data → data = be32 json.length

/-- The call has not written its request yet. -/
def Early (st : Stage) : Prop := st = .fresh ∨ st = .cleaned

/-- All that is in the files and in the runner is of the call `c`. -/
structure Turn (reqs : ℕ → Request inBytes) (c : ℕ) (s : Sys D) : Prop where
  alone : ∀ d, d ≠ c → ¬ Waiting (s.calls d)
  req : ∀ f, s.req = some f →
    f.owner = c ∧ (∃ k, f.data = (reqs c).payload.take k) ∧ c ∉ served s
  early : Early (s.calls c) →
    s.req = none ∧ (s.runner = .idle ∨ s.runner = .stopped) ∧ c ∉ served s
  runner : RunnerOk reqs c s s.runner
  resp : ∀ data, s.resp = some data →
    ∃ json k, Answers reqs c s json ∧ data = (frame json).take k

structure Inv (reqs : ℕ → Request inBytes) (s : Sys D) : Prop where
  turn : ∃ c, Turn reqs c s
  pulled : ∀ c data out, s.calls c = .pulled data → parseResp data = .returned out →
    ⟨c, (reqs c).payload, out⟩ ∈ s.log
  own : ∀ c out, s.calls c = .returned out → ⟨c, (reqs c).payload, out⟩ ∈ s.log
  nodup : (served s).Nodup
  fresh : ∀ c, s.calls c = .fresh → c ∉ served s

variable {reqs : ℕ → Request inBytes} {s s' : Sys D} {c d : ℕ}

theorem Inv.exact (h : Inv reqs s) : Exact reqs s := by
  have hone : ∀ c, (served s).count c ≤ 1 := List.nodup_iff_count_le_one.mp h.nodup
  refine ⟨h.own, ?_, hone⟩
  intro c out hc
  have hmem : c ∈ served s := List.mem_map_of_mem (h.own c out hc)
  exact Nat.le_antisymm (hone c) (List.one_le_count_iff.mpr hmem)

theorem inv_start (d : D) : Inv reqs (start d) where
  turn := by
    refine ⟨0, ?_, ?_, ?_, trivial, ?_⟩
    · intro d _ hw
      exact hw
    · intro f hf
      cases hf
    · intro _
      exact ⟨rfl, Or.inl rfl, List.not_mem_nil⟩
    · intro data hdata
      cases hdata
  pulled c data out h := by cases h
  own c out h := by cases h
  nodup := List.nodup_nil
  fresh c _ := List.not_mem_nil

/-! ### Steps of the host -/

@[simp] theorem setCall_calls (s : Sys D) (c : ℕ) (st : Stage) :
    (s.setCall c st).calls = Function.update s.calls c st := rfl

theorem RunnerOk.of_le {r : Runner} (h : RunnerOk reqs c s r) (hlog : s'.log = s.log)
    (hreq : s.req = none → s'.req = none)
    (hresp : ∀ data, s'.resp = some data → s.resp = some data) : RunnerOk reqs c s' r := by
  cases r with
  | claim e buf =>
    unfold RunnerOk served at h ⊢
    rw [hlog]
    exact h
  | serve e buf =>
    unfold RunnerOk served at h ⊢
    rw [hlog]
    exact ⟨h.1, h.2.1, h.2.2.1, hreq h.2.2.2⟩
  | reply json stop =>
    unfold RunnerOk Answers at h ⊢
    rw [hlog]
    exact h
  | opened json stop =>
    unfold RunnerOk Answers at h ⊢
    rw [hlog]
    exact ⟨h.1, fun data hdata => h.2 data (hresp data hdata)⟩
  | half json stop =>
    unfold RunnerOk Answers at h ⊢
    rw [hlog]
    exact ⟨h.1, fun data hdata => h.2 data (hresp data hdata)⟩
  | _ => exact h

theorem runnerOk_of_between {r : Runner} (h : r = .idle ∨ r = .stopped) : RunnerOk reqs c s r := by
  cases h with
  | inl h =>
    rw [h]
    trivial
  | inr h =>
    rw [h]
    trivial

theorem Turn.setCall (h : Turn reqs c s) (d : ℕ) (st : Stage) (hw : d ≠ c → ¬ Waiting st)
    (he : d = c → ¬ Early st) : Turn reqs c (s.setCall d st) where
  alone e hec := by
    rw [setCall_calls, Function.update_apply]
    split
    · rename_i hed
      subst hed
      exact hw hec
    · exact h.alone e hec
  req := h.req
  early hearly := by
    rw [setCall_calls, Function.update_apply] at hearly
    split at hearly
    · rename_i hcd
      exact absurd hearly (he hcd.symm)
    · exact h.early hearly
  runner := h.runner.of_le rfl id fun _ hdata => hdata
  resp := h.resp

theorem Turn.rmRespFile (h : Turn reqs c s) : Turn reqs c s.rmRespFile where
  alone := h.alone
  req := h.req
  early := h.early
  runner := h.runner.of_le rfl id fun _ hdata => by cases hdata
  resp data hdata := by cases hdata

theorem Turn.eq_of_waiting (h : Turn reqs c s) (hw : Waiting (s.calls d)) : d = c := by
  by_contra hdc
  exact h.alone d hdc hw

/-- What a step of the host on call `d` leaves to be shown: it is still some call's turn, and what
`d` has got is its own. -/
theorem Inv.setCall (h : Inv reqs s) (d : ℕ) (st : Stage)
    (hcalls : s'.calls = Function.update s.calls d st) (hlog : s'.log = s.log)
    (hturn : ∃ c, Turn reqs c s') (hst : st ≠ .fresh)
    (hpulled : ∀ data out, st = .pulled data → parseResp data = .returned out →
      ⟨d, (reqs d).payload, out⟩ ∈ s.log)
    (hown : ∀ out, st = .returned out → ⟨d, (reqs d).payload, out⟩ ∈ s.log) : Inv reqs s' where
  turn := hturn
  pulled c data out hc hout := by
    rw [hcalls, Function.update_apply] at hc
    rw [hlog]
    split at hc
    · rename_i hcd
      subst hcd
      exact hpulled data out hc hout
    · exact h.pulled c data out hc hout
  own c out hc := by
    rw [hcalls, Function.update_apply] at hc
    rw [hlog]
    split at hc
    · rename_i hcd
      subst hcd
      exact hown out hc
    · exact h.own c out hc
  nodup := by
    unfold served
    rw [hlog]
    exact h.nodup
  fresh c hc := by
    unfold served
    rw [hlog]
    rw [hcalls, Function.update_apply] at hc
    split at hc
    · exact absurd hc hst
    · exact h.fresh c hc

theorem inv_rmResp (h : Inv reqs s) (hq : Quiet s) (hs : rmResp d s = some s') : Inv reqs s' := by
  unfold rmResp at hs
  split at hs
  · rename_i hd
    cases hs
    obtain ⟨hwait, hreq, hrun⟩ := hq
    have hturn : Turn reqs d (s.setCall d .cleaned).rmRespFile := by
      refine ⟨?_, ?_, ?_, runnerOk_of_between hrun, ?_⟩
      · intro e hed
        show ¬ Waiting (Function.update s.calls d .cleaned e)
        rw [Function.update_of_ne hed]
        exact hwait e
      · intro f hf
        have hf' : s.req = some f := hf
        rw [hreq] at hf'
        cases hf'
      · intro _
        exact ⟨hreq, hrun, h.fresh d hd⟩
      · intro data hdata
        cases hdata
    exact h.setCall d .cleaned rfl rfl ⟨d, hturn⟩ (by simp) (by simp) (by simp)
  · cases hs

theorem inv_pushOpen (h : Inv reqs s) (hs : pushOpen d s = some s') : Inv reqs s' := by
  unfold pushOpen at hs
  split at hs
  · rename_i hd
    cases hs
    obtain ⟨c, ht⟩ := h.turn
    have hdc : d = c := ht.eq_of_waiting (by rw [hd]; trivial)
    subst hdc
    obtain ⟨hreq, hrun, hlog⟩ := ht.early (by rw [hd]; exact Or.inr rfl)
    have hmid := ht.setCall d (.pushing 0) (fun hne => absurd rfl hne) (by simp [Early])
    refine h.setCall d (.pushing 0) rfl rfl ?_ (by simp) (by simp) (by simp)
    refine ⟨d, hmid.alone, ?_, ?_, runnerOk_of_between hrun, hmid.resp⟩
    · intro f hf
      cases hf
      exact ⟨rfl, ⟨0, rfl⟩, hlog⟩
    · intro hearly
      simp [Early] at hearly
  · cases hs

theorem inv_pushPart {n : ℕ} (h : Inv reqs s)
    (hs : pushPart (reqs d).payload d n s = some s') : Inv reqs s' := by
  unfold pushPart at hs
  split at hs
  · rename_i k hd
    cases hs
    obtain ⟨c, ht⟩ := h.turn
    have hdc : d = c := ht.eq_of_waiting (by rw [hd]; trivial)
    subst hdc
    have hmid := ht.setCall d (.pushing (k + n)) (fun hne => absurd rfl hne) (by simp [Early])
    refine h.setCall d (.pushing (k + n)) rfl rfl ?_ (by simp) (by simp) (by simp)
    refine ⟨d, hmid.alone, ?_, ?_, ht.runner.of_le rfl ?_ fun _ hdata => hdata, hmid.resp⟩
    · intro f hf
      obtain ⟨f', hf', hff'⟩ := Option.map_eq_some_iff.mp hf
      obtain ⟨howner, -, hlog⟩ := ht.req f' hf'
      rw [if_pos howner] at hff'
      cases hff'
      exact ⟨rfl, ⟨k + n, rfl⟩, hlog⟩
    · intro hearly
      simp [Early] at hearly
    · intro hreq
      show s.req.map _ = none
      rw [hreq]
      rfl
  · cases hs

theorem inv_pushDone (h : Inv reqs s) (hs : pushDone (reqs d).payload d s = some s') :
    Inv reqs s' := by
  unfold pushDone at hs
  split at hs
  · rename_i k hd
    obtain ⟨-, hs⟩ := Option.ite_none_right_eq_some.mp hs
    cases hs
    obtain ⟨c, ht⟩ := h.turn
    have hdc : d = c := ht.eq_of_waiting (by rw [hd]; trivial)
    subst hdc
    have hturn := ht.setCall d .polling (fun hne => absurd rfl hne) (by simp [Early])
    exact h.setCall d .polling rfl rfl ⟨d, hturn⟩ (by simp) (by simp) (by simp)
  · cases hs

theorem inv_poll (h : Inv reqs s) (hs : poll d s = some s') : Inv reqs s' := by
  unfold poll at hs
  split at hs
  · rename_i hd
    split at hs
    · cases hs
      exact h
    · cases hs
      obtain ⟨c, ht⟩ := h.turn
      have hdc : d = c := ht.eq_of_waiting (by rw [hd]; trivial)
      subst hdc
      have hturn := ht.setCall d .seen (fun hne => absurd rfl hne) (by simp [Early])
      exact h.setCall d .seen rfl rfl ⟨d, hturn⟩ (by simp) (by simp) (by simp)
  · cases hs

theorem inv_ends (h : Inv reqs s) : Inv reqs (s.setCall d .raised) := by
  obtain ⟨c, ht⟩ := h.turn
  have hturn := ht.setCall d .raised (fun _ hw => hw) (by simp [Early])
  exact h.setCall d .raised rfl rfl ⟨c, hturn⟩ (by simp) (by simp) (by simp)

theorem inv_pull (h : Inv reqs s) (hs : pull d s = some s') : Inv reqs s' := by
  unfold pull at hs
  split at hs
  · rename_i hd
    split at hs
    · cases hs
      exact inv_ends h
    · rename_i data hresp
      cases hs
      obtain ⟨c, ht⟩ := h.turn
      have hdc : d = c := ht.eq_of_waiting (by rw [hd]; trivial)
      subst hdc
      have hturn := ht.setCall d (.pulled data) (fun hne => absurd rfl hne) (by simp [Early])
      refine h.setCall d (.pulled data) rfl rfl ⟨d, hturn⟩ (by simp) ?_ (by simp)
      intro data' out hdata hout
      cases hdata
      obtain ⟨json, k, ⟨hlen, hjson⟩, rfl⟩ := ht.resp data hresp
      obtain ⟨rfl, hrc⟩ := parseResp_frame hlen hout
      exact hjson.resolve_left (not_not.mpr hrc)
  · cases hs

theorem parseResp_cases (data : List UInt8) :
    parseResp data = .raised ∨ ∃ out, parseResp data = .returned out := by
  unfold parseResp
  dsimp only
  split_ifs
  · exact Or.inl rfl
  · exact Or.inl rfl
  · exact Or.inl rfl
  · exact Or.inr ⟨_, rfl⟩

theorem inv_finish (h : Inv reqs s) (hs : finish d s = some s') : Inv reqs s' := by
  unfold finish at hs
  split at hs
  · rename_i data hd
    cases hs
    obtain ⟨c, ht⟩ := h.turn
    rcases parseResp_cases data with hp | ⟨out, hp⟩
    · rw [hp]
      have hturn := (ht.setCall d .raised (fun _ hw => hw) (by simp [Early])).rmRespFile
      exact h.setCall d .raised rfl rfl ⟨c, hturn⟩ (by simp) (by simp) (by simp)
    · rw [hp]
      have hturn := (ht.setCall d (.returned out) (fun _ hw => hw) (by simp [Early])).rmRespFile
      refine h.setCall d (.returned out) rfl rfl ⟨c, hturn⟩ (by simp) (by simp) ?_
      intro out' hout
      cases hout
      exact h.pulled d data out hd hp
  · cases hs

theorem inv_giveUp (h : Inv reqs s) (hs : giveUp d s = some s') : Inv reqs s' := by
  unfold giveUp at hs
  split at hs
  · cases hs
  · cases hs
    exact inv_ends h

/-! ### Steps of the runner -/

theorem Inv.ofTurn (h : Inv reqs s) (hcalls : s'.calls = s.calls) (hlog : s'.log = s.log)
    (hturn : ∃ c, Turn reqs c s') : Inv reqs s' where
  turn := hturn
  pulled c data out hc hout := by
    rw [hcalls] at hc
    rw [hlog]
    exact h.pulled c data out hc hout
  own c out hc := by
    rw [hcalls] at hc
    rw [hlog]
    exact h.own c out hc
  nodup := by
    unfold served
    rw [hlog]
    exact h.nodup
  fresh c hc := by
    unfold served
    rw [hcalls] at hc
    rw [hlog]
    exact h.fresh c hc

theorem Turn.late_of_req (h : Turn reqs c s) {f : ReqFile} (hf : s.req = some f) :
    ¬ Early (s.calls c) := by
  intro he
  rw [(h.early he).1] at hf
  cases hf

theorem Turn.late_of_runner (h : Turn reqs c s) (hi : s.runner ≠ .idle)
    (hst : s.runner ≠ .stopped) : ¬ Early (s.calls c) := by
  intro he
  exact (h.early he).2.1.elim hi hst

theorem Turn.runner_eq (h : Turn reqs c s) {r : Runner} (hr : s.runner = r) :
    RunnerOk reqs c s r := by
  rw [← hr]
  exact h.runner

theorem Turn.setRunner (h : Turn reqs c s) (r : Runner) (hr : RunnerOk reqs c s r)
    (hlate : ¬ Early (s.calls c)) : Turn reqs c { s with runner := r } where
  alone := h.alone
  req := h.req
  early he := absurd he hlate
  runner := hr.of_le rfl id fun _ hdata => hdata
  resp := h.resp

theorem Turn.rmReq (h : Turn reqs c s) (r : Runner)
    (hr : RunnerOk reqs c { s with req := none } r) (hlate : ¬ Early (s.calls c)) :
    Turn reqs c { s with req := none, runner := r } where
  alone := h.alone
  req f hf := by cases hf
  early he := absurd he hlate
  runner := hr.of_le rfl id fun _ hdata => hdata
  resp := h.resp

theorem turn_lookIdle (t : Tick) (h : Turn reqs c s) : Turn reqs c (lookIdle t s) := by
  unfold lookIdle
  split
  · exact h
  · rename_i f hf
    have hlate := h.late_of_req hf
    obtain ⟨-, ⟨k, hdata⟩, -⟩ := h.req f hf
    split_ifs with h4 hbad
    · exact h
    · exact h.setRunner _ trivial hlate
    · apply h.setRunner _ _ hlate
      show ofBe32 f.data = (reqs c).hdr.length
      rw [hdata] at h4 ⊢
      exact ofBe32_payload_take (reqs c) (by omega)

theorem turn_lookHeader (t : Tick) {hdrLen : ℕ} (h : Turn reqs c s)
    (hr : s.runner = .header hdrLen) : Turn reqs c (lookHeader inBytes hdrLen t s) := by
  have hlate := h.late_of_runner (by rw [hr]; simp) (by rw [hr]; simp)
  have hlen : hdrLen = (reqs c).hdr.length := h.runner_eq hr
  unfold lookHeader
  split
  · exact h.setRunner _ trivial hlate
  · rename_i f hf
    obtain ⟨-, ⟨k, hdata⟩, -⟩ := h.req f hf
    split_ifs with hfull hfault hto
    · exact h.setRunner _ trivial hlate
    · apply h.setRunner _ _ hlate
      show wantOf inBytes hdrLen ((f.data.drop 4).take hdrLen ++ t.junk.take 4)
        = (reqs c).payload.length
      rw [hdata, hlen] at hfull ⊢
      rw [header_payload_take (reqs c) hfull]
      exact wantOf_eq (reqs c) _
    · exact h.setRunner _ trivial hlate
    · exact h

theorem turn_lookBody (t : Tick) {want : ℕ} (h : Turn reqs c s) (hr : s.runner = .body want) :
    Turn reqs c (lookBody want t s) := by
  have hlate := h.late_of_runner (by rw [hr]; simp) (by rw [hr]; simp)
  have hwant : want = (reqs c).payload.length := h.runner_eq hr
  unfold lookBody
  split
  · exact h.setRunner _ trivial hlate
  · rename_i f hf
    obtain ⟨howner, ⟨k, hdata⟩, hlog⟩ := h.req f hf
    split_ifs with hfull
    · exact h.setRunner _ trivial hlate
    · apply h.setRunner _ _ hlate
      refine ⟨howner, ?_, hlog⟩
      rw [hdata, hwant] at hfull
      rw [hdata]
      exact payload_take_eq (reqs c) hfull
    · exact h.setRunner _ trivial hlate
    · exact h.setRunner _ trivial hlate
    · exact h

theorem answers_errText (e : ReqError) : Answers reqs c s (errText e) := by
  have hlen := errText_length e
  refine ⟨by omega, Or.inl ?_⟩
  rw [rcOf_errText]
  decide

theorem turn_claimReq (t : Tick) {e : ℕ} {buf : List UInt8} (h : Turn reqs c s)
    (hr : s.runner = .claim e buf) : Turn reqs c (claimReq e buf t s) := by
  have hlate := h.late_of_runner (by rw [hr]; simp) (by rw [hr]; simp)
  have hok := h.runner_eq hr
  unfold claimReq
  split
  · exact h.rmReq _ (answers_errText _) hlate
  · exact h.rmReq _ ⟨hok.1, hok.2.1, hok.2.2, rfl⟩ hlate

theorem turn_dropReq {err : ReqError} (h : Turn reqs c s) (hr : s.runner = .drop err) :
    Turn reqs c (dropReq err s) := by
  have hlate := h.late_of_runner (by rw [hr]; simp) (by rw [hr]; simp)
  exact h.rmReq _ (answers_errText err) hlate

theorem afterReply_between (stop : Bool) : afterReply stop = .idle ∨ afterReply stop = .stopped := by
  cases stop with
  | false => exact Or.inl rfl
  | true => exact Or.inr rfl

theorem Turn.afterReply (h : Turn reqs c s) (stop : Bool) (hlate : ¬ Early (s.calls c)) :
    Turn reqs c { s with runner := afterReply stop } :=
  h.setRunner _ (runnerOk_of_between (afterReply_between stop)) hlate

theorem turn_openResp (t : Tick) {json : List UInt8} {stop : Bool} (h : Turn reqs c s)
    (hr : s.runner = .reply json stop) : Turn reqs c (openResp json stop t s) := by
  have hlate := h.late_of_runner (by rw [hr]; simp) (by rw [hr]; simp)
  have hok := h.runner_eq hr
  unfold openResp
  split
  · exact h.afterReply stop hlate
  · refine ⟨h.alone, h.req, fun he => absurd he hlate, ⟨hok, ?_⟩, ?_⟩
    · intro data hdata
      cases hdata
      rfl
    · intro data hdata
      cases hdata
      exact ⟨json, 0, hok, rfl⟩

theorem turn_writeLen (t : Tick) {json : List UInt8} {stop : Bool} (h : Turn reqs c s)
    (hr : s.runner = .opened json stop) : Turn reqs c (writeLen json stop t s) := by
  have hlate := h.late_of_runner (by rw [hr]; simp) (by rw [hr]; simp)
  have hok := h.runner_eq hr
  have hdata : ∀ data, s.resp.map (· ++ be32 json.length) = some data →
      data = be32 json.length := by
    intro data hd
    obtain ⟨data', hd', rfl⟩ := Option.map_eq_some_iff.mp hd
    rw [hok.2 data' hd']
    rfl
  unfold writeLen
  split
  · exact h.afterReply stop hlate
  · refine ⟨h.alone, h.req, fun he => absurd he hlate, ⟨hok.1, hdata⟩, ?_⟩
    intro data hd
    rw [hdata data hd]
    exact ⟨json, 4, hok.1, (List.take_left' (be32_length _)).symm⟩

theorem turn_writeText (t : Tick) {json : List UInt8} {stop : Bool} (h : Turn reqs c s)
    (hr : s.runner = .half json stop) : Turn reqs c (writeText json stop t s) := by
  have hlate := h.late_of_runner (by rw [hr]; simp) (by rw [hr]; simp)
  have hok := h.runner_eq hr
  unfold writeText
  split
  · exact h.afterReply stop hlate
  · have hbetween := afterReply_between stop
    refine ⟨h.alone, h.req, fun he => absurd he hlate, runnerOk_of_between hbetween, ?_⟩
    intro data hd
    obtain ⟨data', hd', rfl⟩ := Option.map_eq_some_iff.mp hd
    rw [hok.2 data' hd']
    exact ⟨json, (frame json).length, hok.1, List.take_length.symm⟩

theorem handleRequest_frame (E : Engine D) (buf : List UInt8) (us : ℕ) (s : Sys D) :
    (handleRequest E buf us s).2.2.calls = s.calls ∧ (handleRequest E buf us s).2.2.req = s.req ∧
      (handleRequest E buf us s).2.2.resp = s.resp := by
  unfold handleRequest runOp
  dsimp only
  split_ifs <;> exact ⟨rfl, rfl, rfl⟩

/-- The one step that executes a request: it is the one of the call whose turn it is, and it has
not been executed before. -/
theorem inv_serveReq (E : Engine D) (t : Tick) {e : ℕ} {buf : List UInt8} (h : Inv reqs s)
    (hr : s.runner = .serve e buf) : Inv reqs (serveReq E e buf t s) := by
  obtain ⟨c, ht⟩ := h.turn
  have hlate := ht.late_of_runner (by rw [hr]; simp) (by rw [hr]; simp)
  obtain ⟨rfl, rfl, hnew, hreq⟩ := ht.runner_eq hr
  unfold serveReq
  split
  · exact h.ofTurn rfl rfl ⟨e, ht.setRunner _ trivial hlate⟩
  · obtain ⟨hcalls, hreq', hresp⟩ := handleRequest_frame E (reqs e).payload t.us s
    have hlen := handleRequest_length E (reqs e).payload t.us s
    dsimp only
    generalize handleRequest E (reqs e).payload t.us s = r at hcalls hreq' hresp hlen ⊢
    have hmem : ∀ x ∈ s.log, x ∈ s.log ++ [Handled.mk e (reqs e).payload r.1] :=
      fun x hx => List.mem_append_left _ hx
    have hserved : (s.log ++ [Handled.mk e (reqs e).payload r.1]).map Handled.call
        = served s ++ [e] := by
      rw [List.map_append]
      rfl
    refine ⟨⟨e, ?_, ?_, ?_, ?_, ?_⟩, ?_, ?_, ?_, ?_⟩
    · intro d hde
      show ¬ Waiting (r.2.2.calls d)
      rw [hcalls]
      exact ht.alone d hde
    · intro f hf
      have hf' : r.2.2.req = some f := hf
      rw [hreq', hreq] at hf'
      cases hf'
    · intro he
      change Early (r.2.2.calls e) at he
      rw [hcalls] at he
      exact absurd he hlate
    · refine ⟨by omega, Or.inr ?_⟩
      exact List.mem_append_right _ List.mem_cons_self
    · intro data hdata
      change r.2.2.resp = some data at hdata
      rw [hresp] at hdata
      obtain ⟨json, k, ⟨hl, hjson⟩, hk⟩ := ht.resp data hdata
      exact ⟨json, k, ⟨hl, hjson.imp_right (hmem _)⟩, hk⟩
    · intro c data out hc hout
      change r.2.2.calls c = _ at hc
      rw [hcalls] at hc
      exact hmem _ (h.pulled c data out hc hout)
    · intro c out hc
      change r.2.2.calls c = _ at hc
      rw [hcalls] at hc
      exact hmem _ (h.own c out hc)
    · unfold served
      dsimp only
      rw [hserved]
      exact List.nodup_append_comm.mp (List.nodup_cons.mpr ⟨hnew, h.nodup⟩)
    · intro c hc
      change r.2.2.calls c = _ at hc
      rw [hcalls] at hc
      unfold served
      dsimp only
      rw [hserved, List.mem_append, List.mem_singleton]
      intro hor
      cases hor with
      | inl hin => exact h.fresh c hc hin
      | inr hce =>
        subst hce
        exact hlate (Or.inl hc)

theorem runnerStep_frame (E : Engine D) (inBytes : ℕ) (t : Tick)
    (hr : ∀ e buf, s.runner ≠ .serve e buf) :
    (runnerStep E inBytes t s).calls = s.calls ∧ (runnerStep E inBytes t s).log = s.log := by
  unfold runnerStep
  cases hrun : s.runner with
  | serve e buf => exact absurd hrun (hr e buf)
  | idle =>
    dsimp only [lookIdle]
    split
    · exact ⟨rfl, rfl⟩
    · split_ifs <;> exact ⟨rfl, rfl⟩
  | header hdrLen =>
    dsimp only [lookHeader]
    split
    · exact ⟨rfl, rfl⟩
    · split_ifs <;> exact ⟨rfl, rfl⟩
  | body want =>
    dsimp only [lookBody]
    split
    · exact ⟨rfl, rfl⟩
    · split_ifs <;> exact ⟨rfl, rfl⟩
  | claim e buf =>
    dsimp only [claimReq]
    split_ifs <;> exact ⟨rfl, rfl⟩
  | drop err => exact ⟨rfl, rfl⟩
  | reply json stop =>
    dsimp only [openResp]
    split_ifs <;> exact ⟨rfl, rfl⟩
  | opened json stop =>
    dsimp only [writeLen]
    split_ifs <;> exact ⟨rfl, rfl⟩
  | half json stop =>
    dsimp only [writeText]
    split_ifs <;> exact ⟨rfl, rfl⟩
  | stopped => exact ⟨rfl, rfl⟩

theorem turn_runnerStep (E : Engine D) (t : Tick) (h : Turn reqs c s)
    (hr : ∀ e buf, s.runner ≠ .serve e buf) : Turn reqs c (runnerStep E inBytes t s) := by
  unfold runnerStep
  cases hrun : s.runner with
  | serve e buf => exact absurd hrun (hr e buf)
  | idle => exact turn_lookIdle t h
  | header hdrLen => exact turn_lookHeader t h hrun
  | body want => exact turn_lookBody t h hrun
  | claim e buf => exact turn_claimReq t h hrun
  | drop err => exact turn_dropReq h hrun
  | reply json stop => exact turn_openResp t h hrun
  | opened json stop => exact turn_writeLen t h hrun
  | half json stop => exact turn_writeText t h hrun
  | stopped => exact h

theorem inv_runnerStep (E : Engine D) (t : Tick) (h : Inv reqs s) :
    Inv reqs (runnerStep E inBytes t s) := by
  by_cases hr : ∃ e buf, s.runner = .serve e buf
  · obtain ⟨e, buf, hr⟩ := hr
    have hstep : runnerStep E inBytes t s = serveReq E e buf t s := by
      unfold runnerStep
      rw [hr]
    rw [hstep]
    exact inv_serveReq E t h hr
  · have hne : ∀ e buf, s.runner ≠ .serve e buf := fun e buf he => hr ⟨e, buf, he⟩
    have hframe := runnerStep_frame E inBytes t hne
    obtain ⟨c, ht⟩ := h.turn
    exact h.ofTurn hframe.1 hframe.2 ⟨c, turn_runnerStep E t ht hne⟩

theorem inv_idleExit (h : Inv reqs s) (hs : idleExit s = some s') : Inv reqs s' := by
  unfold idleExit at hs
  split at hs
  · cases hs
    obtain ⟨c, ht⟩ := h.turn
    refine h.ofTurn rfl rfl ⟨c, ht.alone, ht.req, ?_, trivial, ht.resp⟩
    intro he
    exact ⟨(ht.early he).1, Or.inr rfl, (ht.early he).2.2⟩
  · cases hs

/-! ### Runs -/

theorem inv_step (E : Engine D) (e : Event) (hq : StartsQuiet e s) (h : Inv reqs s)
    (hs : step E reqs e s = some s') : Inv reqs s' := by
  cases e with
  | rmResp c => exact inv_rmResp h hq hs
  | pushOpen c => exact inv_pushOpen h hs
  | pushPart c n => exact inv_pushPart h hs
  | pushDone c => exact inv_pushDone h hs
  | poll c => exact inv_poll h hs
  | pull c => exact inv_pull h hs
  | finish c => exact inv_finish h hs
  | giveUp c => exact inv_giveUp h hs
  | runner t =>
    cases hs
    exact inv_runnerStep E t h
  | idleExit => exact inv_idleExit h hs

/-- If every call starts in a quiet state, a response is returned to the call whose request it
answers, and no request is executed twice. -/
theorem rpc_exact (E : Engine D) (reqs : ℕ → Request inBytes) (d : D) (es : List Event) (s : Sys D)
    (hquiet : Runs.Meets (step E reqs) StartsQuiet es (start d))
    (hrun : Runs.run (step E reqs) es (start d) = some s) : Exact reqs s := by
  apply Inv.exact
  apply Runs.run_invariant_of_meets (I := Inv reqs) _ (inv_start d) hquiet hrun
  intro e s s' hq h hs
  exact inv_step E e hq h hs

/-! ### Two calls -/

def resetHdr : List UInt8 := ascii "\x7b\"op\":\"reset\",\"handle_id\":\"h\"\x7d"

def pingHdr : List UInt8 := ascii "\x7b\"op\":\"ping\"\x7d"

theorem resetHdr_framed : ∃ op, jsonGetStr (cstr resetHdr) "op" = some op ∧
    ([] : List UInt8).length = if op = ascii "run" then 388 else 0 :=
  ⟨ascii "reset", by decide, by decide⟩

theorem pingHdr_framed : ∃ op, jsonGetStr (cstr pingHdr) "op" = some op ∧
    ([] : List UInt8).length = if op = ascii "run" then 388 else 0 :=
  ⟨ascii "ping", by decide, by decide⟩

theorem resetHdr_small : 4 + resetHdr.length + ([] : List UInt8).length < 2 ^ 32 := by
  decide

theorem pingHdr_small : 4 + pingHdr.length + ([] : List UInt8).length < 2 ^ 32 := by
  decide

/-- The first call resets the state, the others look whether the runner is alive. -/
def resetThenPing (c : ℕ) : Request 388 :=
  if c = 0 then ⟨resetHdr, [], resetHdr_framed, resetHdr_small⟩
  else ⟨pingHdr, [], pingHdr_framed, pingHdr_small⟩

def countEngine : Engine ℕ where
  stateReset _ := 0
  runIo _ d := (⟨0, [], d⟩, d + 1)

def tick : Event := .runner ⟨false, false, [], 0⟩

def push (c : ℕ) : List Event := [.pushOpen c, .pushPart c 64, .pushDone c]

def collect (c : ℕ) : List Event := [.poll c, .pull c, .finish c]

def wholeCall (c : ℕ) : List Event := .rmResp c :: (push c ++ List.replicate 8 tick ++ collect c)

def bothCalls : List Event := wholeCall 0 ++ wholeCall 1

theorem wholeCall_run (c : ℕ) : (Runs.run (step countEngine resetThenPing) (wholeCall 0)
    (start 5)).map (fun s => (s.calls 0, s.calls (c + 1), s.req, s.runner)) =
      some (.returned (ascii "\x7b\"rc\":0,\"reset\":1\x7d"), .fresh, none, .idle) := by
  rfl

theorem bothCalls_run : ((Runs.run (step countEngine resetThenPing) bothCalls (start 5)).map
    fun s => (s.calls 0, s.calls 1, s.dev)) =
      some (.returned (ascii "\x7b\"rc\":0,\"reset\":1\x7d"),
        .returned (ascii "\x7b\"rc\":0,\"pong\":1\x7d"), 0) := by
  decide

theorem wholeCall_meets {c : ℕ} {s : Sys ℕ} (hquiet : Quiet s) :
    Runs.Meets (step countEngine resetThenPing) StartsQuiet (wholeCall c) s := by
  refine ⟨hquiet, fun s' _ => ?_⟩
  apply Runs.meets_of_forall
  intro e he s
  have hne : ∀ c, e ≠ .rmResp c := by
    intro c hc
    subst hc
    simp [push, collect, tick] at he
  cases e with
  | rmResp c => exact absurd rfl (hne c)
  | _ => trivial

/-- The second call starts where the first has left the files. -/
theorem bothCalls_meet :
    Runs.Meets (step countEngine resetThenPing) StartsQuiet bothCalls (start 5) := by
  have hstart : Quiet (start 5) := ⟨fun _ hw => hw, rfl, Or.inl rfl⟩
  apply Runs.meets_append (wholeCall_meets hstart)
  intro s hs
  apply wholeCall_meets
  have hrun : ∀ c, _ := fun c => (congrArg (Option.map _) hs).symm.trans (wholeCall_run c)
  simp only [Option.map_some, Option.some.injEq, Prod.mk.injEq] at hrun
  refine ⟨fun c hw => ?_, (hrun 0).2.2.1, Or.inl (hrun 0).2.2.2⟩
  cases c with
  | zero =>
    rw [(hrun 0).1] at hw
    exact hw
  | succ c =>
    rw [(hrun c).2.1] at hw
    exact hw

/-- Each of two calls in a row gets the answer to its own request. -/
theorem bothCalls_exact : ∃ s, Runs.run (step countEngine resetThenPing) bothCalls (start 5)
    = some s ∧ s.calls 1 = .returned (ascii "\x7b\"rc\":0,\"pong\":1\x7d") ∧
      Exact resetThenPing s := by
  obtain ⟨s, hs, hout⟩ := Option.map_eq_some_iff.mp bothCalls_run
  exact ⟨s, hs, congrArg (fun p => p.2.1) hout, rpc_exact _ _ 5 _ s bothCalls_meet hs⟩

/-- Both calls start, both push, and the first one to look gets the answer to the other. -/
def overlap : List Event :=
  [.rmResp 0, .rmResp 1] ++ push 0 ++ push 1 ++ List.replicate 8 tick ++ collect 0

theorem overlap_run : ((Runs.run (step countEngine resetThenPing) overlap (start 5)).map
    fun s => (s.calls 0, s.log.map Handled.call, s.dev))
      = some (.returned (ascii "\x7b\"rc\":0,\"pong\":1\x7d"), [1], 5) := by
  decide

/-- The call that was to reset the state returns although the state was not reset. -/
theorem overlap_not_exact : ¬ ∀ es s,
    Runs.run (step countEngine resetThenPing) es (start 5) = some s → Exact resetThenPing s := by
  intro h
  obtain ⟨s, hs, hout⟩ := Option.map_eq_some_iff.mp overlap_run
  have hcall : s.calls 0 = .returned (ascii "\x7b\"rc\":0,\"pong\":1\x7d") :=
    congrArg Prod.fst hout
  have hlog : served s = [1] := congrArg (fun p => p.2.1) hout
  have hone := (h overlap s hs).executed 0 _ hcall
  rw [hlog] at hone
  exact absurd hone (by decide)

end Gehtp.Analysis.FileQueueExact
