import Mathlib.Data.List.TakeWhile
import Gehtp.Model.FileQueue

/-!
# What each side reads from the other's frame

The runner reads the length, the header and the size of a request from a file that may still grow,
and gets them right as soon as it gets them at all: what it reads of a header does not depend on
the bytes after it. The host reads a response that may be half written, and takes it only when all
of it is there. No refusal of the runner is taken for a response.
-/

set_option autoImplicit false

namespace Gehtp.Analysis.FileQueueFrames

open Lib Model.FileQueue

/-! ### Searching a text -/

theorem strstr_spec {pat l r : List UInt8} (h : strstr pat l = some r) : pat <+: r ∧ r <:+ l := by
  induction l with
  | nil => cases h
  | cons b l ih =>
    unfold strstr at h
    split at h
    · cases h
      rename_i hp
      exact ⟨List.isPrefixOf_iff_prefix.mp hp, List.suffix_rfl⟩
    · exact ⟨(ih h).1, (ih h).2.trans (List.suffix_cons b l)⟩

theorem strstr_append {pat l r : List UInt8} (h : strstr pat l = some r) (t : List UInt8) :
    strstr pat (l ++ t) = some (r ++ t) := by
  induction l with
  | nil => cases h
  | cons b l ih =>
    unfold strstr at h
    rw [List.cons_append, strstr]
    split at h
    · rename_i hp
      cases h
      rw [if_pos]
      · rfl
      · rw [List.isPrefixOf_iff_prefix] at hp ⊢
        exact hp.trans (List.prefix_append (b :: l) t)
    · rename_i hp
      rw [if_neg, ih h]
      rw [List.isPrefixOf_iff_prefix] at hp ⊢
      intro hpre
      -- the pattern fits before the end of `l`, so a match here would not need `t`
      have hr := strstr_spec h
      have hlen : pat.length ≤ (b :: l).length :=
        hr.1.length_le.trans (hr.2.length_le.trans (Nat.le_succ _))
      exact hp (List.prefix_of_prefix_length_le hpre (List.prefix_append (b :: l) t) hlen)

theorem jsonGetStr_append {hdr v : List UInt8} {key : String} (h : jsonGetStr hdr key = some v)
    (t : List UInt8) : jsonGetStr (hdr ++ t) key = some v := by
  unfold jsonGetStr at h ⊢
  simp only [Option.bind_eq_bind, Option.bind_eq_some_iff] at h ⊢
  obtain ⟨p, hp, c, hc, s, hs, e, he, hv⟩ := h
  have hpl := (strstr_spec hp).1.length_le
  have hsl : 1 ≤ s.length := (strstr_spec hs).1.length_le
  have hel := (strstr_spec he).2.length_le
  refine ⟨p ++ t, strstr_append hp t, c ++ t, ?_, s ++ t, strstr_append hs t, e ++ t, ?_, ?_⟩
  · rw [List.drop_append_of_le_length hpl]
    exact strstr_append hc t
  · rw [List.drop_append_of_le_length hsl]
    exact strstr_append he t
  · rw [List.drop_append_of_le_length hsl, List.length_append, List.length_append,
      Nat.add_sub_add_right, List.take_append_of_le_length (Nat.sub_le _ _)]
    exact hv

theorem cstr_append (l t : List UInt8) : ∃ t', cstr (l ++ t) = cstr l ++ t' := by
  obtain ⟨t', ht'⟩ : cstr l <+: cstr (l ++ t) := by
    unfold cstr
    rw [List.takeWhile_append]
    split
    · rename_i hall
      rw [(List.takeWhile_prefix (· != 0)).eq_of_length hall]
      exact List.prefix_append l _
    · exact List.prefix_rfl
  exact ⟨t', ht'.symm⟩

/-! ### The length -/

@[simp] theorem be32_length (n : ℕ) : (be32 n).length = 4 := by
  simp [be32]

theorem ofBe32_be32 {n : ℕ} (h : n < 2 ^ 32) (l : List UInt8) : ofBe32 (be32 n ++ l) = n := by
  show (u32OfBytes _ _ _ _).toNat = n
  rw [u32OfBytes_u32le]
  exact UInt32.toNat_ofNat_of_lt h

theorem ofBe32_take {l : List UInt8} {k : ℕ} (h : 4 ≤ (l.take k).length) :
    ofBe32 (l.take k) = ofBe32 l := by
  rw [List.length_take] at h
  obtain ⟨k, rfl⟩ : ∃ j, k = j + 4 := ⟨k - 4, by omega⟩
  cases l with
  | nil => rfl
  | cons b0 l =>
  cases l with
  | nil => rfl
  | cons b1 l =>
  cases l with
  | nil => rfl
  | cons b2 l =>
  cases l with
  | nil => rfl
  | cons b3 l => rfl

/-! ### Requests -/

section Requests

variable {inBytes : ℕ} (r : Request inBytes)

theorem payload_length : r.payload.length = 4 + r.hdr.length + r.body.length := by
  simp [Request.payload, Nat.add_assoc]

theorem ofBe32_payload_take {k : ℕ} (h : 4 ≤ (r.payload.take k).length) :
    ofBe32 (r.payload.take k) = r.hdr.length := by
  have hsmall := r.small
  rw [ofBe32_take h, Request.payload, List.append_assoc, ofBe32_be32 (by omega)]

theorem header_payload_take {k : ℕ} (h : 4 + r.hdr.length ≤ (r.payload.take k).length) :
    ((r.payload.take k).drop 4).take r.hdr.length = r.hdr := by
  rw [List.length_take] at h
  rw [List.drop_take, List.take_take, Nat.min_eq_left (by omega), Request.payload,
    List.append_assoc]
  have hd : (be32 r.hdr.length ++ (r.hdr ++ r.body)).drop 4 = r.hdr ++ r.body :=
    List.drop_left' (be32_length _)
  rw [hd]
  exact List.take_left' rfl

theorem wantOf_eq (junk : List UInt8) :
    wantOf inBytes r.hdr.length (r.hdr ++ junk) = r.payload.length := by
  obtain ⟨op, hop, hlen⟩ := r.framed
  have hsmall := r.small
  obtain ⟨t, ht⟩ := cstr_append r.hdr junk
  have hget : jsonGetStr (cstr (r.hdr ++ junk)) "op" = some op := by
    rw [ht]
    exact jsonGetStr_append hop t
  rw [wantOf, hget, payload_length]
  by_cases hrun : op = ascii "run"
  · rw [if_pos hrun] at hlen
    rw [if_pos (congrArg some hrun), Nat.mod_eq_of_lt (by omega), hlen]
  · rw [if_neg hrun] at hlen
    rw [if_neg fun h => hrun (Option.some_inj.mp h), hlen]
    rfl

theorem payload_take_eq {k : ℕ} (h : (r.payload.take k).length = r.payload.length) :
    r.payload.take k = r.payload :=
  (List.take_prefix k r.payload).eq_of_length h

end Requests

/-! ### Responses -/

/-- What stands in `resp.bin` in the end. -/
def frame (json : List UInt8) : List UInt8 := be32 json.length ++ json

theorem parseResp_frame {json out : List UInt8} {k : ℕ} (hlen : json.length < 2 ^ 32)
    (h : parseResp ((frame json).take k) = .returned out) : out = json ∧ rcOf json = 0 := by
  unfold parseResp at h
  split at h
  · cases h
  rename_i h4
  have hbe : ofBe32 ((frame json).take k) = json.length := by
    rw [ofBe32_take (by omega), frame, ofBe32_be32 hlen]
  rw [hbe] at h
  split at h
  · cases h
  rename_i hn
  have hall : (frame json).take k = frame json := by
    apply (List.take_prefix k (frame json)).eq_of_length_le
    simp only [frame, List.length_append, be32_length]
    exact Nat.not_lt.mp hn
  have hjson : ((frame json).drop 4).take json.length = json := by
    rw [frame, List.drop_left' (be32_length _), List.take_length]
  rw [hall, hjson] at h
  dsimp only at h
  split at h
  · cases h
  · rename_i hrc
    cases h
    exact ⟨rfl, not_not.mp hrc⟩

theorem rcOf_errText (e : ReqError) : rcOf (errText e) = -1 := by
  cases e <;> decide

theorem errText_length (e : ReqError) : (errText e).length < 256 := by
  cases e <;> decide

theorem handleRequest_length {D : Type} (E : Engine D) (buf : List UInt8) (us : ℕ) (s : Sys D) :
    (handleRequest E buf us s).1.length < 256 := by
  unfold handleRequest
  dsimp only
  split_ifs
  · show (ascii "\x7b\"rc\":0,\"pong\":1\x7d").length < 256
    decide
  · show (ascii "\x7b\"rc\":0,\"reset\":1\x7d").length < 256
    decide
  · show (ascii "\x7b\"rc\":0,\"bye\":1\x7d").length < 256
    decide
  · exact errText_length _
  · exact errText_length _
  · unfold runOp
    dsimp only
    split_ifs
    · simp only [List.length_take]
      omega
    · simp only [List.length_take]
      omega
  · exact errText_length _

end Gehtp.Analysis.FileQueueFrames
