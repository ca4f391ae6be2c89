import Gehtp.Analysis.SerializeRecords

/-!
# Records of any bytes

A tagged record is a header with a tag of 16 bits and the number of its words, and its data. The
writer pads up to a whole word in front of the data, and the reader takes whole words from the
header on; so what comes back is what was written exactly if all the data are whole words. The
two modes of the writer agree on every sequence of records.
-/

set_option autoImplicit false

namespace Gehtp.Analysis.TaggedRecords

open Lib Model.Deserialize Model.Serialize Analysis.SerializeRecords

/-- A tag and the bytes of a record. -/
abbrev Tagged : Type := UInt32 × List UInt8

/-! ### The loop of the reader -/

/-- The record loop with any reader of the records. SOURCE: graph_prepare.cpp:2581-2606 -/
def rdWalk {α : Type} (b : Buf) (read : UInt32 → ℕ → ℕ → Checked Unit α) :
    (fuel p : ℕ) → Checked Unit (List α)
  | 0, _ => .error .hang
  | fuel + 1, p =>
    if b.size ≤ p then pure []
    else do
      let word0 ← rdU32 b p
      if word0 = separatorNormal ∨ word0 = separatorAux then rdWalk b read fuel (p + 4)
      else if word0 = separatorEnd then pure []
      else do
        let wordCount ← rdU32 b (p + 4)
        let _ ← rdU32 b (p + 8)
        if b.size - (p + 12) < dataSize wordCount then .error (.reject ())
        else do
          let r ← read (tagOf word0) (p + 12) (dataSize wordCount)
          let rest ← rdWalk b read fuel (p + 12 + dataSize wordCount)
          pure (r :: rest)

/-- A record as it stands in the buffer. -/
def rdTagged (b : Buf) (tag : UInt32) (rec size : ℕ) : Checked Unit Tagged := do
  let data ← rdBytes b rec size
  pure (tag, data)

def rdFrames (b : Buf) : Checked Unit (List Tagged) := rdWalk b (rdTagged b) (b.size + 1) 0

/-! ### The two modes of the writer -/

/-- Write the records one after the other. -/
def writeRecords (ser : Serializer) (l : List Tagged) : Checked Unit Serializer :=
  l.foldlM (fun ser r => writeTaggedRecord ser r.1 r.2 r.2.length) ser

/-- A writer that writes, and one that counts, at the same position. -/
structure Abreast (ser count : Serializer) : Prop where
  writes : ser.measureOnly = false ∧ ser.prescan = false ∧ ser.bytesFilled = 0
  counts : count.measureOnly = true
  position : count.currentPosition = ser.currentPosition

variable {ser count : Serializer} {b : Buf} {p : ℕ}

theorem abreast_fwrite (h : Abreast ser count) (data : List UInt8) (align4 : Bool) :
    ∃ ser' count', serializeFwrite ser data data.length align4 = .ok ser' ∧
      serializeFwrite count data data.length align4 = .ok count' ∧ Abreast ser' count' := by
  obtain ⟨⟨hm, hp, hb⟩, hc, hpos⟩ := h
  have hcount : count.measureOnly = true ∨ count.prescan = true := .inl hc
  have hser : ¬ (ser.measureOnly = true ∨ ser.prescan = true) := by
    rw [hm, hp]
    decide
  unfold serializeFwrite
  simp only [if_neg hser, if_pos hcount, if_neg (lt_irrefl data.length), List.take_length, hpos]
  refine ⟨_, _, rfl, rfl, ⟨hm, hp, hb⟩, hc, ?_⟩
  simp only [Serializer.currentPosition] at hpos ⊢
  simp only [List.length_append, List.length_replicate]
  omega

theorem abreast_record (h : Abreast ser count) (r : Tagged) :
    ∃ ser' count', writeTaggedRecord ser r.1 r.2 r.2.length = .ok ser' ∧
      writeTaggedRecord count r.1 r.2 r.2.length = .ok count' ∧ Abreast ser' count' := by
  unfold writeTaggedRecord serializeUint32
  obtain ⟨s₁, c₁, hs₁, hc₁, h₁⟩ := abreast_fwrite h (u32le (encodeBinTag r.1)) false
  obtain ⟨s₂, c₂, hs₂, hc₂, h₂⟩ := abreast_fwrite h₁ (u32le (wordCount r.2.length)) false
  obtain ⟨s₃, c₃, hs₃, hc₃, h₃⟩ := abreast_fwrite h₂ (u32le (wordCount r.2.length)) false
  rw [u32le_length] at hs₁ hc₁ hs₂ hc₂ hs₃ hc₃
  simp only [bind_eq_ok]
  by_cases hnil : r.2.length = 0
  · simp only [if_pos hnil]
    exact ⟨s₃, c₃, ⟨s₃, ⟨s₁, hs₁, s₂, hs₂, hs₃⟩, rfl⟩, ⟨c₃, ⟨c₁, hc₁, c₂, hc₂, hc₃⟩, rfl⟩, h₃⟩
  · simp only [if_neg hnil]
    obtain ⟨s₄, c₄, hs₄, hc₄, h₄⟩ := abreast_fwrite h₃ r.2 true
    exact ⟨s₄, c₄, ⟨s₃, ⟨s₁, hs₁, s₂, hs₂, hs₃⟩, hs₄⟩, ⟨c₃, ⟨c₁, hc₁, c₂, hc₂, hc₃⟩, hc₄⟩, h₄⟩

theorem abreast_records (l : List Tagged) (h : Abreast ser count) :
    ∃ ser' count', writeRecords ser l = .ok ser' ∧ writeRecords count l = .ok count' ∧
      Abreast ser' count' := by
  induction l generalizing ser count with
  | nil => exact ⟨ser, count, rfl, rfl, h⟩
  | cons r l ih =>
    obtain ⟨s₁, c₁, hs₁, hc₁, h₁⟩ := abreast_record h r
    obtain ⟨s₂, c₂, hs₂, hc₂, h₂⟩ := ih h₁
    refine ⟨s₂, c₂, ?_, ?_, h₂⟩
    · exact (bind_eq_ok _ _ _).mpr ⟨s₁, hs₁, hs₂⟩
    · exact (bind_eq_ok _ _ _).mpr ⟨c₁, hc₁, hc₂⟩

theorem abreast_start : Abreast Serializer.start Serializer.measure :=
  ⟨⟨rfl, rfl, rfl⟩, rfl, rfl⟩

/-! ### What is framed -/

/-- What was written is read back, and the count is the number of bytes. -/
def Framed (l : List Tagged) : Prop :=
  ∃ (ser count : Serializer) (hsize : ser.written.length < 2 ^ 64),
    writeRecords Serializer.start l = .ok ser ∧ writeRecords Serializer.measure l = .ok count ∧
      count.currentPosition = ser.written.length ∧ rdFrames ⟨ser.written, hsize⟩ = .ok l

/-- The records as items of the serializer. -/
def taggedItem (r : Tagged) : Item := .fixed r.1 r.2

/-- A tag of 16 bits, and data of whole words whose number has 32 bits. -/
structure Frames (r : Tagged) : Prop where
  tag : r.1.toNat < 2 ^ 16
  words : 4 ∣ r.2.length
  count : r.2.length < 2 ^ 34

/-! ### Nothing else comes back -/

theorem tagOf_lt (word : UInt32) : (tagOf word).toNat < 2 ^ 16 := by
  unfold tagOf
  rw [UInt32.toNat_and]
  exact Nat.and_lt_two_pow _ (show (0xFFFF : UInt32).toNat < 2 ^ 16 by decide)

theorem length_rdBytes {n : ℕ} {l : List UInt8}
    (h : (rdBytes b p n : Checked Unit (List UInt8)) = .ok l) : l.length = n := by
  unfold rdBytes at h
  split at h
  · rename_i hin
    obtain rfl := Except.ok.inj h
    obtain rfl | hin := hin
    · rfl
    · exact bytesAt_length hin
  · cases h

variable {r : Tagged}

theorem frames_of_read {word wordCount : UInt32}
    (h : rdTagged b (tagOf word) p (dataSize wordCount) = .ok r) : Frames r := by
  obtain ⟨data, hdata, h⟩ := (bind_eq_ok _ _ _).mp h
  obtain rfl := Except.ok.inj h
  have hlen : data.length = wordCount.toNat * 4 := length_rdBytes hdata
  have hcount := wordCount.toNat_lt
  exact ⟨tagOf_lt word, ⟨wordCount.toNat, show data.length = _ by omega⟩,
    show data.length < _ by omega⟩

variable {l : List Tagged}

theorem frames_of_walk {fuel : ℕ} (h : rdWalk b (rdTagged b) fuel p = .ok l) :
    ∀ r ∈ l, Frames r := by
  induction fuel generalizing p l with
  | zero => cases h
  | succ fuel ih =>
    unfold rdWalk at h
    split at h
    · cases h
      exact fun r hr => absurd hr List.not_mem_nil
    obtain ⟨word, -, h⟩ := (bind_eq_ok _ _ _).mp h
    split at h
    · exact ih h
    split at h
    · cases h
      exact fun r hr => absurd hr List.not_mem_nil
    obtain ⟨wordCount, -, h⟩ := (bind_eq_ok _ _ _).mp h
    obtain ⟨_, -, h⟩ := (bind_eq_ok _ _ _).mp h
    split at h
    · cases h
    obtain ⟨r, hr, h⟩ := (bind_eq_ok _ _ _).mp h
    obtain ⟨rest, hrest, h⟩ := (bind_eq_ok _ _ _).mp h
    obtain rfl := Except.ok.inj h
    intro x hx
    cases hx with
    | head => exact frames_of_read hr
    | tail _ hx => exact ih hrest x hx

/-! ### Tags of 16 bits -/

theorem tagOf_encodeBinTag {tag : UInt32} (h : tag.toNat < 2 ^ 16) :
    tagOf (encodeBinTag tag) = tag := by
  have hmask (n : ℕ) : n &&& (0xFFFF : UInt32).toNat = n % 2 ^ 16 :=
    Nat.and_two_pow_sub_one_eq_mod n 16
  have hhigh : tag.toNat * 2 ^ ((16 : UInt32).toNat % 32) % 2 ^ 32 % 2 ^ 16 = 0 := by
    show tag.toNat * 2 ^ 16 % 2 ^ 32 % 2 ^ 16 = 0
    omega
  apply UInt32.toNat_inj.mp
  unfold tagOf encodeBinTag
  rw [UInt32.xor_assoc, UInt32.xor_self, UInt32.xor_zero, UInt32.toNat_and, UInt32.toNat_or,
    UInt32.toNat_and, hmask, hmask, UInt32.toNat_shiftLeft, Nat.or_mod_two_pow, Nat.mod_mod,
    Nat.shiftLeft_eq, hhigh, Nat.or_zero, Nat.mod_eq_of_lt h]

theorem goodTag {tag : UInt32} (h : tag.toNat < 2 ^ 16) : GoodTag tag := by
  have hdec := tagOf_encodeBinTag h
  have hne : ∀ word, encodeBinTag (tagOf word) ≠ word → encodeBinTag tag ≠ word := by
    intro word hword heq
    rw [heq] at hdec
    rw [hdec] at hword
    exact hword heq
  exact ⟨hdec, hne _ (by decide), hne _ (by decide), hne _ (by decide)⟩

/-! ### Whole words come back -/

theorem whole_taggedItem (h : Frames r) : Whole (taggedItem r) :=
  ⟨rfl, Nat.mod_eq_zero_of_dvd h.words⟩

def taggedBytes (l : List Tagged) : List UInt8 := (l.map taggedItem).flatMap itemBytes

theorem writeRecords_eq (h : ∀ r ∈ l, Frames r) :
    writeRecords Serializer.start l = .ok (put Serializer.start (taggedBytes l)) := by
  have hwhole : ∀ item ∈ l.map taggedItem, Whole item := by
    intro item hitem
    obtain ⟨r, hr, rfl⟩ := List.mem_map.mp hitem
    exact whole_taggedItem (h r hr)
  obtain ⟨hwrite, -⟩ := foldlM_write hwhole (show Serializer.start.currentPosition % 4 = 0 from rfl)
  rw [List.foldlM_map] at hwrite
  exact hwrite

theorem taggedItem_length (r : Tagged) : (itemBytes (taggedItem r)).length = 12 + r.2.length := by
  simp only [taggedItem, Item.fixed, itemBytes, List.length_append, u32le_length]
  omega

theorem rdWalk_record (h : Frames r) (fuel : ℕ)
    (hstands : StandsAt b p (itemBytes (taggedItem r))) :
    rdWalk b (rdTagged b) (fuel + 1) p =
      (rdWalk b (rdTagged b) fuel (p + (itemBytes (taggedItem r)).length) >>= fun rest =>
        pure (r :: rest)) := by
  have hin := standsAt_length b p _ hstands (by simp [taggedItem, Item.fixed, itemBytes, u32le])
  have hlen := taggedItem_length r
  have hgood := goodTag h.tag
  have hsize := dataSize_wordCount (Nat.mod_eq_zero_of_dvd h.words) h.count
  simp only [taggedItem, Item.fixed, itemBytes, standsAt_append, u32le_length] at hstands
  obtain ⟨hword, hcount, hthird, hdata⟩ := hstands
  have hread : rdTagged b r.1 (p + 12) r.2.length = .ok r :=
    (bind_eq_ok _ _ _).mpr ⟨r.2, rdBytes_standsAt (standsAt_cast hdata (by omega)), rfl⟩
  have hnot : ¬ (encodeBinTag r.1 = separatorNormal ∨ encodeBinTag r.1 = separatorAux) := by
    rintro (heq | heq)
    · exact hgood.normal heq
    · exact hgood.aux heq
  have hfits : ¬ b.size - (p + 12) < r.2.length := by omega
  rw [rdWalk, if_neg (by omega), rdU32_standsAt b p _ hword]
  show (if _ then _ else if _ then _ else _) = _
  rw [if_neg hnot, if_neg hgood.stop, rdU32_standsAt b (p + 4) _ hcount]
  show (rdU32 b (p + 8) >>= fun _ => _) = _
  rw [rdU32_standsAt b (p + 8) _ (standsAt_cast hthird (by omega))]
  show (if _ then _ else _) = _
  rw [hsize, if_neg hfits, hgood.tagOf_encode, hread, hlen, ← Nat.add_assoc]
  rfl

theorem rdWalk_frames (h : ∀ r ∈ l, Frames r) (fuel : ℕ) (hstands : StandsAt b p (taggedBytes l))
    (hend : p + (taggedBytes l).length = b.size) :
    rdWalk b (rdTagged b) (fuel + 1 + l.length) p = .ok l := by
  induction l generalizing p with
  | nil =>
    have hdone : b.size ≤ p := hend.ge
    rw [List.length_nil, Nat.add_zero, rdWalk, if_pos hdone]
    rfl
  | cons r l ih =>
    have hcons : taggedBytes (r :: l) = itemBytes (taggedItem r) ++ taggedBytes l := rfl
    rw [hcons, standsAt_append] at hstands
    rw [hcons, List.length_append, ← Nat.add_assoc] at hend
    rw [List.length_cons, ← Nat.add_assoc,
      rdWalk_record (h r List.mem_cons_self) _ hstands.1,
      ih (fun r' hr' => h r' (List.mem_cons_of_mem r hr')) hstands.2 hend]
    rfl

theorem length_le_taggedBytes (l : List Tagged) : l.length ≤ (taggedBytes l).length := by
  induction l with
  | nil => exact Nat.zero_le _
  | cons r l ih =>
    have hcons : taggedBytes (r :: l) = itemBytes (taggedItem r) ++ taggedBytes l := rfl
    rw [hcons, List.length_append, List.length_cons, taggedItem_length]
    omega

/-- Every record is framed, and all of their bytes have an address. -/
structure AllFrame (l : List Tagged) : Prop where
  each : ∀ r ∈ l, Frames r
  memory : (taggedBytes l).length < 2 ^ 64

theorem framed_of_all (h : AllFrame l) : Framed l := by
  obtain ⟨ser, count, hser, hcount, habreast⟩ := abreast_records l abreast_start
  rw [writeRecords_eq h.each] at hser
  obtain rfl := Except.ok.inj hser
  have hread := rdWalk_frames h.each (b := ⟨taggedBytes l, h.memory⟩) (p := 0)
    ((taggedBytes l).length - l.length) (List.prefix_refl _) (Nat.zero_add _)
  refine ⟨_, count, h.memory, writeRecords_eq h.each, hcount, ?_, ?_⟩
  · rw [habreast.position]
    exact Nat.zero_add _
  · have hlen := length_le_taggedBytes l
    have hfuel : (taggedBytes l).length - l.length + 1 + l.length = (taggedBytes l).length + 1 := by
      omega
    rw [hfuel] at hread
    exact hread

theorem all_of_framed (h : Framed l) : AllFrame l := by
  obtain ⟨ser, count, hsize, hser, -, -, hread⟩ := h
  have heach := frames_of_walk hread
  rw [writeRecords_eq heach] at hser
  obtain rfl := Except.ok.inj hser
  exact ⟨heach, hsize⟩

def shortRecord : Tagged := (1, [7])

/-- One byte is padded in front, so the word read back is another. -/
theorem shortRecord_not_framed : ¬ Framed [shortRecord] := by
  intro h
  have hwords := ((all_of_framed h).each shortRecord List.mem_cons_self).words
  exact absurd hwords (by decide)

/-- A sequence of records comes back from its bytes exactly if the tags have 16 bits and the data
are whole words. SOURCE: serializer.cpp:104-171, graph_prepare.cpp:2581-2606 -/
theorem framed_iff (l : List Tagged) : Framed l ↔ AllFrame l := ⟨all_of_framed, framed_of_all⟩

end Gehtp.Analysis.TaggedRecords
