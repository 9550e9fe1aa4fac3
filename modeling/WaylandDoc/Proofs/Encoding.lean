import WaylandDoc.Proofs.Attributes

/-!
# Encoding

Text as bytes of a document. `Utf8.encode` is the UTF-8 form of a text, and decoding it gives the
text back (`Utf8.decode_encode`). An escaped text has no mark of markup but those of its references,
and as the value of an attribute it stands for the text (`AttributeValue.read_encode_escape`).
-/

namespace WaylandDoc

namespace Utf8

open String (utf8EncodeChar)

/-- The UTF-8 form of a text. -/
def encode (s : String) : Bytes := s.toList.flatMap utf8EncodeChar

/-! ## Decoding -/

section First

variable {code seen n : Nat} {low high b c : UInt8} {s : Bytes}

theorem follow_cons (hlow : low.toNat ≤ b.toNat) (hhigh : b.toNat ≤ high.toNat) :
    follow code seen (n + 1) low high (b :: s) =
      follow (code * 64 + (b.toNat - 0x80)) (seen + 1) n 0x80 0xBF s := by
  rw [follow, if_pos ⟨UInt8.le_iff_toNat_le.2 hlow, UInt8.le_iff_toNat_le.2 hhigh⟩]

theorem first_one (hb : b.toNat < 0x80) : first b s = .char (Char.ofNat b.toNat) s := by
  rw [first, if_pos (UInt8.lt_iff_toNat_lt.2 hb)]

theorem not_lt_of_le {x : UInt8} (h : x.toNat ≤ b.toNat) : ¬ b < x :=
  UInt8.not_lt.2 (UInt8.le_iff_toNat_le.2 h)

theorem first_two (hb : 0xC2 ≤ b.toNat) (hb' : b.toNat < 0xE0) :
    first b s = follow (b.toNat - 0xC0) 1 1 0x80 0xBF s := by
  have h80 : ¬ b < 0x80 := not_lt_of_le (Nat.le_trans (by decide) hb)
  have hC2 : ¬ b < 0xC2 := not_lt_of_le hb
  rw [first, if_neg h80, if_neg hC2, if_pos (UInt8.lt_iff_toNat_lt.2 hb')]

/-- The second byte of three rules out what two bytes encode and the surrogates. -/
theorem first_three (hb : 0xE0 ≤ b.toNat) (hb' : b.toNat < 0xF0)
    (hc : 0x80 ≤ c.toNat ∧ c.toNat ≤ 0xBF) (hlow : b.toNat = 0xE0 → 0xA0 ≤ c.toNat)
    (hhigh : b.toNat = 0xED → c.toNat ≤ 0x9F) :
    first b (c :: s) = follow ((b.toNat - 0xE0) * 64 + (c.toNat - 0x80)) 2 1 0x80 0xBF s := by
  have h80 : ¬ b < 0x80 := not_lt_of_le (Nat.le_trans (by decide) hb)
  have hC2 : ¬ b < 0xC2 := not_lt_of_le (Nat.le_trans (by decide) hb)
  have hE0 : ¬ b < 0xE0 := not_lt_of_le hb
  rw [first, if_neg h80, if_neg hC2, if_neg hE0, if_pos (UInt8.lt_iff_toNat_lt.2 hb')]
  refine follow_cons ?_ ?_
  · split
    · rename_i h
      exact hlow (congrArg UInt8.toNat h)
    · exact hc.1
  · split
    · rename_i h
      exact hhigh (congrArg UInt8.toNat h)
    · exact hc.2

/-- The second byte of four rules out what three bytes encode and what no character has. -/
theorem first_four (hb : 0xF0 ≤ b.toNat) (hb' : b.toNat < 0xF5)
    (hc : 0x80 ≤ c.toNat ∧ c.toNat ≤ 0xBF) (hlow : b.toNat = 0xF0 → 0x90 ≤ c.toNat)
    (hhigh : b.toNat = 0xF4 → c.toNat ≤ 0x8F) :
    first b (c :: s) = follow ((b.toNat - 0xF0) * 64 + (c.toNat - 0x80)) 2 2 0x80 0xBF s := by
  have h80 : ¬ b < 0x80 := not_lt_of_le (Nat.le_trans (by decide) hb)
  have hC2 : ¬ b < 0xC2 := not_lt_of_le (Nat.le_trans (by decide) hb)
  have hE0 : ¬ b < 0xE0 := not_lt_of_le (Nat.le_trans (by decide) hb)
  have hF0 : ¬ b < 0xF0 := not_lt_of_le hb
  rw [first, if_neg h80, if_neg hC2, if_neg hE0, if_neg hF0,
    if_pos (UInt8.lt_iff_toNat_lt.2 hb')]
  refine follow_cons ?_ ?_
  · split
    · rename_i h
      exact hlow (congrArg UInt8.toNat h)
    · exact hc.1
  · split
    · rename_i h
      exact hhigh (congrArg UInt8.toNat h)
    · exact hc.2

end First

/-- A character is not a surrogate. -/
theorem toNat_of_char (c : Char) :
    c.toNat < 0xD800 ∨ 0xDFFF < c.toNat ∧ c.toNat < 0x110000 := c.valid

theorem toNat_byte {n : Nat} (h : n < 256) : (UInt8.ofNat n).toNat = n := by
  rw [UInt8.toNat_ofNat', Nat.mod_eq_of_lt h]

/-- The first character of the UTF-8 form of a character is this one. -/
theorem first_utf8EncodeChar (c : Char) (rest : Bytes) :
    ∃ b s, utf8EncodeChar c = b :: s ∧ first b (s ++ rest) = .char c rest := by
  have hvalid := toNat_of_char c
  have hchar : Char.ofNat c.toNat = c := Char.ofNat_toNat c
  have hval : c.val.toNat = c.toNat := rfl
  unfold utf8EncodeChar
  simp only [hval]
  generalize c.toNat = v at hvalid hchar
  subst hchar
  -- Bytes after the first carry six bits each.
  have tail (x : Nat) : (UInt8.ofNat (x % 64 + 128)).toNat = x % 64 + 128 := toNat_byte (by omega)
  split
  · have h0 : (UInt8.ofNat v).toNat = v := toNat_byte (by omega)
    refine ⟨_, _, rfl, ?_⟩
    rw [List.nil_append, first_one (by omega), h0]
  split
  · have h0 : (UInt8.ofNat (v / 64 % 32 + 192)).toNat = v / 64 + 192 := by
      rw [toNat_byte (by omega)]
      omega
    have hv : (v / 64 + 192 - 192) * 64 + (v % 64 + 128 - 128) = v := by omega
    refine ⟨_, _, rfl, ?_⟩
    rw [List.cons_append, List.nil_append, first_two (by omega) (by omega), h0,
      follow_cons (by rw [tail]; simp) (by rw [tail]; simp; omega), tail, hv, follow]
  split
  · have h0 : (UInt8.ofNat (v / 4096 % 16 + 224)).toNat = v / 4096 + 224 := by
      rw [toNat_byte (by omega)]
      omega
    have hv : ((v / 4096 + 224 - 224) * 64 + (v / 64 % 64 + 128 - 128)) * 64 +
        (v % 64 + 128 - 128) = v := by omega
    refine ⟨_, _, rfl, ?_⟩
    rw [List.cons_append, List.cons_append, List.nil_append,
      first_three (by omega) (by omega) (by rw [tail]; omega) (by rw [h0, tail]; omega)
        (by rw [h0, tail]; omega), h0, tail,
      follow_cons (by rw [tail]; simp) (by rw [tail]; simp; omega), tail, hv, follow]
  · have h0 : (UInt8.ofNat (v / 262144 % 8 + 240)).toNat = v / 262144 + 240 := by
      rw [toNat_byte (by omega)]
      omega
    have hv : (((v / 262144 + 240 - 240) * 64 + (v / 4096 % 64 + 128 - 128)) * 64 +
        (v / 64 % 64 + 128 - 128)) * 64 + (v % 64 + 128 - 128) = v := by omega
    refine ⟨_, _, rfl, ?_⟩
    rw [List.cons_append, List.cons_append, List.cons_append, List.nil_append,
      first_four (by omega) (by omega) (by rw [tail]; omega) (by rw [h0, tail]; omega)
        (by rw [h0, tail]; omega), h0, tail,
      follow_cons (by rw [tail]; simp) (by rw [tail]; simp; omega), tail,
      follow_cons (by rw [tail]; simp) (by rw [tail]; simp; omega), tail, hv, follow]

theorem decodeFrom_encode (text : String) (index : Nat) (cs : List Char) :
    decodeFrom text index (cs.flatMap utf8EncodeChar) = .ok (text ++ .ofList cs) := by
  induction cs generalizing text index with
  | nil => simp [decodeFrom]
  | cons c cs ih =>
    obtain ⟨b, s, hc, hfirst⟩ := first_utf8EncodeChar c (cs.flatMap utf8EncodeChar)
    rw [List.flatMap_cons, hc, List.cons_append, decodeFrom]
    split
    · rename_i c' rest h
      cases hfirst.symm.trans h
      rw [ih, String.ofList_cons, String.push_eq_append, String.append_assoc]
    · rename_i h
      cases hfirst.symm.trans h
    · rename_i h
      cases hfirst.symm.trans h

/-- Decoding the UTF-8 form of a text gives it back. -/
theorem decode_encode (s : String) : decode (encode s) = .ok s := by
  rw [decode, encode, decodeFrom_encode]
  simp

/-! ## Characters of ASCII -/

theorem utf8EncodeChar_ascii {c : Char} (h : c.toNat < 0x80) : utf8EncodeChar c = [byte c] :=
  String.utf8EncodeChar_eq_singleton (Char.utf8Size_eq_one_iff.2
    (UInt32.le_iff_toNat_le.2 (Nat.le_of_lt_succ h)))

theorem encode_eq_ascii {s : String} (h : ∀ c ∈ s.toList, c.toNat < 0x80) :
    encode s = ascii s := by
  rw [encode, ascii, List.map_eq_flatMap]
  exact List.flatMap_congr fun c hc => utf8EncodeChar_ascii (h c hc)

/-- Other characters are encoded without bytes of ASCII. -/
theorem mem_utf8EncodeChar {b : UInt8} {c : Char} (hb : b.toNat < 0x80)
    (h : b ∈ utf8EncodeChar c) : b.toNat = c.toNat := by
  have hval : c.val.toNat = c.toNat := rfl
  have tail (x : Nat) : (UInt8.ofNat (x % 64 + 128)).toNat = x % 64 + 128 := toNat_byte (by omega)
  unfold utf8EncodeChar at h
  simp only [hval] at h
  split at h
  · obtain rfl := List.mem_singleton.1 h
    exact toNat_byte (by omega)
  split at h
  · simp only [List.mem_cons, List.not_mem_nil, or_false] at h
    rcases h with rfl | rfl
    · rw [toNat_byte (by omega)] at hb
      omega
    · rw [tail] at hb
      omega
  split at h
  · simp only [List.mem_cons, List.not_mem_nil, or_false] at h
    rcases h with rfl | rfl | rfl
    · rw [toNat_byte (by omega)] at hb
      omega
    all_goals
      rw [tail] at hb
      omega
  · simp only [List.mem_cons, List.not_mem_nil, or_false] at h
    rcases h with rfl | rfl | rfl | rfl
    · rw [toNat_byte (by omega)] at hb
      omega
    all_goals
      rw [tail] at hb
      omega

theorem byte_inj {c d : Char} (hc : c.toNat < 0x80) (hd : d.toNat < 0x80) (h : byte c = byte d) :
    c = d := by
  have hbyte {a : Char} (ha : a.toNat < 0x80) : (byte a).toNat = a.toNat :=
    toNat_byte (by omega)
  have hnat := congrArg UInt8.toNat h
  rw [hbyte hc, hbyte hd] at hnat
  exact Char.toNat_inj.1 hnat

theorem char_eq_of_byte_mem {c d : Char} (hd : d.toNat < 0x80) (h : byte d ∈ utf8EncodeChar c) :
    c = d := by
  have hbyte : (byte d).toNat = d.toNat := toNat_byte (by omega)
  have hc := mem_utf8EncodeChar (by omega) h
  exact Char.toNat_inj.1 (hc.symm.trans hbyte)

/-- Only a character of ASCII has its byte. -/
theorem mem_of_byte_mem {cs : List Char} {d : Char} (hd : d.toNat < 0x80)
    (h : byte d ∈ cs.flatMap utf8EncodeChar) : d ∈ cs := by
  obtain ⟨c, hc, hmem⟩ := List.mem_flatMap.1 h
  exact char_eq_of_byte_mem hd hmem ▸ hc

end Utf8

/-! ## Escaped text -/

open String (utf8EncodeChar)
open Utf8 (encode)

theorem escapeChar_of_entity (e : Entity) : escapeChar e.char = e.reference := by
  cases e <;> rfl

theorem escapeChar_of_ne {c : Char} (h : ∀ e : Entity, c ≠ e.char) : escapeChar c = [c] := by
  have hnone : Entity.ofChar? c = none := by
    rw [Entity.ofChar?, List.find?_eq_none]
    intro e _
    simpa using (h e).symm
  rw [escapeChar, hnone]

/-- Of the characters of markup only `&` is left in an escaped text. -/
theorem char_notMem_escape {e : Entity} (he : e ≠ .amp) (s : String) :
    e.char ∉ (escape s).toList := by
  intro h
  rw [escape, String.toList_ofList] at h
  obtain ⟨c, -, hc⟩ := List.mem_flatMap.1 h
  by_cases h : ∃ e : Entity, c = e.char
  · obtain ⟨e', rfl⟩ := h
    rw [escapeChar_of_entity] at hc
    revert he hc
    cases e <;> cases e' <;> decide
  · rw [not_exists] at h
    rw [escapeChar_of_ne h, List.mem_singleton] at hc
    exact h e hc.symm

/-- A quote is escaped. -/
theorem quote_notMem_escape (s : String) : byte '"' ∉ encode (escape s) := fun h =>
  char_notMem_escape (e := .quot) nofun s (Utf8.mem_of_byte_mem (by decide) h)

namespace AttributeValue

theorem inValue_entity (e : Entity) : (Reference.ofName e.name).inValue = .ok e.char := by
  cases e <;> rfl

theorem unescapeFrom_reference (size : Nat) (text : String) (pos : Nat) (e : Entity)
    (s : List Char) :
    ∃ pos', unescapeFrom size text pos (e.reference ++ s) =
      unescapeFrom size (text.push e.char) pos' s := by
  have hname : ∀ c ∈ e.name.toList, inName c := List.all_eq_true.1 (by cases e <;> decide)
  have hs : e.reference ++ s = '&' :: (e.name.toList ++ ';' :: s) := by simp [Entity.reference]
  have hdrop : (e.name.toList ++ ';' :: s).dropWhile inName = ';' :: s :=
    dropWhile_append_cons hname rfl
  have htake : (e.name.toList ++ ';' :: s).takeWhile inName = e.name.toList :=
    takeWhile_append_cons hname rfl
  rw [hs, unescapeFrom, if_pos rfl]
  split
  · rename_i rest h
    cases hdrop.symm.trans h
    simp only [htake, String.ofList_toList, inValue_entity]
    exact ⟨_, rfl⟩
  · rename_i h
    exact absurd hdrop (h s)

theorem unescapeFrom_escape (size : Nat) (text : String) (pos : Nat) (cs : List Char) :
    unescapeFrom size text pos (cs.flatMap escapeChar) = .ok (text ++ .ofList cs) := by
  induction cs generalizing text pos with
  | nil => simp [unescapeFrom]
  | cons c cs ih =>
    have hpush : text.push c ++ .ofList cs = text ++ .ofList (c :: cs) := by
      rw [String.ofList_cons, String.push_eq_append, String.append_assoc]
    rw [List.flatMap_cons, ← hpush]
    by_cases h : ∃ e : Entity, c = e.char
    · obtain ⟨e, rfl⟩ := h
      obtain ⟨pos', hpos⟩ := unescapeFrom_reference size text pos e (cs.flatMap escapeChar)
      rw [escapeChar_of_entity, hpos, ih]
    · rw [not_exists] at h
      have hamp : c ≠ '&' := h .amp
      rw [escapeChar_of_ne h, List.singleton_append, unescapeFrom, if_neg hamp, ih]

/-- An escaped value stands for the text. -/
theorem read_encode_escape (s : String) : read (encode (escape s)) = .ok s := by
  rw [read, Utf8.decode_encode, escape]
  simp [unescapeFrom_escape]

end AttributeValue

end WaylandDoc
