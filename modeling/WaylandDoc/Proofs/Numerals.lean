import WaylandDoc.Log
import WaylandDoc.Text.Numeral

/-!
# Decimal numerals

What `Numeral.read` takes for a number in base 10: some digits, perhaps after a plus sign, of a
value below 2^32.
-/

namespace WaylandDoc.Numeral

theorem isDigit_iff (c : Char) : c.isDigit ↔ '0' ≤ c ∧ c ≤ '9' := by
  simp [Char.isDigit, Char.le_def, UInt32.le_iff_toNat_le]

/-- Letters stand for more than 9. -/
theorem digit?_decimal (c : Char) :
    Base.decimal.digit? c = if c.isDigit then some (c.toNat - '0'.toNat) else none := by
  have hiff := isDigit_iff c
  have hsize : Base.decimal.size = 10 := rfl
  rw [Base.digit?, hsize]
  by_cases hdigit : c.isDigit
  · have hle : c.toNat ≤ '9'.toNat := (hiff.1 hdigit).2
    have hlt : c.toNat - '0'.toNat < 10 := by
      have h0 : '0'.toNat = 48 := rfl
      have h9 : '9'.toNat = 57 := rfl
      omega
    rw [if_pos hdigit, if_pos (hiff.1 hdigit), Option.filter_some, if_pos (by simpa using hlt)]
  · rw [if_neg hdigit, if_neg fun h => hdigit (hiff.2 h)]
    split
    · simp
    · split <;> simp

theorem le_ofDigitChars (s : List Char) (value : Nat) : value ≤ Nat.ofDigitChars 10 s value := by
  rw [Nat.ofDigitChars_eq_ofDigitChars_zero]
  have hpos : 0 < 10 ^ s.length := Nat.pow_pos (by decide)
  have hmul := Nat.le_mul_of_pos_left value hpos
  omega

/-- Digits are read from left to right, and no part of them is larger than the whole. -/
theorem readDigits_decimal {s : List Char} {value n : Nat} (hvalue : value < UInt32.size) :
    readDigits .decimal value s = .ok n ↔
      (∀ c ∈ s, c.isDigit) ∧ Nat.ofDigitChars 10 s value = n ∧ n < UInt32.size := by
  induction s generalizing value with
  | nil =>
    simp only [readDigits, Except.ok.injEq, Nat.ofDigitChars_nil]
    constructor
    · rintro rfl
      exact ⟨nofun, rfl, hvalue⟩
    · rintro ⟨-, h, -⟩
      exact h
  | cons c s ih =>
    rw [readDigits, digit?_decimal]
    by_cases hc : c.isDigit
    · have hnext : value * Base.decimal.size = 10 * value := Nat.mul_comm ..
      simp only [hc, ↓reduceIte, hnext, List.forall_mem_cons, true_and, Nat.ofDigitChars_cons]
      by_cases hlt : 10 * value + (c.toNat - '0'.toNat) < UInt32.size
      · rw [if_pos hlt, ih hlt]
      · rw [if_neg hlt]
        have hle := le_ofDigitChars s (10 * value + (c.toNat - '0'.toNat))
        constructor
        · rintro ⟨⟩
        · rintro ⟨-, rfl, hn⟩
          omega
    · simp [hc]

/-- The text is the number in decimal digits, perhaps with a plus sign before them. -/
def Denotes (s : String) (v : UInt32) : Prop :=
  ∃ digits : List Char, digits ≠ [] ∧ (∀ c ∈ digits, c.isDigit) ∧
    (s.toList = digits ∨ s.toList = '+' :: digits) ∧ Nat.ofDigitChars 10 digits 0 = v.toNat

/-- The digits of a numeral. A plus sign alone is taken for one. -/
def digits : List Char → List Char
  | '+' :: c :: s => c :: s
  | s => s

theorem digits_eq (s : List Char) :
    digits s = s ∧ (∀ t, s = '+' :: t → t = []) ∨ s = '+' :: digits s ∧ digits s ≠ [] := by
  unfold digits
  split
  · exact .inr ⟨rfl, nofun⟩
  · rename_i h
    refine .inl ⟨rfl, ?_⟩
    rintro (_ | ⟨c, t⟩) rfl
    · rfl
    · exact absurd rfl (h c t)

theorem read_decimal_eq_ok {s : String} {v : UInt32} : read .decimal s = .ok v ↔ Denotes s v := by
  have hread : read .decimal s = if (digits s.toList).isEmpty then .error .empty
      else (readDigits .decimal 0 (digits s.toList)).map UInt32.ofNat := rfl
  have hzero : 0 < UInt32.size := by decide
  rw [hread]
  constructor
  · intro h
    split at h
    · cases h
    · rename_i hne
      obtain ⟨n, hn, rfl⟩ := map_eq_ok.1 h
      obtain ⟨hdigits, hvalue, hlt⟩ := (readDigits_decimal hzero).1 hn
      refine ⟨digits s.toList, by simpa using hne, hdigits, ?_, ?_⟩
      · rcases digits_eq s.toList with ⟨heq, -⟩ | ⟨heq, -⟩
        · exact .inl heq.symm
        · exact .inr heq
      · rw [hvalue, UInt32.toNat_ofNat_of_lt' hlt]
  · rintro ⟨ds, hne, hdigits, hs, hvalue⟩
    have heq : digits s.toList = ds := by
      rcases hs with hs | hs <;> rw [hs]
      · rcases digits_eq ds with ⟨heq, -⟩ | ⟨heq, -⟩
        · exact heq
        · have hplus := hdigits '+' (heq ▸ List.mem_cons_self)
          simp at hplus
      · cases ds with
        | nil => exact absurd rfl hne
        | cons c ds => rfl
    have hn := (readDigits_decimal hzero).2 ⟨hdigits, hvalue, v.toNat_lt⟩
    rw [heq, if_neg (by simpa using hne), hn]
    simp [Except.map]

/-- A number is read from its digits. -/
theorem denotes_toString (v : UInt32) : Denotes (toString v.toNat) v := by
  refine ⟨Nat.toDigits 10 v.toNat, Nat.toDigits_ne_nil, fun c hc => ?_, .inl ?_, ?_⟩
  · exact Nat.isDigit_of_mem_toDigits (by decide) (by decide) hc
  · rw [Nat.toString_eq_ofList_toDigits, String.toList_ofList]
  · exact Nat.ofDigitChars_ten_toDigits

end WaylandDoc.Numeral
