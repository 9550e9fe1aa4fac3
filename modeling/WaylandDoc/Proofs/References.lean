import WaylandDoc.Document
import WaylandDoc.Proofs.Encoding
import WaylandDoc.Proofs.Numerals

/-!
# References in text and in values

A reference means the same in character data and in an attribute value, where both take it.
Character data takes more: a number after a plus sign, and zero (`Reference.IsLoose`). Those are all
(`read_reference_iff_resolve`).
-/

namespace WaylandDoc

/-! ## Zero -/

namespace Numeral

theorem digit?_eq_zero {base : Base} {c : Char} : base.digit? c = some 0 ↔ c = '0' := by
  have hsize : 0 < base.size := by cases base <;> decide
  have hzero : '0'.toNat = 48 := rfl
  constructor
  · intro h
    rw [Base.digit?, Option.filter_eq_some_iff] at h
    obtain ⟨h, -⟩ := h
    split at h
    · rename_i hc
      have hle : '0'.toNat ≤ c.toNat := hc.1
      have hsub := Option.some.inj h
      exact Char.toNat_inj.1 (by omega)
    · split at h
      · simp at h
      · split at h <;> simp at h
  · rintro rfl
    rw [Base.digit?, Option.filter_eq_some_iff]
    exact ⟨rfl, by simpa using hsize⟩

/-- More digits make no smaller number. -/
theorem le_of_readDigits {base : Base} {value n : Nat} {s : List Char}
    (h : readDigits base value s = .ok n) : value ≤ n := by
  have hsize : 0 < base.size := by cases base <;> decide
  induction s generalizing value with
  | nil =>
    cases h
    exact Nat.le_refl _
  | cons c s ih =>
    rw [readDigits] at h
    split at h
    · cases h
    · rename_i d hd
      dsimp only at h
      split at h
      · have hle := ih h
        have hmul := Nat.le_mul_of_pos_right value hsize
        omega
      · cases h

/-- Numbers that are read have 32 bits. -/
theorem lt_of_readDigits {base : Base} {value n : Nat} {s : List Char}
    (hvalue : value < UInt32.size) (h : readDigits base value s = .ok n) : n < UInt32.size := by
  induction s generalizing value with
  | nil =>
    cases h
    exact hvalue
  | cons c s ih =>
    rw [readDigits] at h
    split at h
    · cases h
    · dsimp only at h
      split at h
      · exact ih ‹_› h
      · cases h

theorem readDigits_eq_zero {base : Base} {s : List Char} :
    readDigits base 0 s = .ok 0 ↔ ∀ c ∈ s, c = '0' := by
  have hzero : 0 < UInt32.size := by decide
  induction s with
  | nil => simp [readDigits]
  | cons c s ih =>
    rw [readDigits, List.forall_mem_cons, ← @digit?_eq_zero base c]
    cases hd : base.digit? c with
    | none => simp
    | some d =>
      cases d with
      | zero => simpa [hzero] using ih
      | succ d =>
        simp only [Nat.zero_mul, Nat.zero_add, Option.some.injEq, Nat.add_eq_zero_iff,
          Nat.one_ne_zero, and_false, false_and, iff_false]
        split
        · intro h
          exact absurd (le_of_readDigits h) (by omega)
        · intro h
          cases h

/-- A numeral without a sign is zero if it has no digit but that. -/
theorem read_eq_zero {base : Base} {s : String} (hsign : s.toList.head? ≠ some '+') :
    read base s = .ok 0 ↔ s.toList ≠ [] ∧ ∀ c ∈ s.toList, c = '0' := by
  have hdigits : digits s.toList = s.toList := by
    rcases digits_eq s.toList with ⟨heq, -⟩ | ⟨heq, -⟩
    · exact heq
    · rw [heq] at hsign
      exact absurd rfl hsign
  have hread : read base s = if (digits s.toList).isEmpty then .error .empty
      else (readDigits base 0 (digits s.toList)).map UInt32.ofNat := rfl
  rw [hread, hdigits, ← @readDigits_eq_zero base]
  cases hs : s.toList with
  | nil => simp
  | cons c cs =>
    simp only [List.isEmpty_cons, Bool.false_eq_true, if_false, ne_eq, reduceCtorEq,
      not_false_eq_true, true_and]
    constructor
    · intro h
      obtain ⟨n, hn, h0⟩ := map_eq_ok.1 h
      have hlt := lt_of_readDigits (by decide) hn
      have := congrArg UInt32.toNat h0
      rw [UInt32.toNat_ofNat_of_lt' hlt] at this
      rw [hn]
      exact congrArg _ this
    · intro h
      rw [h]
      rfl

/-- A minus sign is no digit. -/
theorem read_of_minus {base : Base} {s : String} (h : s.toList.head? = some '-') (v : UInt32) :
    read base s ≠ .ok v := by
  obtain ⟨cs, hs⟩ := List.head?_eq_some_iff.1 h
  have hdigit : base.digit? '-' = none := by cases base <;> decide
  simp [read, hs, readDigits, hdigit, Except.map]

end Numeral

/-! ## References -/

namespace Reference

/-- What only character data takes: a number after a plus sign, and one without a digit but zero. -/
def IsLoose : Reference → Prop
  | entity _ => False
  | character _ number => number.toList.head? = some '+' ∨ ∀ c ∈ number.toList, c = '0'

instance : DecidablePred IsLoose
  | entity _ => inferInstanceAs (Decidable False)
  | character _ number =>
    have : Decidable (∀ c ∈ number.toList, c = '0') := List.decidableBAll _ number.toList
    inferInstanceAs (Decidable (_ ∨ _))

/-- A value takes a reference that character data takes and that is not loose, for the same
character. -/
theorem inValue_eq_ok {r : Reference} {c : Char} :
    r.inValue = .ok c ↔ r.inText? = some c ∧ ¬ r.IsLoose := by
  cases r with
  | entity name =>
    cases h : Entity.ofName? name <;> simp [inValue, inText?, IsLoose, h]
  | character base number =>
    by_cases hplus : number.toList.head? = some '+'
    · simp [inValue, IsLoose, hplus]
    by_cases hminus : number.toList.head? = some '-'
    · cases h : Numeral.read base number with
      | error fault => simp [inValue, inText?, hminus, h, Except.toOption]
      | ok v => exact absurd h (Numeral.read_of_minus hminus v)
    have hzero := @Numeral.read_eq_zero base number hplus
    cases h : Numeral.read base number with
    | error fault => simp [inValue, inText?, hplus, hminus, h, Except.toOption]
    | ok v =>
      have hne : number.toList ≠ [] := by
        intro hnil
        simp [Numeral.read, hnil] at h
      have hloose : (character base number).IsLoose ↔ v = 0 := by
        simp [IsLoose, hplus, ← hzero.trans (and_iff_right hne), h]
      rw [hloose]
      by_cases hv : v = 0
      · simp [inValue, hplus, hminus, h, hv]
      · cases hc : character? v <;>
          simp [inValue, inText?, hplus, hminus, h, hv, hc, Except.toOption]

end Reference

open Utf8 (encode)

theorem resolve_encode_eq_ok {name s : String} : Reading.resolve (encode name) = .ok s ↔
    ∃ c, (Reference.ofName name).inText? = some c ∧ s = c.toString := by
  have hdecode : Reading.decode (encode name) = .ok name := by
    rw [Reading.decode, Utf8.decode_encode]
    rfl
  rw [Reading.resolve, hdecode]
  cases h : (Reference.ofName name).inText? with
  | none => simp [h, bind, Except.bind]
  | some c => simp [h, bind, Except.bind, pure, Except.pure, eq_comm]

namespace AttributeValue

/-- A value that is one reference. -/
theorem read_reference_eq_ok {name s : String} (hname : ∀ c ∈ name.toList, inName c) :
    read (ascii "&" ++ encode name ++ ascii ";") = .ok s ↔
      ∃ c, (Reference.ofName name).inValue = .ok c ∧ s = c.toString := by
  have hraw : ascii "&" ++ encode name ++ ascii ";" =
      encode (.ofList ('&' :: (name.toList ++ [';']))) := by
    simp [encode, ascii, Utf8.utf8EncodeChar_ascii, byte]
  have hdrop : (name.toList ++ [';']).dropWhile inName = [';'] := dropWhile_append_cons hname rfl
  have htake : (name.toList ++ [';']).takeWhile inName = name.toList :=
    takeWhile_append_cons hname rfl
  rw [hraw, read, Utf8.decode_encode]
  dsimp only
  rw [String.toList_ofList, unescapeFrom, if_pos rfl]
  split
  · rename_i rest h
    cases hdrop.symm.trans h
    simp only [htake, String.ofList_toList]
    cases (Reference.ofName name).inValue with
    | error fault => simp
    | ok c =>
      simp only [unescapeFrom, Except.ok.injEq, exists_eq_left']
      exact eq_comm
  · rename_i h
    exact absurd hdrop (h [])

end AttributeValue

/-- An attribute value takes the references that character data takes, for the same characters, but
for the loose ones. -/
theorem read_reference_iff_resolve {name s : String}
    (hname : ∀ c ∈ name.toList, c ≠ '&' ∧ c ≠ ';') :
    AttributeValue.read (ascii "&" ++ encode name ++ ascii ";") = .ok s ↔
      Reading.resolve (encode name) = .ok s ∧ ¬ (Reference.ofName name).IsLoose := by
  have hinName : ∀ c ∈ name.toList, AttributeValue.inName c := fun c hc => by
    simpa [AttributeValue.inName] using hname c hc
  rw [AttributeValue.read_reference_eq_ok hinName, resolve_encode_eq_ok]
  simp only [Reference.inValue_eq_ok]
  constructor
  · rintro ⟨c, ⟨hc, hloose⟩, rfl⟩
    exact ⟨⟨c, hc, rfl⟩, hloose⟩
  · rintro ⟨⟨c, hc, rfl⟩, hloose⟩
    exact ⟨c, ⟨hc, hloose⟩, rfl⟩

/-- Leading zeros and letters in either case. -/
theorem read_reference_of_leading_zero :
    (∀ c ∈ "#x004a".toList, c ≠ '&' ∧ c ≠ ';') ∧ ¬ (Reference.ofName "#x004a").IsLoose ∧
      Reading.resolve (encode "#x004a") = .ok "J" ∧
      AttributeValue.read (ascii "&" ++ encode "#x004a" ++ ascii ";") = .ok "J" := by
  have hname : ∀ c ∈ "#x004a".toList, c ≠ '&' ∧ c ≠ ';' := by simp
  have hloose : ¬ (Reference.ofName "#x004a").IsLoose := by decide +kernel
  have hresolve : Reading.resolve (encode "#x004a") = .ok "J" := by decide +kernel
  exact ⟨hname, hloose, hresolve, (read_reference_iff_resolve hname).2 ⟨hresolve, hloose⟩⟩

/-- A plus sign and zero are taken in the body of a description and refused in a name. -/
theorem resolve_of_plus_and_zero :
    let body (r : String) := (parse (ascii ("<protocol name='p'><description summary='s'>" ++ r ++
      "</description></protocol>"))).result.map (·.description.map Description.body)
    let name (r : String) := (parse (ascii ("<protocol name='" ++ r ++ "'/>"))).result.map
      Protocol.name
    body "&#+65;" = .ok (some "A") ∧
      name "&#+65;" = .error ⟨1, .schema (.badAttribute (.badValue .signed))⟩ ∧
      body "&#0;" = .ok (some "\x00") ∧
      name "&#0;" = .error ⟨1, .schema (.badAttribute (.badValue .zero))⟩ := by
  decide +kernel

end WaylandDoc
