import WaylandDoc.Proofs.Walk

/-!
# Divided texts

Bytes that are cut between two characters are UTF-8 if both parts are (`Utf8.decode_append_eq_ok`),
so a text may be divided there without any difference to a walk (`walk_of_divided`).
-/

namespace WaylandDoc

namespace Utf8

/-- The byte is inside of a character. -/
def Continues (b : UInt8) : Prop := 0x80 ≤ b ∧ b ≤ 0xBF

instance : DecidablePred Continues := fun b => inferInstanceAs (Decidable (0x80 ≤ b ∧ b ≤ 0xBF))

section First

variable {code seen n : Nat} {low high b : UInt8} {c : Char} {s rest : Bytes}

/-- A character is found by its own bytes, and those after the first continue it. -/
theorem follow_eq_char (hlow : 0x80 ≤ low) (hhigh : high ≤ 0xBF)
    (h : follow code seen n low high s = .char c rest) :
    ∃ bs, s = bs ++ rest ∧ (∀ b ∈ bs, Continues b) ∧
      ∀ u, follow code seen n low high (bs ++ u) = .char c u := by
  fun_induction follow code seen n low high s with
  | case1 =>
    cases h
    exact ⟨[], rfl, by simp, fun u => by simp [follow]⟩
  | case2 => cases h
  | case3 code seen n low high b s hb ih =>
    obtain ⟨bs, rfl, hbs, hchar⟩ := ih (by decide) (by decide) h
    refine ⟨b :: bs, rfl, List.forall_mem_cons.2 ⟨⟨?_, ?_⟩, hbs⟩, fun u => ?_⟩
    · exact UInt8.le_trans hlow hb.1
    · exact UInt8.le_trans hb.2 hhigh
    · rw [List.cons_append, follow, if_pos hb, hchar]
  | case4 => cases h

theorem first_eq_char (h : first b s = .char c rest) :
    ∃ bs, s = bs ++ rest ∧ (∀ b ∈ bs, Continues b) ∧ ∀ u, first b (bs ++ u) = .char c u := by
  unfold first at h ⊢
  split at h
  · rename_i hb
    cases h
    exact ⟨[], rfl, by simp, fun u => by simp [hb]⟩
  rename_i h80
  simp only [h80, if_false]
  split at h
  · cases h
  rename_i hC2
  simp only [hC2, if_false]
  split at h
  · rename_i hb
    simp only [hb, if_true]
    exact follow_eq_char (by decide) (by decide) h
  rename_i hE0
  simp only [hE0, if_false]
  split at h
  · rename_i hb
    simp only [hb, if_true]
    exact follow_eq_char (by split <;> decide) (by split <;> decide) h
  rename_i hF0
  simp only [hF0, if_false]
  split at h
  · rename_i hb
    simp only [hb, if_true]
    exact follow_eq_char (by split <;> decide) (by split <;> decide) h
  · cases h

end First

/-- The characters of the bytes. -/
inductive Spells : Bytes → List Char → Prop where
  | nil : Spells [] []
  | cons {b : UInt8} {s rest : Bytes} {c : Char} {cs : List Char} (hc : first b s = .char c rest)
      (h : Spells rest cs) : Spells (b :: s) (c :: cs)

theorem decodeFrom_eq_ok {text u : String} {index : Nat} {s : Bytes} :
    decodeFrom text index s = .ok u ↔ ∃ cs, Spells s cs ∧ u = text ++ .ofList cs := by
  constructor
  · intro h
    fun_induction decodeFrom text index s with
    | case1 text index =>
      cases h
      exact ⟨[], .nil, by simp⟩
    | case2 text index b s c rest hc ih =>
      obtain ⟨cs, hcs, rfl⟩ := ih h
      refine ⟨c :: cs, .cons hc hcs, ?_⟩
      rw [String.ofList_cons, String.push_eq_append, String.append_assoc]
    | case3 => cases h
    | case4 => cases h
  · rintro ⟨cs, hcs, rfl⟩
    induction hcs generalizing text index with
    | nil => simp [decodeFrom]
    | @cons b s rest c cs hc hcs ih =>
      rw [decodeFrom]
      split
      · rename_i hc'
        cases hc.symm.trans hc'
        rw [ih, String.ofList_cons, String.push_eq_append, String.append_assoc]
      · rename_i hc'
        cases hc.symm.trans hc'
      · rename_i hc'
        cases hc.symm.trans hc'

section Append

variable {x y : Bytes} {cs ds : List Char}

theorem Spells.append (hx : Spells x cs) (hy : Spells y ds) : Spells (x ++ y) (cs ++ ds) := by
  induction hx with
  | nil => exact hy
  | @cons b s rest c cs hc hcs ih =>
    obtain ⟨bs, rfl, -, hchar⟩ := first_eq_char hc
    have hc' : first b (bs ++ rest ++ y) = .char c (rest ++ y) := by
      rw [List.append_assoc, hchar]
    exact .cons hc' ih

/-- No character goes on in what begins between two. -/
theorem Spells.exists_of_append (h : Spells (x ++ y) cs) (hy : ∀ b ∈ y.head?, ¬ Continues b) :
    ∃ ds es, cs = ds ++ es ∧ Spells x ds ∧ Spells y es := by
  generalize hs : x ++ y = s at h
  induction h generalizing x with
  | nil =>
    obtain ⟨rfl, rfl⟩ := List.append_eq_nil_iff.1 hs
    exact ⟨[], [], rfl, .nil, .nil⟩
  | @cons b s rest c cs hc hcs ih =>
    cases x with
    | nil =>
      cases hs
      exact ⟨[], c :: cs, rfl, .nil, .cons hc hcs⟩
    | cons b' x =>
      obtain ⟨rfl, rfl⟩ := List.cons.inj hs
      obtain ⟨bs, hbs, hcontinues, hchar⟩ := first_eq_char hc
      rcases List.append_eq_append_iff.1 hbs with ⟨mid, rfl, hmid⟩ | ⟨mid, rfl, rfl⟩
      · cases mid with
        | nil =>
          obtain ⟨ds, es, rfl, hds, hes⟩ := ih (x := []) hmid
          exact ⟨c :: ds, es, rfl, .cons (by simpa using hchar []) hds, hes⟩
        | cons d mid =>
          exact absurd (hcontinues d (by simp)) (hy d (by simp [hmid]))
      · obtain ⟨ds, es, rfl, hds, hes⟩ := ih rfl
        exact ⟨c :: ds, es, rfl, .cons (hchar mid) hds, hes⟩

end Append

/-- A text may be cut between two characters. -/
theorem decode_append_eq_ok {x y : Bytes} {w : String} (hy : ∀ b ∈ y.head?, ¬ Continues b) :
    decode (x ++ y) = .ok w ↔ ∃ u v, decode x = .ok u ∧ decode y = .ok v ∧ w = u ++ v := by
  simp only [decode, decodeFrom_eq_ok]
  constructor
  · rintro ⟨cs, hcs, rfl⟩
    obtain ⟨ds, es, rfl, hds, hes⟩ := hcs.exists_of_append hy
    exact ⟨_, _, ⟨ds, hds, rfl⟩, ⟨es, hes, rfl⟩, by simp⟩
  · rintro ⟨_, _, ⟨ds, hds, rfl⟩, ⟨es, hes, rfl⟩, rfl⟩
    exact ⟨ds ++ es, hds.append hes, by simp⟩

end Utf8

/-- Some texts of `ts` are divided in `ps`, each between two of its characters. -/
inductive Divided : List Token → List Token → Prop where
  | nil : Divided [] []
  | cons {ts ps : List Token} (t : Token) (h : Divided ts ps) : Divided (t :: ts) (t :: ps)
  | text {x y : Bytes} {ts ps : List Token} (hx : x ≠ []) (hy : y ≠ [])
      (hbetween : ∀ b ∈ y.head?, ¬ Utf8.Continues b) (h : Divided (.text y :: ts) ps) :
      Divided (.text (x ++ y) :: ts) (.text x :: ps)

theorem advance_text (s : Stage) (data : Bytes) :
    advance s (.text data) = match Utf8.decode data with
      | .ok u => pure (s.1, s.2.text u)
      | .error _ => .fail () := by
  rw [advance, Reading.step, Reading.decode]
  cases Utf8.decode data <;> rfl

theorem advance_text_append (s : Stage) {x y : Bytes} (hy : ∀ b ∈ y.head?, ¬ Utf8.Continues b) :
    advance s (.text (x ++ y)) = advance s (.text x) >>= (advance · (.text y)) := by
  have happend {w : String} := Utf8.decode_append_eq_ok (x := x) (w := w) hy
  simp only [advance_text]
  cases hxy : Utf8.decode (x ++ y) with
  | ok w =>
    obtain ⟨u, v, hu, hv, rfl⟩ := happend.1 hxy
    simp only [hu, hv, pure_bind, Builder.text_text]
  | error e =>
    cases hu : Utf8.decode x with
    | error e => rfl
    | ok u =>
      cases hv : Utf8.decode y with
      | error e => rfl
      | ok v => cases hxy.symm.trans (happend.2 ⟨u, v, hu, hv, rfl⟩)

/-- A walk cannot tell whether texts are divided. -/
theorem walk_of_divided {ts ps : List Token} (h : Divided ts ps) (s : Stage) :
    walk s ps = walk s ts := by
  induction h generalizing s with
  | nil => rfl
  | cons t h ih =>
    rw [walk_cons, walk_cons]
    exact congrArg _ (funext ih)
  | @text x y ts ps hx hy hbetween h ih =>
    rw [walk_cons, walk_cons, advance_text_append s hbetween, bind_assoc]
    refine congrArg _ (funext fun s' => ?_)
    rw [ih, walk_cons]

end WaylandDoc
