import WaylandDoc.Proofs.Division
import WaylandDoc.Proofs.Joining

/-!
# Documents written from tokens

Texts that are written one after the other are one text, and so the tokens of a document are not
always those that it was written from. For the builder it makes no difference (`parse_of_render`).
-/

namespace WaylandDoc

/-! ## Divided texts -/

theorem Divided.flatMap_render {ts ps : List Token} (h : Divided ts ps) :
    ps.flatMap Token.render = ts.flatMap Token.render := by
  induction h with
  | nil => rfl
  | cons t h ih => rw [List.flatMap_cons, List.flatMap_cons, ih]
  | text hx hy hbetween h ih =>
    rw [List.flatMap_cons, ih, List.flatMap_cons, List.flatMap_cons, ← List.append_assoc]
    rfl

theorem Divided.stands {ts ps : List Token} (h : Divided ts ps) (hts : ∀ t ∈ ts, t.Stands) :
    ∀ t ∈ ps, t.Stands := by
  induction h with
  | nil => simp
  | cons t h ih =>
    rw [List.forall_mem_cons] at hts ⊢
    exact ⟨hts.1, ih hts.2⟩
  | @text x y ts ps hx hy hbetween h ih =>
    rw [List.forall_mem_cons] at hts
    obtain ⟨htext, hts⟩ := hts
    rw [Token.stands_text, List.forall_mem_append] at htext
    obtain ⟨-, hxs, hys⟩ := htext
    exact List.forall_mem_cons.2 ⟨Token.stands_text.2 ⟨hx, hxs⟩,
      ih (List.forall_mem_cons.2 ⟨Token.stands_text.2 ⟨hy, hys⟩, hts⟩)⟩

/-! ## Texts that meet -/

theorem Utf8.not_continues_of_decode {s : Bytes} {text : String} (h : decode s = .ok text) :
    ∀ b ∈ s.head?, ¬ Continues b := by
  intro b hb hcontinues
  obtain ⟨rest, rfl⟩ := List.head?_eq_some_iff.1 hb
  obtain ⟨cs, hcs, -⟩ := decodeFrom_eq_ok.1 h
  cases hcs with
  | cons hc hcs =>
    have hlow : ¬ b < 0x80 := UInt8.not_lt.2 hcontinues.1
    have hhigh : b < 0xC2 := UInt8.lt_of_le_of_lt hcontinues.2 (by decide)
    simp [first, hlow, hhigh] at hc

/-- Texts that meet are one text, and the others are divided nowhere. -/
theorem exists_divided {ps : List Token} (hstands : ∀ t ∈ ps, t.Stands)
    (hread : ∀ t ∈ ps, t.Readable) :
    ∃ ts, Divided ts ps ∧ (∀ t ∈ ts, t.Stands ∧ t.Readable) ∧ ts.IsChain Token.Apart := by
  induction ps with
  | nil => exact ⟨[], .nil, by simp, .nil⟩
  | cons t ps ih =>
    rw [List.forall_mem_cons] at hstands hread
    obtain ⟨ts, hdivided, hts, hapart⟩ := ih hstands.2 hread.2
    by_cases hmeet : ∀ u ∈ ts.head?, Token.Apart t u
    · exact ⟨t :: ts, .cons t hdivided,
        List.forall_mem_cons.2 ⟨⟨hstands.1, hread.1⟩, hts⟩, List.isChain_cons.2 ⟨hmeet, hapart⟩⟩
    · simp only [Token.Apart, not_forall, Bool.not_eq_false, exists_prop] at hmeet
      obtain ⟨u, hu, htext, hutext⟩ := hmeet
      obtain ⟨us, rfl⟩ := List.head?_eq_some_iff.1 hu
      cases t with
      | text x =>
        cases u with
        | text y =>
          rw [List.forall_mem_cons] at hts
          obtain ⟨⟨hystands, v, hv⟩, hus⟩ := hts
          obtain ⟨w, hw⟩ := hread.1
          obtain ⟨hx, hxtext⟩ := Token.stands_text.1 hstands.1
          obtain ⟨hy, hytext⟩ := Token.stands_text.1 hystands
          rw [Reading.decode, mapError_eq_ok] at hv hw
          have hbetween := Utf8.not_continues_of_decode hv
          have hxystands : Token.Stands (.text (x ++ y)) := Token.stands_text.2
            ⟨List.append_ne_nil_of_left_ne_nil hx y, List.forall_mem_append.2 ⟨hxtext, hytext⟩⟩
          have hxyread : Token.Readable (.text (x ++ y)) := by
            refine ⟨w ++ v, ?_⟩
            rw [Reading.decode, mapError_eq_ok]
            exact (Utf8.decode_append_eq_ok hbetween).2 ⟨w, v, hw, hv, rfl⟩
          rw [List.isChain_cons] at hapart
          exact ⟨.text (x ++ y) :: us, .text hx hy hbetween hdivided,
            List.forall_mem_cons.2 ⟨⟨hxystands, hxyread⟩, hus⟩, List.isChain_cons.2 hapart⟩
        | _ => cases hutext
      | _ => cases htext

theorem parse_of_render {input : Bytes} {ts : List Token} {b : Builder} {p : Protocol}
    (hinput : dropMark input = ts.flatMap Token.render) (hstands : ∀ t ∈ ts, t.Stands)
    (hread : ∀ t ∈ ts, t.Readable) (hbalanced : Token.Balanced ts)
    (hb : Builder.applyAll {} (ts.flatMap Token.calls) = .ok b) (hp : b.protocol = some p) :
    (parse input).result = .ok p := by
  obtain ⟨us, hdivided, hus, hapart⟩ := exists_divided hstands hread
  have hlex : Token.lex (dropMark input) = (us, .complete) := by
    have hcuts : Token.Cuts (us.flatMap Token.render ++ []) us [] :=
      .of_stands (fun t ht => (hus t ht).1) hapart fun _ _ _ => nofun
    rw [Token.lex_eq_complete, hinput, hdivided.flatMap_render]
    rwa [List.append_nil] at hcuts
  have hwalk : (walk ([], {}) us).result = .ok ([], b) := by
    rw [← walk_of_divided hdivided, walk_eq_ok]
    exact ⟨hread, hbalanced, hb⟩
  rw [parse_eq_ok_iff_walk, tokens, hlex]
  exact ⟨rfl, b, hwalk, hp⟩

end WaylandDoc
