import Mathlib.Data.List.Chain
import WaylandDoc.Proofs.Writing

/-!
# Documents put together from tokens

A token stands for itself if `scan` finds it wherever its bytes are (`Token.Stands`), and all tokens
of a document do. Tokens that stand for themselves are those of the document that they are written
one after the other, if no two texts meet in it (`Token.Cuts.of_stands`).
-/

namespace WaylandDoc

/-- The bytes of a tag between its angle brackets: no other markup begins with them, and every quote
in them is closed. -/
structure Mark.Tagged (s : Bytes) : Prop where
  whole : Whole s
  first : ∃ b t, s = b :: t ∧ b ≠ byte '!' ∧ b ≠ byte '?' ∧ b ≠ byte '/'

namespace Token

variable {s rest : Bytes} {t : Token}

/-! ## Texts -/

theorem exists_of_scanDeclaration (h : scanDeclaration s = .token t rest) :
    ∃ data, t = .cdata data ∨ t = .aside data := by
  unfold scanDeclaration at h
  split at h
  · cases h
  · split at h
    · split at h
      · cases h
      · obtain ⟨content, -, ht⟩ := ofCut_eq_token.1 h
        unfold ofComment at ht
        split at ht <;> cases ht
        exact ⟨content, .inr rfl⟩
    · split at h
      · obtain ⟨content, -, ht⟩ := ofCut_eq_token.1 h
        unfold ofCData at ht
        split at ht <;> cases ht
        exact ⟨_, .inl rfl⟩
      · split at h
        · obtain ⟨content, -, ht⟩ := ofCut_eq_token.1 h
          unfold ofDoctype at ht
          split at ht
          · cases ht
          · split at ht <;> cases ht
            exact ⟨content, .inr rfl⟩
        · cases h

theorem exists_of_ofInstruction {content : Bytes} (h : ofInstruction content = .ok t) :
    ∃ markup, t = .aside markup := by
  unfold ofInstruction at h
  split at h <;> cases h
  exact ⟨content, rfl⟩

theorem not_isText_of_scanMarkup (h : scanMarkup s = .token t rest) : t.isText = false := by
  unfold scanMarkup at h
  split at h
  · cases h
  · split at h
    · obtain ⟨data, rfl | rfl⟩ := exists_of_scanDeclaration h <;> rfl
    · split at h
      · obtain ⟨content, -, ht⟩ := ofCut_eq_token.1 h
        obtain ⟨markup, rfl⟩ := exists_of_ofInstruction ht
        rfl
      · split at h
        · obtain ⟨content, -, ht⟩ := ofCut_eq_token.1 h
          cases ht
          rfl
        · obtain ⟨content, -, ht⟩ := ofCut_eq_token.1 h
          cases ht
          unfold ofTag
          split <;> rfl

/-- Character data goes on to the next markup or reference. -/
def Breaks (s : Bytes) : Prop := ∀ b ∈ s.head?, inText b = false

theorem breaks_dropWhile (s : Bytes) : Breaks (s.dropWhile inText) := by
  intro b hb
  obtain ⟨rest, hrest⟩ := List.head?_eq_some_iff.1 hb
  exact (eq_append_of_dropWhile hrest).2

theorem scan_eq_text {data : Bytes} :
    scan s = .token (.text data) rest ↔
      s = data ++ rest ∧ data ≠ [] ∧ (∀ b ∈ data, inText b) ∧ Breaks rest := by
  constructor
  · intro h
    refine ⟨eq_render_append h, ?_⟩
    unfold scan at h
    split at h
    · cases h
    · rename_i b s
      split at h
      · cases not_isText_of_scanMarkup h
      · split at h
        · obtain ⟨name, -, -, ht⟩ := scanReference_eq_token.1 h
          cases ht
        · rename_i hlt hamp
          cases h
          refine ⟨List.cons_ne_nil b _, ?_, breaks_dropWhile s⟩
          rw [List.forall_mem_cons]
          exact ⟨by simp [inText, hlt, hamp], fun c => List.mem_takeWhile_imp⟩
  · rintro ⟨rfl, hne, hdata, hrest⟩
    exact scan_text hne hdata hrest

/-! ## Tokens that stand for themselves -/

/-- Two texts that meet are one. -/
def Apart (t u : Token) : Prop := t.isText = true → u.isText = false

/-- The token is found wherever its bytes are, a text if markup or a reference follows. -/
def Stands (t : Token) : Prop :=
  ∀ u, (t.isText → Breaks u) → scan (t.render ++ u) = .token t u

theorem stands_of_scan (h : scan s = .token t rest) : Stands t := by
  intro u hu
  cases ht : t.isText with
  | true =>
    cases t with
    | text data =>
      obtain ⟨-, hne, hdata, -⟩ := scan_eq_text.1 h
      exact scan_text hne hdata (hu ht)
    | _ => cases ht
  | false =>
    rw [eq_render_append h, ← List.nil_append rest, ← List.append_assoc, List.append_nil] at h
    exact scan_append u (scan_of_append rest h) (by simp [ht])

theorem stands_text {data : Bytes} :
    Stands (.text data) ↔ data ≠ [] ∧ ∀ b ∈ data, inText b := by
  constructor
  · intro h
    obtain ⟨-, hne, hdata, -⟩ := scan_eq_text.1 (h [] fun _ => nofun)
    exact ⟨hne, hdata⟩
  · rintro ⟨hne, hdata⟩ u hu
    exact scan_text hne hdata (hu rfl)

section Tags

variable {tag : Bytes}

theorem stands_start (h : Mark.Tagged tag) (hslash : tag.getLast? ≠ some (byte '/')) :
    Stands (.start tag) := by
  intro u _
  obtain ⟨b, s, hcons, hb⟩ := h.first
  have hbytes : (start tag).render ++ u = byte '<' :: tag ++ byte '>' :: u := by
    simp [render, ascii, byte]
  rw [hbytes, Mark.scan_whole h.whole hcons hb, ofTag, if_neg hslash]

theorem stands_empty (h : Mark.Tagged tag) : Stands (.empty tag) := by
  intro u _
  obtain ⟨b, s, hcons, hb⟩ := h.first
  have hbytes : (empty tag).render ++ u = byte '<' :: (tag ++ [byte '/']) ++ byte '>' :: u := by
    simp [render, ascii, byte]
  have hwhole := h.whole.append (Mark.whole_singleton (b := byte '/') (by decide))
  rw [hbytes, Mark.scan_whole hwhole (by rw [hcons, List.cons_append]) hb, ofTag,
    if_pos List.getLast?_concat, List.dropLast_concat]

theorem stands_close (h : Mark.Whole tag) : Stands (.close tag) := by
  intro u _
  have hcut := h.cut u
  have hbytes : (close tag).render ++ u = byte '<' :: byte '/' :: (tag ++ byte '>' :: u) := by
    simp [render, ascii, byte]
  rw [hbytes, scan, if_pos rfl, scanMarkup, if_neg (by decide), if_neg (by decide), if_pos rfl,
    hcut]
  rfl

end Tags

theorem breaks_render (ht : t.isText = false) (u : Bytes) : Breaks (t.render ++ u) := by
  intro b hb
  cases t with
  | text data => cases ht
  | start tag | empty tag | close tag | cdata data | reference name | aside markup =>
    simp only [render, ascii, List.append_assoc] at hb
    cases hb
    rfl

namespace Cuts

variable {ts : List Token}

theorem stands (h : Cuts s ts rest) : ∀ t ∈ ts, t.Stands := by
  induction h with
  | nil => simp
  | cons hs _ ih => exact List.forall_mem_cons.2 ⟨stands_of_scan hs, ih⟩

theorem isChain (h : Cuts s ts rest) : ts.IsChain Apart := by
  induction h with
  | nil => exact .nil
  | @cons s mid rest t ts hs hts ih =>
    refine List.isChain_cons.2 ⟨fun u hu ht => ?_, ih⟩
    -- What follows a text does not begin like one.
    cases t with
    | text data =>
      obtain ⟨-, -, -, hmid⟩ := scan_eq_text.1 hs
      cases hts with
      | nil => cases hu
      | cons hu' =>
        cases hu
        cases u with
        | text data' =>
          obtain ⟨rfl, hne, hdata, -⟩ := scan_eq_text.1 hu'
          obtain ⟨b, data', rfl⟩ := List.exists_cons_of_ne_nil hne
          cases (hdata b List.mem_cons_self).symm.trans (hmid b rfl)
        | _ => rfl
    | _ => cases ht

/-- Tokens that are apart are found one after the other. -/
theorem of_stands (h : ∀ t ∈ ts, t.Stands) (hapart : ts.IsChain Apart)
    (hlast : ∀ t ∈ ts.getLast?, t.isText → Breaks rest) :
    Cuts (ts.flatMap Token.render ++ rest) ts rest := by
  induction ts with
  | nil => exact .nil rest
  | cons t ts ih =>
    rw [List.forall_mem_cons] at h
    rw [List.isChain_cons] at hapart
    rw [List.flatMap_cons, List.append_assoc]
    refine .cons (h.1 _ fun ht => ?_) (ih h.2 hapart.2 fun u hu => hlast u ?_)
    · cases ts with
      | nil => exact hlast t rfl ht
      | cons u ts =>
        rw [List.flatMap_cons, List.append_assoc]
        exact breaks_render (hapart.1 u rfl ht) _
    · cases ts with
      | nil => cases hu
      | cons => exact hu

end Cuts

/-- Text is never what cannot be read. -/
theorem Ends.breaks {e : Ending} (h : Ends s e) : Breaks s := by
  cases h with
  | complete h =>
    rw [scan_eq_done.1 h]
    nofun
  | broken h =>
    intro b hb
    obtain ⟨s, rfl⟩ := List.head?_eq_some_iff.1 hb
    by_contra htext
    simp only [inText, Bool.not_eq_false, Bool.and_eq_true, bne_iff_ne] at htext
    rw [scan, if_neg htext.1, if_neg htext.2] at h
    cases h

end Token

end WaylandDoc
