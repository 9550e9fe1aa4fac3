import WaylandDoc.Markup.Token

/-!
# Tokens tile the document

The bytes of the first token and what `scan` leaves are the document (`eq_render_append`), so the
tokens of `lex` one after the other are its beginning, and all of it if it is cut to the end.
-/

namespace WaylandDoc

/-- Markup that is closed by marks ends in them. -/
theorem Delimiter.suffix_of_cut_marks {mark : UInt8} {count n : Nat} {seen s content rest : Bytes}
    (hn : List.replicate n mark <+: seen)
    (h : (marks mark count).cut n seen s = some (content, rest)) :
    List.replicate count mark <:+ content := by
  induction s generalizing n seen with
  | nil => simp [cut] at h
  | cons b s ih =>
    simp only [cut] at h
    split at h
    · rename_i hb
      simp only [marks, Bool.and_eq_true, decide_eq_true_eq] at hb
      cases h
      have hc : List.replicate count mark <+: List.replicate n mark :=
        ⟨List.replicate (n - count) mark, by
          rw [List.replicate_append_replicate, Nat.add_sub_cancel' hb.2]⟩
      simpa using List.reverse_suffix.2 (hc.trans hn)
    · refine ih ?_ h
      simp only [marks]
      split
      · rename_i hm
        rw [beq_iff_eq.1 hm, List.replicate_succ]
        exact List.cons_prefix_cons.2 ⟨rfl, hn⟩
      · exact List.nil_prefix

namespace Token

theorem render_ofTag (content : Bytes) :
    (ofTag content).render = ascii "<" ++ content ++ ascii ">" := by
  unfold ofTag
  split
  · rename_i h
    rw [List.getLast?_eq_some_iff] at h
    obtain ⟨ys, rfl⟩ := h
    simp [render, ascii, byte]
  · rfl

theorem render_of_ofComment {content : Bytes} {t : Token} (h : ofComment content = .ok t) :
    t.render = ascii "<" ++ content ++ ascii ">" := by
  unfold ofComment at h
  split at h <;> cases h
  rfl

theorem render_of_ofDoctype {content : Bytes} {t : Token} (h : ofDoctype content = .ok t) :
    t.render = ascii "<" ++ content ++ ascii ">" := by
  unfold ofDoctype at h
  split at h
  · cases h
  · split at h <;> cases h
    rfl

theorem render_of_ofInstruction {content : Bytes} {t : Token} (h : ofInstruction content = .ok t) :
    t.render = ascii "<" ++ content ++ ascii ">" := by
  unfold ofInstruction at h
  split at h <;> cases h
  rfl

theorem render_of_ofCData {content : Bytes} {t : Token}
    (hc : List.replicate 2 (byte ']') <:+ content) (h : ofCData content = .ok t) :
    t.render = ascii "<" ++ content ++ ascii ">" := by
  rw [show List.replicate 2 (byte ']') = ascii "]]" by decide] at hc
  unfold ofCData at h
  split at h <;> cases h
  rename_i hp
  obtain ⟨data, rfl⟩ := List.isPrefixOf_iff_prefix.1 hp
  have hd : ascii "]]" <:+ data := by
    match data, hc with
    | [], hc => exact absurd hc (by decide)
    | [b], hc =>
      have := List.reverse_prefix.2 hc
      simp [ascii] at this
    | b :: c :: data, hc =>
      exact List.suffix_of_suffix_length_le hc (List.suffix_append _ _) (by simp [ascii])
  obtain ⟨data, rfl⟩ := hd
  simp [render, ascii]

/-- Markup that was cut out is given back if its form is. -/
theorem eq_render_append_of_ofCut {σ : Type} {d : Delimiter σ} {state : σ} {seen s rest : Bytes}
    {e : MarkupError} {form : Bytes → Except MarkupError Token} {t : Token}
    (hform : ∀ content rest, d.cut state seen s = some (content, rest) →
      form content = .ok t → t.render = ascii "<" ++ content ++ ascii ">")
    (h : Scan.ofCut e form (d.cut state seen s) = .token t rest) :
    byte '<' :: (seen.reverse ++ s) = t.render ++ rest := by
  unfold Scan.ofCut at h
  split at h
  · cases h
  · rename_i content rest' hcut
    split at h
    · rename_i hf
      cases h
      rw [hform _ _ hcut hf, Delimiter.eq_append_of_cut hcut]
      simp [ascii, byte]
    · cases h

theorem eq_render_append_of_scanDeclaration {s rest : Bytes} {t : Token}
    (h : scanDeclaration s = .token t rest) :
    byte '<' :: byte '!' :: s = t.render ++ rest := by
  unfold scanDeclaration at h
  split at h
  · cases h
  · split at h
    · split at h
      · cases h
      · simpa using eq_render_append_of_ofCut (fun _ _ _ hf => render_of_ofComment hf) h
    · split at h
      · simpa using eq_render_append_of_ofCut (fun _ _ hcut hf =>
          render_of_ofCData (Delimiter.suffix_of_cut_marks (by exact List.nil_prefix) hcut) hf) h
      · split at h
        · simpa using eq_render_append_of_ofCut (fun _ _ _ hf => render_of_ofDoctype hf) h
        · cases h

theorem eq_render_append_of_scanMarkup {s rest : Bytes} {t : Token}
    (h : scanMarkup s = .token t rest) : byte '<' :: s = t.render ++ rest := by
  unfold scanMarkup at h
  split at h
  · cases h
  · rename_i b s
    split at h
    · rename_i hb
      rw [hb]
      exact eq_render_append_of_scanDeclaration h
    · split at h
      · simpa using eq_render_append_of_ofCut (fun _ _ _ hf => render_of_ofInstruction hf) h
      · split at h
        · rename_i hb
          unfold Scan.ofCut at h
          split at h
          · cases h
          · rename_i hcut
            cases h
            have := Delimiter.eq_append_of_cut hcut
            simp only [List.reverse_nil, List.nil_append] at this
            rw [hb, this]
            simp [render, ascii, byte]
        · simpa using eq_render_append_of_ofCut (fun content _ _ hf =>
            Except.ok.inj hf ▸ render_ofTag content) h

theorem eq_render_append_of_scanReference {s rest : Bytes} {t : Token}
    (h : scanReference s = .token t rest) : byte '&' :: s = t.render ++ rest := by
  unfold scanReference at h
  split at h
  · cases h
  · rename_i b r hd
    split at h
    · rename_i hb
      cases h
      have := List.takeWhile_append_dropWhile (p := inReference) (l := s)
      rw [hd, hb] at this
      conv => lhs; rw [← this]
      simp [render, ascii, byte]
    · cases h

/-- The first token and what follows it are the document. -/
theorem eq_render_append {s rest : Bytes} {t : Token} (h : scan s = .token t rest) :
    s = t.render ++ rest := by
  unfold scan at h
  split at h
  · cases h
  · rename_i b s
    split at h
    · rename_i hb
      rw [hb]
      exact eq_render_append_of_scanMarkup h
    · split at h
      · rename_i hb
        rw [hb]
        exact eq_render_append_of_scanReference h
      · cases h
        simp [render]

theorem Scan.ofCut_ne_done {e : MarkupError} {form : Bytes → Except MarkupError Token}
    {cut : Option (Bytes × Bytes)} : Scan.ofCut e form cut ≠ .done := by
  unfold Scan.ofCut
  split
  · nofun
  · split <;> nofun

theorem scanDeclaration_ne_done (s : Bytes) : scanDeclaration s ≠ .done := by
  unfold scanDeclaration
  repeat' split
  all_goals first | exact Scan.ofCut_ne_done | nofun

theorem scanMarkup_ne_done (s : Bytes) : scanMarkup s ≠ .done := by
  unfold scanMarkup
  repeat' split
  all_goals first | exact Scan.ofCut_ne_done | exact scanDeclaration_ne_done _ | nofun

theorem scanReference_ne_done (s : Bytes) : scanReference s ≠ .done := by
  unfold scanReference
  repeat' split
  all_goals nofun

/-- Only the empty document has no first token. -/
theorem scan_eq_done {s : Bytes} : scan s = .done ↔ s = [] := by
  refine ⟨fun h => ?_, fun h => h ▸ rfl⟩
  unfold scan at h
  split at h
  · rfl
  · split at h
    · exact absurd h (scanMarkup_ne_done _)
    · split at h
      · exact absurd h (scanReference_ne_done _)
      · cases h

/-- The bytes of the tokens after `seen`. -/
theorem render_append_of_lexFrom {seen : List Token} {s : Bytes} {ts : List Token} {e : Ending}
    (h : lexFrom seen s = (ts, e)) : ∃ new rest, ts = seen.reverse ++ new ∧
      s = new.flatMap render ++ rest ∧ (e = .complete → rest = []) := by
  fun_induction lexFrom seen s with
  | case1 seen s hs =>
    cases h
    refine ⟨[], s, by simp, by simp, fun _ => ?_⟩
    exact scan_eq_done.1 hs
  | case2 seen s t rest hs ih =>
    obtain ⟨new, left, rfl, rfl, hl⟩ := ih h
    exact ⟨t :: new, left, by simp, by simp [eq_render_append hs], hl⟩
  | case3 seen s e rest hs =>
    cases h
    exact ⟨[], s, by simp, by simp, fun hc => by cases hc⟩

/-- The tokens of a document tile its beginning, and all of it if nothing is wrong. -/
theorem lex_tiles {s : Bytes} {ts : List Token} {e : Ending} (h : lex s = (ts, e)) :
    ∃ rest, s = ts.flatMap render ++ rest ∧ (e = .complete → rest = []) := by
  obtain ⟨new, rest, rfl, hs, hr⟩ := render_append_of_lexFrom h
  exact ⟨rest, by simpa using hs, hr⟩

end Token

end WaylandDoc
