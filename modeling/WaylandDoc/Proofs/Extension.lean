import Mathlib.Data.List.Induction
import WaylandDoc.Proofs.Call
import WaylandDoc.Proofs.Cuts

/-!
# Errors that stay

Reading stops at the first token that is in error. If that token is not a text, it is the same in
every longer document, and so are the tokens before it; then the error is the same too, with its
line and with what was written before it (`parse_append_of_isFinal`). The other errors are those of
the end of a document, which another end may mend.
-/

namespace WaylandDoc

/-- The error is that of a tag or of a reference: nothing that follows could undo it. -/
def DocumentError.isFinal : DocumentError → Bool
  | unreadable (.mismatchedEnd ..) | unreadable (.unmatchedEnd _) => true
  | unreadable _ | notUtf8 _ | unclosedElements _ => false
  | unknownReference _ => true
  | schema e => e != .noProtocol

/-! ## The beginning of a document -/

/-- A mark is complete after three bytes. -/
theorem dropMark_append (s u : Bytes) :
    dropMark (s ++ u) = dropMark s ++ u ∨ s = [] ∨ s = [0xEF] ∨ s = [0xEF, 0xBB] := by
  match s with
  | [] => simp
  | [b] =>
    by_cases hb : b = 0xEF
    · simp [hb]
    · left
      simp [dropMark, hb]
  | [b, c] =>
    by_cases hb : b = 0xEF ∧ c = 0xBB
    · simp [hb]
    · left
      rw [not_and] at hb
      simp +contextual [dropMark, hb]
  | b :: c :: d :: s =>
    left
    by_cases hb : b = 0xEF ∧ c = 0xBB ∧ d = 0xBF
    · obtain ⟨rfl, rfl, rfl⟩ := hb
      rfl
    · rw [not_and, not_and] at hb
      simp +contextual [dropMark, hb]

theorem dropMark_eq_self {s : Bytes} : dropMark s = s ↔ ¬ [0xEF, 0xBB, 0xBF] <+: s := by
  constructor
  · rintro h ⟨u, rfl⟩
    have hlength : (dropMark (0xEF :: 0xBB :: 0xBF :: u)).length = u.length := rfl
    rw [List.cons_append, List.cons_append, List.cons_append, List.nil_append] at h
    rw [h, List.length_cons, List.length_cons, List.length_cons] at hlength
    omega
  · intro h
    unfold dropMark
    split
    · exact absurd ⟨_, rfl⟩ h
    · rfl

theorem length_dropMark_le (s : Bytes) : (dropMark s).length ≤ s.length := by
  unfold dropMark
  split
  · simp only [List.length_cons]
    omega
  · exact Nat.le_refl _

theorem lineAt_append {s : Bytes} {offset : Nat} (h : offset ≤ s.length) (u : Bytes) :
    lineAt (s ++ u) offset = lineAt s offset := by
  rw [lineAt, lineAt, List.take_append_of_le_length h]

namespace Token

/-! ## Errors of the scanner -/

section Failed

variable {e : MarkupError} {s left : Bytes}

theorem not_isFinal_of_ofCut {unclosed : MarkupError} {form : Bytes → Except MarkupError Token}
    {cut : Option (Bytes × Bytes)} (hunclosed : (DocumentError.unreadable unclosed).isFinal = false)
    (hform : ∀ content e, form content = .error e → (DocumentError.unreadable e).isFinal = false)
    (h : Scan.ofCut unclosed form cut = .failed e left) :
    (DocumentError.unreadable e).isFinal = false := by
  unfold Scan.ofCut at h
  split at h
  · cases h
    exact hunclosed
  · split at h
    · cases h
    · rename_i hcontent
      cases h
      exact hform _ _ hcontent

theorem not_isFinal_of_scanDeclaration (h : scanDeclaration s = .failed e left) :
    (DocumentError.unreadable e).isFinal = false := by
  unfold scanDeclaration at h
  split at h
  · cases h
    rfl
  · split at h
    · split at h
      · cases h
        rfl
      · refine not_isFinal_of_ofCut rfl (fun content e he => ?_) h
        unfold ofComment at he
        split at he <;> cases he
        rfl
    · split at h
      · refine not_isFinal_of_ofCut rfl (fun content e he => ?_) h
        unfold ofCData at he
        split at he <;> cases he
        rfl
      · split at h
        · refine not_isFinal_of_ofCut rfl (fun content e he => ?_) h
          unfold ofDoctype at he
          split at he
          · cases he
            rfl
          · split at he <;> cases he
            rfl
        · cases h
          rfl

theorem not_isFinal_of_scanMarkup (h : scanMarkup s = .failed e left) :
    (DocumentError.unreadable e).isFinal = false := by
  unfold scanMarkup at h
  split at h
  · cases h
    rfl
  · split at h
    · exact not_isFinal_of_scanDeclaration h
    · split at h
      · refine not_isFinal_of_ofCut rfl (fun content e he => ?_) h
        unfold ofInstruction at he
        split at he <;> cases he
        rfl
      · split at h
        · refine not_isFinal_of_ofCut rfl (fun content e he => ?_) h
          cases he
        · refine not_isFinal_of_ofCut rfl (fun content e he => ?_) h
          cases he

/-- The errors of end tags are not those of a scanner, which knows of no open elements. -/
theorem not_isFinal_of_scan (h : scan s = .failed e left) :
    (DocumentError.unreadable e).isFinal = false := by
  unfold scan at h
  split at h
  · cases h
  · split at h
    · exact not_isFinal_of_scanMarkup h
    · split at h
      · unfold scanReference at h
        split at h
        · cases h
          rfl
        · split at h <;> cases h
          rfl
      · cases h

end Failed

end Token

/-! ## Reading up to an error -/

namespace Reading

variable {r r' : Reading} {t : Token} {ts : List Token} {f : Failure}

theorem run_append (r : Reading) (ts us : List Token) :
    r.run (ts ++ us) = r.run ts >>= (·.run us) := by
  simp only [run_eq_foldlM, List.foldlM_append]

theorem run_concat (r : Reading) (ts : List Token) (t : Token) :
    r.run (ts ++ [t]) = r.run ts >>= (·.step t) := by
  rw [run_append]
  congr 1
  funext r'
  simp [run_eq_foldlM]

/-- The tokens up to the first that is in error. -/
theorem exists_step_of_error (h : (r.run ts).result = .error f) :
    ∃ before t after r', ts = before ++ [t] ++ after ∧ (r.run before).result = .ok r' ∧
      (r'.step t).result = .error f := by
  induction ts using List.reverseRecOn with
  | nil => cases h
  | append_singleton ts t ih =>
    -- From the end, so that the reading before the last token starts where the whole one does.
    rw [run_concat, Logged.result_bind_eq_error] at h
    rcases h with h | ⟨r', hr', h⟩
    · obtain ⟨before, t', after, r', rfl, hr', h⟩ := ih h
      exact ⟨before, t', after ++ [t], r', by simp, hr', h⟩
    · exact ⟨ts, t, [], r', by simp, hr', h⟩

/-- What follows the token in error is not read. -/
theorem run_append_of_error (hr' : (r.run ts).result = .ok r') (h : (r'.step t).result = .error f)
    (after : List Token) :
    r.run (ts ++ [t] ++ after) = ⟨(r.run (ts ++ [t])).notices, .error f⟩ := by
  have hconcat : (r.run (ts ++ [t])).result = .error f := by
    rw [run_concat, Logged.result_bind_eq_error]
    exact .inr ⟨r', hr', h⟩
  rw [run_append, Logged.bind_of_error hconcat]

/-- An error is before its token or right behind it. -/
theorem offset_le_of_error (h : (r.step t).result = .error f) :
    f.offset ≤ r.offset + t.width := by
  have hschema {x : Except SchemaError Builder}
      (hx : x.mapError (Failure.mk r.offset ∘ .schema) = .error f) :
      f.offset ≤ r.offset + t.width := by
    obtain ⟨e, -, rfl⟩ := mapError_eq_error.1 hx
    exact Nat.le_add_right ..
  have htext {text : Except DocumentError String} (hx : r.addText t text = .error f) :
      f.offset ≤ r.offset + t.width := by
    unfold addText at hx
    split at hx <;> cases hx
    exact Nat.le_add_right ..
  cases t with
  | start tag =>
    simp only [step, Logged.result_bind_eq_error, Logged.result_mapError, Logged.result_pure,
      reduceCtorEq, and_false, exists_false, or_false] at h
    exact hschema h
  | empty tag =>
    simp only [step, Logged.result_bind_eq_error, Logged.result_mapError, Logged.result_pure,
      Logged.result_monadLift, reduceCtorEq, and_false, exists_false, or_false] at h
    rcases h with h | ⟨b, -, h⟩
    · exact hschema h
    · exact hschema h
  | close tag =>
    simp only [step, Logged.result_bind_eq_error, Logged.result_pure,
      Logged.result_monadLift, reduceCtorEq, and_false, exists_false, or_false] at h
    rcases h with h | ⟨names, -, h⟩
    · obtain ⟨e, -, rfl⟩ := mapError_eq_error.1 h
      exact Nat.le_refl _
    · exact hschema h
  | text data => exact htext h
  | cdata data => exact htext h
  | reference name => exact htext h
  | aside markup => cases h

/-- Text that cannot be decoded may be the beginning of one that can. -/
theorem isText_of_error (h : (r.step t).result = .error f) (hf : f.error.isFinal) :
    t.isText = false := by
  cases t with
  | text data =>
    change r.addText (.text data) (decode data) = .error f at h
    unfold addText decode at h
    cases hd : Utf8.decode data with
    | ok s => simp [hd, Except.mapError] at h
    | error e =>
      simp only [hd, Except.mapError, Except.error.injEq] at h
      subst h
      cases hf
  | _ => rfl

theorem foldl_width (ts : List Token) (n : Nat) :
    ts.foldl (fun n t => n + t.width) n = n + (ts.flatMap Token.render).length := by
  induction ts generalizing n with
  | nil => rfl
  | cons t ts ih =>
    rw [List.foldl_cons, ih, List.flatMap_cons, List.length_append, t.width_eq_length_render,
      Nat.add_assoc]

/-- The offset counts the bytes of the tokens that were read. -/
theorem offset_eq_of_run (h : (Reading.run {} ts).result = .ok r) :
    r.offset = (ts.flatMap Token.render).length := by
  obtain ⟨-, names, b, -, -, rfl⟩ := (run_eq_ok (r := {}) rfl).1 h
  exact (foldl_width ts 0).trans (Nat.zero_add _)

end Reading

/-! ## Documents -/

/-- The outcome of a document is that of its tokens up to the first that is in error. -/
theorem parse_of_run_error {input : Bytes} {ts us : List Token} {t : Token} {r : Reading}
    {f : Failure} (hlex : (Token.lex (dropMark input)).1 = ts ++ [t] ++ us)
    (hr : (Reading.run {} ts).result = .ok r) (h : (r.step t).result = .error f) :
    parse input = ⟨(Reading.run {} (ts ++ [t])).notices,
      .error ⟨lineAt input f.offset, f.error⟩⟩ := by
  rcases hend : Token.lex (dropMark input) with ⟨tokens, ending⟩
  rw [hend] at hlex
  subst hlex
  simp only [parse, hend]
  rw [Reading.run_append_of_error hr h, Logged.bind_of_error rfl]
  rfl

/-- An error that stays is that of a token, not of the end of the document. -/
theorem exists_step_of_parse_error {input : Bytes} {e : ParseError}
    (h : (parse input).result = .error e) (he : e.error.isFinal) :
    ∃ ts t us r f, (Token.lex (dropMark input)).1 = ts ++ [t] ++ us ∧
      (Reading.run {} ts).result = .ok r ∧ (r.step t).result = .error f ∧ f.error = e.error := by
  rcases hlex : Token.lex (dropMark input) with ⟨tokens, ending⟩
  obtain ⟨rest, -, hends⟩ := Token.lex_eq_iff.1 hlex
  simp only [parse, hlex, Logged.result_mapError, mapError_eq_error, Logged.result_bind_eq_error,
    Logged.result_monadLift] at h
  obtain ⟨f, h, rfl⟩ := h
  rcases h with h | ⟨r, -, h⟩
  · obtain ⟨ts, t, us, r, rfl, hr, hstep⟩ := Reading.exists_step_of_error h
    exact ⟨ts, t, us, r, f, rfl, hr, hstep, rfl⟩
  · exfalso
    cases ending with
    | broken e width =>
      cases h
      cases hends with
      | broken hscan =>
        rw [Token.not_isFinal_of_scan hscan] at he
        cases he
    | complete =>
      simp only [Reading.finish] at h
      split at h
      · cases h
        cases he
      · obtain ⟨e', he', rfl⟩ := mapError_eq_error.1 h
        cases hp : r.builder.protocol with
        | some p => simp [Builder.finish, hp] at he'
        | none =>
          simp only [Builder.finish, hp, Except.error.injEq] at he'
          subst he'
          cases he

/-- A tag or a reference begins with a byte of markup, so the document is not a part of a mark. -/
theorem dropMark_append_of_mem {input : Bytes} {t : Token}
    (hmem : t ∈ (Token.lex (dropMark input)).1) (ht : t.isText = false) (u : Bytes) :
    dropMark (input ++ u) = dropMark input ++ u := by
  have htext : ∀ s ∈ [[], [0xEF], [0xEF, 0xBB]], ∀ t ∈ (Token.lex (dropMark s)).1, t.isText := by
    decide +kernel
  rcases dropMark_append input u with h | h
  · exact h
  · have hinput : input ∈ [[], [0xEF], [0xEF, 0xBB]] := by simpa using h
    rw [htext input hinput t hmem] at ht
    cases ht

/-- A document that fails in a tag or in a reference fails in the same way whatever is put behind
it: with the same error on the same line and the same notices. So no accepted document begins with
it. -/
theorem parse_append_of_isFinal {input : Bytes} {e : ParseError}
    (h : (parse input).result = .error e) (he : e.error.isFinal) (u : Bytes) :
    parse (input ++ u) = parse input ∧ ∀ p, (parse (input ++ u)).result ≠ .ok p := by
  obtain ⟨ts, t, us, r, f, hlex, hr, hstep, hf⟩ := exists_step_of_parse_error h he
  have ht : t.isText = false := Reading.isText_of_error hstep (hf ▸ he)
  have heq : parse (input ++ u) = parse input := by
    obtain ⟨rest, hcuts, -⟩ := Token.lex_eq_iff.1 (Prod.ext hlex rfl)
    obtain ⟨mid, hcuts, -⟩ := hcuts.exists_of_append
    -- The token in error is not a text, so it is cut out in the same way with `u` behind it.
    have hlast : ∀ t' ∈ (ts ++ [t]).getLast?, t'.isText → mid ≠ [] := by
      simp [ht]
    have hmem : t ∈ (Token.lex (dropMark input)).1 := by simp [hlex]
    have hlex' : (Token.lex (dropMark (input ++ u))).1 =
        ts ++ [t] ++ (Token.lex (mid ++ u)).1 := by
      rw [dropMark_append_of_mem hmem ht, (hcuts.append u hlast).lex_fst]
    have hoffset : f.offset ≤ input.length := by
      have hle := Reading.offset_le_of_error hstep
      have hbytes := congrArg List.length hcuts.eq_append
      have hinput := length_dropMark_le input
      rw [Reading.offset_eq_of_run hr, t.width_eq_length_render] at hle
      simp only [List.flatMap_append, List.flatMap_cons, List.flatMap_nil, List.append_nil,
        List.length_append] at hbytes
      omega
    rw [parse_of_run_error hlex hr hstep, parse_of_run_error hlex' hr hstep,
      lineAt_append hoffset]
  refine ⟨heq, fun p hp => ?_⟩
  rw [heq, h] at hp
  cases hp

/-- A misplaced argument is found before the end of the document is. -/
theorem parse_append_of_misplaced :
    let input := ascii "<protocol name='p'>\n<arg name='a' type='fd'/>"
    let e : ParseError := ⟨2, .schema (.misplaced .arg .message)⟩
    (parse input).result = .error e ∧ e.error.isFinal ∧
      (parse (input ++ ascii "&\n</b></protocol>")).result = .error e := by
  intro input e
  have h : (parse input).result = .error e := by decide +kernel
  have he : e.error.isFinal := by decide
  refine ⟨h, he, ?_⟩
  rw [(parse_append_of_isFinal h he _).1, h]

end WaylandDoc
