import WaylandDoc.Proofs.Bounds
import WaylandDoc.Proofs.Truncation
import WaylandDoc.Proofs.Walk

/-!
# Lines of errors

A document fails at a token that is in error, at an end tag, at markup that cannot be read, or at
its end (`located_eq_error`). The tokens tile the document, so the offset of a reading is where its
next token begins: an error of a token is on the line that the token begins on, and an error of the
whole document is on its last line (`line_of_parse_error`).
-/

namespace WaylandDoc

namespace DocumentError

/-- The error of a token, whatever is open and whatever follows. -/
def isOfToken : DocumentError → Bool
  | notUtf8 _ | unknownReference _ => true
  | schema e => e != .noProtocol
  | unreadable _ | unclosedElements _ => false

/-- The error of a document that was read to its end. -/
def isOfDocument : DocumentError → Bool
  | unclosedElements _ => true
  | schema e => e == .noProtocol
  | unreadable _ | notUtf8 _ | unknownReference _ => false

theorem isOfDocument_of_isOfToken {e : DocumentError} (h : e.isOfToken) :
    e.isOfDocument = false := by
  cases e with
  | schema e => simpa [isOfToken, isOfDocument] using h
  | unclosedElements => cases h
  | unreadable | notUtf8 | unknownReference => rfl

end DocumentError

/-! ## Tokens in error -/

/-- The token is in error for a builder that took all that is before it. -/
inductive Token.Faulty (b : Builder) : Token → DocumentError → Prop where
  | start {tag : Bytes} {e : SchemaError} (h : (b.start tag).result = .error e) :
      Faulty b (.start tag) (.schema e)
  | empty {tag : Bytes} {e : SchemaError} (h : (b.start tag).result = .error e) :
      Faulty b (.empty tag) (.schema e)
  | text {data : Bytes} {fault : Utf8.Fault} (h : Utf8.decode data = .error fault) :
      Faulty b (.text data) (.notUtf8 fault)
  | cdata {data : Bytes} {fault : Utf8.Fault} (h : Utf8.decode data = .error fault) :
      Faulty b (.cdata data) (.notUtf8 fault)
  | name {data : Bytes} {fault : Utf8.Fault} (h : Utf8.decode data = .error fault) :
      Faulty b (.reference data) (.notUtf8 fault)
  | reference {data : Bytes} {name : String} (h : Utf8.decode data = .ok name)
      (hname : (Reference.ofName name).inText? = none) :
      Faulty b (.reference data) (.unknownReference name)

namespace Token

open Reading (decode resolve)

variable {b : Builder} {t : Token} {tag data : Bytes} {e : DocumentError}

@[simp] theorem faulty_start :
    Faulty b (.start tag) e ↔ ∃ e', (b.start tag).result = .error e' ∧ e = .schema e' := by
  constructor
  · rintro (⟨h⟩)
    exact ⟨_, h, rfl⟩
  · rintro ⟨e', h, rfl⟩
    exact .start h

@[simp] theorem faulty_empty :
    Faulty b (.empty tag) e ↔ ∃ e', (b.start tag).result = .error e' ∧ e = .schema e' := by
  constructor
  · rintro (_ | ⟨h⟩)
    exact ⟨_, h, rfl⟩
  · rintro ⟨e', h, rfl⟩
    exact .empty h

/-- No builder refuses an end tag. -/
@[simp] theorem not_faulty_close : ¬ Faulty b (.close tag) e := nofun

@[simp] theorem not_faulty_aside : ¬ Faulty b (.aside data) e := nofun

@[simp] theorem faulty_text : Faulty b (.text data) e ↔ decode data = .error e := by
  rw [decode, mapError_eq_error]
  constructor
  · rintro (_ | _ | ⟨h⟩)
    exact ⟨_, h, rfl⟩
  · rintro ⟨fault, h, rfl⟩
    exact .text h

@[simp] theorem faulty_cdata : Faulty b (.cdata data) e ↔ decode data = .error e := by
  rw [decode, mapError_eq_error]
  constructor
  · rintro (_ | _ | _ | ⟨h⟩)
    exact ⟨_, h, rfl⟩
  · rintro ⟨fault, h, rfl⟩
    exact .cdata h

@[simp] theorem faulty_reference : Faulty b (.reference data) e ↔ resolve data = .error e := by
  rw [resolve, bind_eq_error, decode, mapError_eq_error]
  constructor
  · intro h
    cases h with
    | name h => exact .inl ⟨_, h, rfl⟩
    | reference h hname => exact .inr ⟨_, mapError_eq_ok.2 h, by rw [hname]⟩
  · rintro (⟨fault, h, rfl⟩ | ⟨name, hname, h⟩)
    · exact .name h
    · split at h <;> cases h
      rename_i hnone
      exact .reference (mapError_eq_ok.1 hname) hnone

/-- That there is no protocol is not noticed at a token. -/
theorem Faulty.isOfToken (h : t.Faulty b e) (hb : b.Grounded) : e.isOfToken := by
  have hstart {tag : Bytes} {e : SchemaError} (h : (b.start tag).result = .error e) :
      (DocumentError.schema e).isOfToken := by
    have he : e ≠ .noProtocol := fun he => hb.avoids_start rfl tag (he ▸ h)
    simpa [DocumentError.isOfToken] using he
  cases h with
  | start h | empty h => exact hstart h
  | text | cdata | name | reference => rfl

end Token

/-- A sequence of two steps fails in the first if the second never does. -/
theorem Logged.result_bind_eq_error_of_ne {ν ε α β : Type} {x : Logged ν ε α}
    {f : α → Logged ν ε β} {e : ε} (h : ∀ a, x.result = .ok a → (f a).result ≠ .error e) :
    (x >>= f).result = .error e ↔ x.result = .error e := by
  rw [Logged.result_bind_eq_error, or_iff_left]
  rintro ⟨a, ha, hf⟩
  exact h a ha hf

namespace Reading

variable {r : Reading} {t : Token} {f : Failure}

theorem addText_eq_error {text : Except DocumentError String} :
    r.addText t text = .error f ↔ ∃ e, text = .error e ∧ f = ⟨r.offset, e⟩ := by
  cases text <;> simp [addText, eq_comm]

/-- A token fails if it is in error, right before it, or if it is the end tag of another element
than the innermost, right behind it. -/
theorem step_eq_error (hb : r.builder.Grounded) :
    (r.step t).result = .error f ↔ (∃ e, t.Faulty r.builder e ∧ f = ⟨r.offset, e⟩) ∨
      ∃ tag e, t = .close tag ∧ closeName r.openNames (Tag.endName tag) = .error e ∧
        f = ⟨r.offset + t.width, .unreadable e⟩ := by
  have hstart {tag : Bytes} :
      ((r.builder.start tag).mapError (Failure.mk r.offset ∘ .schema)).result = .error f ↔
        ∃ e, (r.builder.start tag).result = .error e ∧ f = ⟨r.offset, .schema e⟩ := by
    simp [mapError_eq_error, @eq_comm _ f]
  -- Behind a start tag and in an end tag only `close` could fail, which it does not.
  have hclose {b : Builder} (hb : b.Grounded) (name : Bytes) (done : Builder → Reading) :
      ((b.close name).mapError (Failure.mk r.offset ∘ .schema) >>= fun b => pure (done b) :
        Logged Notice Failure Reading).result ≠ .error f := by
    rw [Builder.close_eq hb]
    nofun
  cases t with
  | start tag =>
    rw [step, Logged.result_bind_eq_error_of_ne, hstart]
    · simp
    · simp
  | empty tag =>
    rw [step, Logged.result_bind_eq_error_of_ne, hstart]
    · simp
    · intro b h
      have hstarted : r.builder.applyAll [.start tag] = .ok b := by
        simpa [Builder.apply] using mapError_eq_ok.1 h
      exact hclose (hb.applyAll hstarted) _ _
  | close tag =>
    rw [step, Logged.result_bind_eq_error_of_ne fun _ _ => hclose hb _ _,
      Logged.result_monadLift, mapError_eq_error]
    simp [eq_comm]
  | text data => simp [step, addText_eq_error]
  | cdata data => simp [step, addText_eq_error]
  | reference name => simp [step, addText_eq_error]
  | aside markup => simp [step]

end Reading

/-! ## Documents in error -/

/-- The tokens are read without an error. They leave the elements `names` open, the innermost first,
and lead to `b`. -/
structure Accepted (ts : List Token) (names : List Bytes) (b : Builder) : Prop where
  readable : ∀ t ∈ ts, t.Readable
  opens : Token.openAfter [] ts = some names
  takes : Builder.applyAll {} (ts.flatMap Token.calls) = .ok b

theorem Accepted.grounded {ts : List Token} {names : List Bytes} {b : Builder}
    (h : Accepted ts names b) : b.Grounded :=
  Builder.grounded_empty.applyAll h.takes

theorem accepted_iff_walk {ts : List Token} {names : List Bytes} {b : Builder} :
    Accepted ts names b ↔ (walk ([], {}) ts).result = .ok (names, b) := by
  rw [walk_eq_ok]
  exact ⟨fun h => ⟨h.readable, h.opens, h.takes⟩, fun h => ⟨h.1, h.2.1, h.2.2⟩⟩

theorem Reading.run_eq_ok_iff_accepted {ts : List Token} {r : Reading} :
    (Reading.run {} ts).result = .ok r ↔ ∃ names b, Accepted ts names b ∧
      r = ⟨(ts.flatMap Token.render).length, names, names.length, b⟩ := by
  rw [Reading.run_eq_ok (r := {}) rfl, foldl_width, Nat.zero_add]
  constructor
  · rintro ⟨hread, names, b, hopen, htakes, rfl⟩
    exact ⟨names, b, ⟨hread, hopen, htakes⟩, rfl⟩
  · rintro ⟨names, b, h, rfl⟩
    exact ⟨h.readable, names, b, h.opens, h.takes, rfl⟩

/-- What is missing behind the last token. -/
inductive Unfinished : List Bytes → Builder → DocumentError → Prop where
  | elements {names : List Bytes} {b : Builder} (h : names ≠ []) :
      Unfinished names b (.unclosedElements names.length)
  | protocol {b : Builder} (h : b.protocol = none) : Unfinished [] b (.schema .noProtocol)

/-- The document fails at a token that is in error, at an end tag, at markup that cannot be read, or
at its end. Everything before is accepted. -/
inductive Fails (input : Bytes) : Failure → Prop where
  | token {before after : List Token} {t : Token} {names : List Bytes} {b : Builder}
      {e : DocumentError} (htokens : tokens input = before ++ t :: after)
      (hbefore : Accepted before names b) (ht : t.Faulty b e) :
      Fails input ⟨(before.flatMap Token.render).length, e⟩
  | endTag {before after : List Token} {tag : Bytes} {names : List Bytes} {b : Builder}
      {e : MarkupError} (htokens : tokens input = before ++ .close tag :: after)
      (hbefore : Accepted before names b)
      (htag : Reading.closeName names (Tag.endName tag) = .error e) :
      Fails input ⟨((before ++ [Token.close tag]).flatMap Token.render).length, .unreadable e⟩
  | markup {names : List Bytes} {b : Builder} {e : MarkupError} {width : Nat}
      (hending : (Token.lex (dropMark input)).2 = .broken e width)
      (htokens : Accepted (tokens input) names b) :
      Fails input ⟨((tokens input).flatMap Token.render).length + width, .unreadable e⟩
  | document {names : List Bytes} {b : Builder} {e : DocumentError}
      (hending : (Token.lex (dropMark input)).2 = .complete)
      (htokens : Accepted (tokens input) names b) (hend : Unfinished names b e) :
      Fails input ⟨input.length, e⟩

/-- The outcome of a document, with the offset of an error. -/
def located (input : Bytes) : Logged Notice Failure Protocol := do
  let r ← Reading.run {} (tokens input)
  r.finish input.length (Token.lex (dropMark input)).2

theorem parse_eq_located (input : Bytes) :
    parse input = (located input).mapError fun f => ⟨lineAt input f.offset, f.error⟩ := rfl

theorem Reading.run_eq_error {ts : List Token} {f : Failure} :
    (Reading.run {} ts).result = .error f ↔ ∃ before t after names b,
      ts = before ++ t :: after ∧ Accepted before names b ∧
      ((∃ e, t.Faulty b e ∧ f = ⟨(before.flatMap Token.render).length, e⟩) ∨
        ∃ tag e, t = .close tag ∧ closeName names (Tag.endName tag) = .error e ∧
          f = ⟨((before ++ [t]).flatMap Token.render).length, .unreadable e⟩) := by
  have hwidth (before : List Token) (t : Token) :
      (before.flatMap Token.render).length + t.width =
        ((before ++ [t]).flatMap Token.render).length := by
    simp [Token.width_eq_length_render]
  constructor
  · intro h
    obtain ⟨before, t, after, r, rfl, hr, hstep⟩ := exists_step_of_error h
    obtain ⟨names, b, hbefore, rfl⟩ := run_eq_ok_iff_accepted.1 hr
    rw [step_eq_error hbefore.grounded, hwidth] at hstep
    exact ⟨before, t, after, names, b, by simp, hbefore, hstep⟩
  · rintro ⟨before, t, after, names, b, rfl, hbefore, hstep⟩
    have hr := run_eq_ok_iff_accepted.2 ⟨names, b, hbefore, rfl⟩
    rw [← hwidth] at hstep
    have hconcat := run_append_of_error hr ((step_eq_error hbefore.grounded).2 hstep) after
    rw [List.append_assoc, List.singleton_append] at hconcat
    rw [hconcat]

theorem Reading.finish_eq_error {names : List Bytes} {b : Builder} {offset size : Nat}
    {ending : Token.Ending} {f : Failure} :
    Reading.finish ⟨offset, names, names.length, b⟩ size ending = .error f ↔
      (∃ e width, ending = .broken e width ∧ f = ⟨offset + width, .unreadable e⟩) ∨
      ∃ e, ending = .complete ∧ Unfinished names b e ∧ f = ⟨size, e⟩ := by
  cases ending with
  | broken e width => simp [finish, eq_comm]
  | complete =>
    cases names with
    | cons name names =>
      have hend (e : DocumentError) :
          Unfinished (name :: names) b e ↔ e = .unclosedElements (names.length + 1) := by
        constructor
        · rintro ⟨-⟩
          rfl
        · rintro rfl
          exact .elements (List.cons_ne_nil _ _)
      simp [finish, hend, eq_comm]
    | nil =>
      have hend (e : DocumentError) :
          Unfinished [] b e ↔ b.protocol = none ∧ e = .schema .noProtocol := by
        constructor
        · rintro (h | h)
          · exact absurd rfl h
          · exact ⟨h, rfl⟩
        · rintro ⟨h, rfl⟩
          exact .protocol h
      cases hp : b.protocol <;> simp [finish, Builder.finish, hend, hp, eq_comm]

/-- A document is refused in one of these ways, and with the error and the offset of this way. -/
theorem located_eq_error {input : Bytes} {f : Failure} :
    (located input).result = .error f ↔ Fails input f := by
  rw [located, Logged.result_bind_eq_error, Reading.run_eq_error]
  simp only [Logged.result_monadLift, Reading.run_eq_ok_iff_accepted]
  constructor
  · rintro (⟨before, t, after, names, b, htokens, hbefore, hstep⟩ |
      ⟨_, ⟨names, b, htokens, rfl⟩, hfinish⟩)
    · rcases hstep with ⟨e, ht, rfl⟩ | ⟨tag, e, rfl, htag, rfl⟩
      · exact .token htokens hbefore ht
      · exact .endTag htokens hbefore htag
    · rcases Reading.finish_eq_error.1 hfinish with
        ⟨e, width, hending, rfl⟩ | ⟨e, hending, hend, rfl⟩
      · exact .markup hending htokens
      · exact .document hending htokens hend
  · intro h
    cases h with
    | token htokens hbefore ht =>
      exact .inl ⟨_, _, _, _, _, htokens, hbefore, .inl ⟨_, ht, rfl⟩⟩
    | endTag htokens hbefore htag =>
      exact .inl ⟨_, _, _, _, _, htokens, hbefore, .inr ⟨_, _, rfl, htag, rfl⟩⟩
    | markup hending htokens =>
      exact .inr ⟨_, ⟨_, _, htokens, rfl⟩, Reading.finish_eq_error.2 (.inl ⟨_, _, hending, rfl⟩)⟩
    | document hending htokens hend =>
      exact .inr ⟨_, ⟨_, _, htokens, rfl⟩, Reading.finish_eq_error.2 (.inr ⟨_, hending, hend, rfl⟩)⟩

theorem Fails.result_parse {input : Bytes} {f : Failure} (h : Fails input f) :
    (parse input).result = .error ⟨lineAt input f.offset, f.error⟩ := by
  rw [parse_eq_located, Logged.result_mapError, located_eq_error.2 h, mapError_error]

theorem Token.Ends.eq_nil {s : Bytes} (h : Token.Ends s .complete) : s = [] := by
  cases h with
  | complete h => exact Token.scan_eq_done.1 h

theorem lineAt_length (s : Bytes) : lineAt s s.length = 1 + s.count newline := by
  rw [lineAt, List.take_length]

/-- An error of a token is on the line that the token begins on, and everything before the token is
accepted. An error of the whole document is on its last line, and all of its tokens are accepted. -/
theorem line_of_parse_error {input : Bytes} {e : ParseError}
    (hmark : ¬ [0xEF, 0xBB, 0xBF] <+: input) (h : (parse input).result = .error e) :
    (e.error.isOfToken → ∃ before t after rest names b, tokens input = before ++ t :: after ∧
      input = before.flatMap Token.render ++ (t.render ++ rest) ∧
      Accepted before names b ∧ t.Faulty b e.error ∧
      e.line = 1 + (before.flatMap Token.render).count newline) ∧
    (e.error.isOfDocument → ∃ names b, (tokens input).flatMap Token.render = input ∧
      Accepted (tokens input) names b ∧ Unfinished names b e.error ∧
      e.line = 1 + input.count newline) := by
  rw [parse_eq_located, Logged.result_mapError, mapError_eq_error] at h
  obtain ⟨f, hf, rfl⟩ := h
  obtain ⟨rest, hcuts, hends⟩ := exists_cuts_tokens input
  have hbytes := hcuts.eq_append
  rw [dropMark_eq_self.2 hmark] at hbytes
  cases located_eq_error.1 hf with
  | @token before after t names b error htokens hbefore ht =>
    have htoken := ht.isOfToken hbefore.grounded
    refine ⟨fun _ => ?_, fun hdocument => ?_⟩
    · have hinput : input = before.flatMap Token.render ++
          (t.render ++ (after.flatMap Token.render ++ rest)) := by
        rw [htokens] at hbytes
        simpa using hbytes
      have hline : lineAt input (before.flatMap Token.render).length =
          1 + (before.flatMap Token.render).count newline := by
        conv_lhs => rw [hinput]
        rw [lineAt_append (Nat.le_refl _), lineAt_length]
      exact ⟨before, t, after, _, names, b, htokens, hinput, hbefore, ht, hline⟩
    · rw [DocumentError.isOfDocument_of_isOfToken htoken] at hdocument
      cases hdocument
  | endTag => exact ⟨nofun, nofun⟩
  | markup => exact ⟨nofun, nofun⟩
  | @document names b error hending htokens hend =>
    refine ⟨fun htoken => ?_, fun _ => ?_⟩
    · cases hend <;> cases htoken
    · rw [hending] at hends
      rw [hends.eq_nil, List.append_nil] at hbytes
      exact ⟨names, b, hbytes.symm, htokens, hend, lineAt_length input⟩

/-- Newlines are counted in markup of all kinds. -/
theorem line_of_arg_and_of_end :
    let input := ascii ("<!DOCTYPE p [\n<!ENTITY e '>'>\n]>\n<protocol\nname='p'>\n" ++
      "&lt;<![CDATA[\n]]>\n<arg\nname='a' type='fd'/></protocol>")
    let cut := ascii "<protocol\nname='p'>\n&#0;"
    (¬ [0xEF, 0xBB, 0xBF] <+: input ∧
      (parse input).result = .error ⟨8, .schema (.misplaced .arg .message)⟩ ∧
      ∃ before t after rest names b, tokens input = before ++ t :: after ∧
        input = before.flatMap Token.render ++ (t.render ++ rest) ∧ Accepted before names b ∧
        t.Faulty b (.schema (.misplaced .arg .message)) ∧
        8 = 1 + (before.flatMap Token.render).count newline) ∧
    ¬ [0xEF, 0xBB, 0xBF] <+: cut ∧ (parse cut).result = .error ⟨3, .unclosedElements 1⟩ ∧
      ∃ names b, (tokens cut).flatMap Token.render = cut ∧ Accepted (tokens cut) names b ∧
        Unfinished names b (.unclosedElements 1) ∧ 3 = 1 + cut.count newline := by
  intro input cut
  have hinput : ¬ [0xEF, 0xBB, 0xBF] <+: input := by decide
  have hcut : ¬ [0xEF, 0xBB, 0xBF] <+: cut := by decide
  have herror : (parse input).result = .error ⟨8, .schema (.misplaced .arg .message)⟩ := by
    decide +kernel
  have hend : (parse cut).result = .error ⟨3, .unclosedElements 1⟩ := by decide +kernel
  exact ⟨⟨hinput, herror, (line_of_parse_error hinput herror).1 rfl⟩,
    hcut, hend, (line_of_parse_error hcut hend).2 rfl⟩

end WaylandDoc
