import WaylandDoc.Proofs.Mark
import WaylandDoc.Proofs.Rewriting

/-!
# Empty tags

An empty tag means the same as a start tag and its end tag. In its place these two lead to the same
tree, the same notices and the same error (`parse_expand`). A failure behind the tag comes later in
the document, by bytes without a newline, so it is on the same line. Only behind a mark its line may
be another one: offsets leave the mark out, and so a newline in the last byte of the tag is not
counted for a failure right behind an empty tag, but it is for one behind the longer tags.
-/

namespace WaylandDoc

open Token (openAfter)

/-! ## Markup that goes on -/

namespace Delimiter

variable {σ : Type} {d : Delimiter σ} {state state' : σ}

/-- The state after bytes that do not end the markup. -/
def after (d : Delimiter σ) (state : σ) : Bytes → Option σ
  | [] => some state
  | b :: s => if b == byte '>' && d.closes state then none else d.after (d.next state b) s

theorem after_append (s t : Bytes) :
    d.after state (s ++ t) = (d.after state s).bind (d.after · t) := by
  induction s generalizing state with
  | nil => rfl
  | cons b s ih =>
    rw [List.cons_append, after, after]
    split
    · rfl
    · exact ih

theorem cut_append_of_after {s : Bytes} (h : d.after state s = some state') (seen t : Bytes) :
    d.cut state seen (s ++ t) = d.cut state' (s.reverse ++ seen) t := by
  induction s generalizing state seen with
  | nil =>
    cases h
    rfl
  | cons b s ih =>
    rw [after] at h
    split at h
    · cases h
    · rename_i hopen
      rw [List.cons_append, cut, if_neg hopen, ih h, List.reverse_cons, List.append_assoc,
        List.singleton_append]

/-- What was cut out does not end the markup before its `>`. -/
theorem after_of_cut {seen s content rest : Bytes}
    (h : d.cut state seen s = some (content, rest)) :
    ∃ t state', content = seen.reverse ++ t ∧ d.after state t = some state' ∧ d.closes state' := by
  induction s generalizing state seen with
  | nil => cases h
  | cons b s ih =>
    rw [cut] at h
    split at h
    · rename_i hclosed
      cases h
      rw [Bool.and_eq_true] at hclosed
      exact ⟨[], state, (List.append_nil _).symm, rfl, hclosed.2⟩
    · rename_i hopen
      obtain ⟨t, state', rfl, hafter, hcloses⟩ := ih h
      refine ⟨b :: t, state', by simp, ?_, hcloses⟩
      rw [after, if_neg hopen, hafter]

/-- Only a quote is open in a tag. -/
theorem isQuote_of_after {quote : UInt8} {s : Bytes} {open? : Option UInt8}
    (hopen : ∀ q ∈ open?, q = byte '"' ∨ q = byte '\'')
    (h : quotes.after open? s = some (some quote)) : quote = byte '"' ∨ quote = byte '\'' := by
  induction s generalizing open? with
  | nil =>
    cases h
    exact hopen quote rfl
  | cons b s ih =>
    rw [after] at h
    split at h
    · cases h
    · refine ih (fun q hq => ?_) h
      cases open? with
      | none =>
        simp only [quotes] at hq
        split at hq <;> cases hq
        rename_i hb
        simpa using hb
      | some q' =>
        simp only [quotes] at hq
        split at hq <;> cases hq
        exact hopen q rfl

theorem after_of_unquoted {s : Bytes} {open? : Option UInt8}
    (hs : ∀ b ∈ s, b ≠ byte '"' ∧ b ≠ byte '\'') (h : quotes.after none s = some open?) :
    open? = none := by
  induction s with
  | nil =>
    cases h
    rfl
  | cons b s ih =>
    rw [List.forall_mem_cons] at hs
    have hnext : quotes.next none b = none := by simp [quotes, hs.1.1, hs.1.2]
    rw [after, hnext] at h
    split at h
    · cases h
    · exact ih hs.2 h

end Delimiter

open Delimiter (quotes)

theorem Mark.whole_of_after {s : Bytes} (h : quotes.after none s = some none) : Mark.Whole s :=
  fun seen t => Delimiter.cut_append_of_after h seen t

namespace Token

variable {tag : Bytes}

theorem exists_cut_of_scanMarkup {s rest : Bytes} (h : scanMarkup s = .token (.empty tag) rest) :
    (∃ b t, s = b :: t ∧ b ≠ byte '!' ∧ b ≠ byte '?' ∧ b ≠ byte '/') ∧
      quotes.cut none [] s = some (tag ++ [byte '/'], rest) := by
  unfold scanMarkup at h
  split at h
  · cases h
  · rename_i b t
    split at h
    · obtain ⟨data, hdata | hdata⟩ := exists_of_scanDeclaration h <;> cases hdata
    · rename_i hdeclaration
      split at h
      · obtain ⟨content, -, hcontent⟩ := ofCut_eq_token.1 h
        obtain ⟨markup, hmarkup⟩ := exists_of_ofInstruction hcontent
        cases hmarkup
      · rename_i hinstruction
        split at h
        · obtain ⟨content, -, hcontent⟩ := ofCut_eq_token.1 h
          cases hcontent
        · rename_i hend
          obtain ⟨content, hcut, hcontent⟩ := ofCut_eq_token.1 h
          refine ⟨⟨b, t, rfl, hdeclaration, hinstruction, hend⟩, ?_⟩
          have hrender := render_ofTag content
          rw [Except.ok.inj hcontent] at hrender
          have hbytes : content ++ [byte '>'] = tag ++ [byte '/'] ++ [byte '>'] := by
            simpa [render, ascii, byte] using hrender.symm
          rw [hcut, List.append_cancel_right hbytes]

theorem exists_cut_of_stands_empty (h : Stands (.empty tag)) :
    (∃ b t, tag ++ [byte '/', byte '>'] = b :: t ∧ b ≠ byte '!' ∧ b ≠ byte '?' ∧ b ≠ byte '/') ∧
      quotes.cut none [] (tag ++ [byte '/', byte '>']) = some (tag ++ [byte '/'], []) := by
  have hbytes : (empty tag).render ++ [] = byte '<' :: (tag ++ [byte '/', byte '>']) := by
    simp [render, ascii, byte]
  have hscan := h [] fun ht => absurd ht Bool.false_ne_true
  rw [hbytes, scan, if_pos rfl] at hscan
  exact exists_cut_of_scanMarkup hscan

/-- No quote is open at the slash of an empty tag. -/
theorem after_of_stands_empty (h : Stands (.empty tag)) : quotes.after none tag = some none := by
  obtain ⟨t, state, htag, hafter, hcloses⟩ :=
    Delimiter.after_of_cut (exists_cut_of_stands_empty h).2
  obtain rfl : t = tag ++ [byte '/'] := htag.symm
  obtain rfl : state = none := Option.isNone_iff_eq_none.1 hcloses
  rw [Delimiter.after_append, Option.bind_eq_some_iff] at hafter
  obtain ⟨open?, hopen, hslash⟩ := hafter
  cases open? with
  | none => exact hopen
  -- The slash does not close a quote.
  | some quote => rcases Delimiter.isQuote_of_after (by simp) hopen with rfl | rfl <;> cases hslash

theorem tagged_of_stands_empty (h : Stands (.empty tag)) : Mark.Tagged tag := by
  obtain ⟨b, t, hcons, hdeclaration, hinstruction, hend⟩ := (exists_cut_of_stands_empty h).1
  refine ⟨Mark.whole_of_after (after_of_stands_empty h), ?_⟩
  cases tag with
  | nil =>
    cases hcons
    exact absurd rfl hend
  | cons c s =>
    cases hcons
    exact ⟨b, s, rfl, hdeclaration, hinstruction, hend⟩

theorem stands_close_name (h : Stands (.empty tag))
    (hname : ∀ b ∈ Tag.name tag, b ≠ byte '"' ∧ b ≠ byte '\'') :
    Stands (.close (Tag.name tag)) := by
  have hafter := after_of_stands_empty h
  rw [← List.takeWhile_append_dropWhile (p := (!isBlank ·)) (l := tag), Delimiter.after_append,
    Option.bind_eq_some_iff] at hafter
  obtain ⟨open?, hopen, -⟩ := hafter
  rw [Delimiter.after_of_unquoted hname hopen] at hopen
  exact stands_close (Mark.whole_of_after hopen)

end Token

theorem Tag.endName_name (tag : Bytes) : Tag.endName (Tag.name tag) = Tag.name tag := by
  rw [endName]
  split
  · rfl
  · have hblank : ∀ b ∈ (name tag).reverse, isBlank b = false := fun b hb => by
      simpa using List.mem_takeWhile_imp (List.mem_reverse.1 hb)
    have hdrop : (name tag).reverse.dropWhile isBlank = (name tag).reverse :=
      List.dropWhile_eq_self_iff.2 fun hlength => by
        rw [hblank _ (List.getElem_mem hlength)]
        exact Bool.false_ne_true
    rw [dropTrailingBlanks, hdrop, List.reverse_reverse]

/-! ## Walks -/

theorem walk_tags (s : Stage) (tag : Bytes) :
    walk s [.start tag, .close (Tag.name tag)] = walk s [.empty tag] := by
  obtain ⟨names, b⟩ := s
  have hnest : Token.nest (Tag.name tag :: names) (.close (Tag.name tag)) = some names :=
    Token.nest_close_eq_some.2 (by rw [Tag.endName_name])
  have htold : Reading.told b (.empty tag) =
      Reading.told b (.start tag) >>= (Reading.told · (.close (Tag.name tag))) := by
    simp [Reading.told, Token.calls, Builder.performAll_cons, Tag.endName_name]
  have hclose (b : Builder) : advance (Tag.name tag :: names, b) (.close (Tag.name tag)) =
      (names, ·) <$> Reading.told b (.close (Tag.name tag)) := advance_eq (by trivial) hnest
  simp only [walk_cons, walk_nil, bind_pure, advance_eq (t := .start tag) trivial rfl,
    advance_eq (t := .empty tag) trivial rfl, htold, bind_map_left, map_bind, hclose]

section Tokens

variable {before after : List Token} {tag : Bytes}

theorem walk_expanded (s : Stage) :
    walk s (before ++ .start tag :: .close (Tag.name tag) :: after) =
      walk s (before ++ .empty tag :: after) := by
  have hsplit (t u : Token) : t :: u :: after = [t, u] ++ after := rfl
  have hsplit' (t : Token) : t :: after = [t] ++ after := rfl
  rw [hsplit, hsplit' (.empty tag)]
  simp only [walk_append, walk_tags]

theorem Accepted.expanded {names : List Bytes} {b : Builder}
    (h : Accepted (before ++ .empty tag :: after) names b) :
    Accepted (before ++ .start tag :: .close (Tag.name tag) :: after) names b := by
  rw [accepted_iff_walk] at h ⊢
  rwa [walk_expanded]

theorem length_expanded : ((before ++ .start tag :: .close (Tag.name tag) :: after).flatMap
    Token.render).length = ((before ++ .empty tag :: after).flatMap Token.render).length +
      ((Tag.name tag).length + 2) := by
  simp [Token.render, ascii]
  omega

/-- One of two elements of a list is before the other one, or they are the same. -/
theorem append_cons_eq_append_cons {α : Type} {l r l' r' : List α} {a a' : α}
    (h : l ++ a :: r = l' ++ a' :: r') : (∃ m, l = l' ++ a' :: m ∧ r' = m ++ a :: r) ∨
      (l = l' ∧ a = a' ∧ r = r') ∨ ∃ m, l' = l ++ a :: m ∧ r = m ++ a' :: r' := by
  rcases List.append_eq_append_iff.1 h with ⟨m, rfl, hm⟩ | ⟨m, rfl, hm⟩
  · cases m with
    | nil =>
      cases hm
      exact .inr (.inl ⟨(List.append_nil l).symm, rfl, rfl⟩)
    | cons x m =>
      cases hm
      exact .inr (.inr ⟨m, rfl, rfl⟩)
  · cases m with
    | nil =>
      cases hm
      exact .inr (.inl ⟨List.append_nil l', rfl, rfl⟩)
    | cons x m =>
      cases hm
      exact .inl ⟨m, rfl, rfl⟩

/-- A failure before the empty tag or at it is the same, and one behind it comes later. -/
theorem Fails.expanded {input input' : Bytes} {f : Failure}
    (htokens : tokens input = before ++ .empty tag :: after)
    (hlex : Token.lex (dropMark input') = (before ++ .start tag :: .close (Tag.name tag) :: after,
      (Token.lex (dropMark input)).2))
    (hlength : input'.length = input.length + ((Tag.name tag).length + 2))
    (hle : ((before ++ [Token.empty tag]).flatMap Token.render).length ≤ input.length)
    (h : Fails input f) :
    (f.offset ≤ (before.flatMap Token.render).length ∧ Fails input' f) ∨
      (((before ++ [Token.empty tag]).flatMap Token.render).length ≤ f.offset ∧
        Fails input' ⟨f.offset + ((Tag.name tag).length + 2), f.error⟩) := by
  have htokens' : tokens input' = before ++ .start tag :: .close (Tag.name tag) :: after := by
    rw [tokens, hlex]
  have hending : (Token.lex (dropMark input')).2 = (Token.lex (dropMark input)).2 := by rw [hlex]
  -- What fails comes before the empty tag, is the empty tag itself, or comes after it.
  cases h with
  | @token before₁ after₁ t names b e htokens₁ hbefore ht =>
    rcases append_cons_eq_append_cons (htokens.symm.trans htokens₁) with
      ⟨mid, rfl, rfl⟩ | ⟨rfl, rfl, rfl⟩ | ⟨mid, rfl, rfl⟩
    · rw [List.append_assoc, List.cons_append] at htokens'
      exact .inl ⟨by simp, .token htokens' hbefore ht⟩
    · rw [Token.faulty_empty, ← Token.faulty_start] at ht
      exact .inl ⟨Nat.le_refl _, .token htokens' hbefore ht⟩
    · refine .inr ⟨by simp, ?_⟩
      rw [← length_expanded]
      rw [← List.cons_append, ← List.cons_append, ← List.append_assoc] at htokens'
      exact .token htokens' hbefore.expanded ht
  | @endTag before₁ after₁ endTag names b e htokens₁ hbefore htag =>
    rcases append_cons_eq_append_cons (htokens.symm.trans htokens₁) with
      ⟨mid, rfl, rfl⟩ | ⟨rfl, heq, rfl⟩ | ⟨mid, rfl, rfl⟩
    · rw [List.append_assoc, List.cons_append] at htokens'
      exact .inl ⟨by simp, .endTag htokens' hbefore htag⟩
    · cases heq
    · refine .inr ⟨by simp, ?_⟩
      rw [← List.cons_append, ← List.cons_append, ← List.append_assoc] at htokens'
      rw [List.append_assoc, List.cons_append, ← length_expanded, ← List.cons_append,
        ← List.cons_append, ← List.append_assoc]
      exact .endTag htokens' hbefore.expanded htag
  | @markup names b e width hbroken haccepted =>
    rw [htokens] at haccepted ⊢
    refine .inr ⟨by simp; omega, ?_⟩
    rw [Nat.add_right_comm, ← length_expanded, ← htokens']
    exact .markup (hending.trans hbroken) (htokens' ▸ haccepted.expanded)
  | @document names b e hcomplete haccepted hend =>
    rw [htokens] at haccepted
    refine .inr ⟨hle, ?_⟩
    rw [← hlength]
    exact .document (hending.trans hcomplete) (htokens' ▸ haccepted.expanded) hend

end Tokens

/-! ## Lines -/

section Lines

variable {p x x' rest : Bytes} {n k : Nat}

/-- Between `p` and `rest` there is no newline. -/
theorem lineAt_of_notMem (hx : newline ∉ x) (n : Nat) : lineAt (p ++ x ++ rest) n =
    1 + (p.take n).count newline + (rest.take (n - (p.length + x.length))).count newline := by
  have hcount : (x.take (n - p.length)).count newline = 0 :=
    List.count_eq_zero.2 fun hmem => hx (List.mem_of_mem_take hmem)
  rw [lineAt, List.take_append, List.take_append, List.count_append, List.count_append, hcount,
    List.length_append]
  omega

/-- A longer piece without newlines moves the lines behind it. -/
theorem lineAt_shifted (hx : newline ∉ x) (hx' : newline ∉ x') (hlength : x'.length = x.length + k)
    (hn : p.length ≤ n) : lineAt (p ++ x' ++ rest) (n + k) = lineAt (p ++ x ++ rest) n := by
  rw [lineAt_of_notMem hx, lineAt_of_notMem hx', hlength, ← Nat.add_assoc, Nat.add_sub_add_right,
    List.take_of_length_le hn, List.take_of_length_le (Nat.le_add_right_of_le hn)]

/-- Right before the end of `p` its last byte is not counted, but it is behind a longer piece. -/
theorem lineAt_shifted_of_succ (hx : newline ∉ x) (hx' : newline ∉ x')
    (hlength : x'.length = x.length + k) (hk : 0 < k) (hn : p.length = n + 1) :
    lineAt (p ++ x' ++ rest) (n + k) =
      lineAt (p ++ x ++ rest) n + if p.getLast? = some newline then 1 else 0 := by
  obtain rfl | ⟨q, b, rfl⟩ := List.eq_nil_or_concat' p
  · cases hn
  · have hq : q.length = n := by simpa using hn
    have hrest : n + k - (n + 1 + (x.length + k)) = 0 := by omega
    have hrest' : n - (n + 1 + x.length) = 0 := by omega
    rw [lineAt_of_notMem hx, lineAt_of_notMem hx', hn, hlength, hrest, hrest', ← hq, List.take_left,
      List.take_of_length_le (by rw [List.length_append, List.length_singleton]; omega),
      List.count_append, List.count_singleton, List.getLast?_concat]
    simp only [beq_iff_eq, Option.some.injEq]
    omega

end Lines

/-! ## Documents -/

/-- The document with a start tag and its end tag in the place of the empty tag behind `before`. -/
def expand (input : Bytes) (before : List Token) (tag : Bytes) : Bytes :=
  input.take (sizeUpTo input before) ++
    (ascii "<" ++ tag ++ ascii "></" ++ Tag.name tag ++ ascii ">") ++
    input.drop (sizeUpTo input (before ++ [.empty tag]))

/-- A failure right behind an empty tag that ends in a newline. Behind a mark this newline is not
counted, since offsets leave the mark out. -/
structure Failure.LosesNewline (input : Bytes) (before : List Token) (tag : Bytes) (f : Failure) :
    Prop where
  marked : [0xEF, 0xBB, 0xBF] <+: input
  ends : tag.getLast? = some newline
  offset : f.offset = ((before ++ [Token.empty tag]).flatMap Token.render).length

theorem takeWhile_isText_append {t : Token} (ht : t.isText = false) (before after : List Token) :
    (before ++ t :: after).takeWhile Token.isText = before.takeWhile Token.isText := by
  induction before with
  | nil => rw [List.nil_append, List.takeWhile_cons_of_neg (by simp [ht]), List.takeWhile_nil]
  | cons u before ih => rw [List.cons_append, List.takeWhile_cons, List.takeWhile_cons, ih]

theorem newline_notMem_tags (tag : Bytes) :
    newline ∉ ascii "></" ++ Tag.name tag ++ ascii ">" := by
  have hname : newline ∉ Tag.name tag := fun hmem => nomatch List.mem_takeWhile_imp hmem
  simp only [List.mem_append, not_or]
  exact ⟨⟨by decide, hname⟩, by decide⟩

theorem length_tags_eq (tag : Bytes) : (ascii "></" ++ Tag.name tag ++ ascii ">").length =
    (ascii "/>").length + ((Tag.name tag).length + 2) := by
  have hmiddle : (ascii "></").length = 3 := rfl
  have hclose : (ascii ">").length = 1 := rfl
  have hempty : (ascii "/>").length = 2 := rfl
  rw [List.length_append, List.length_append, hmiddle, hclose, hempty]
  omega

theorem length_render_concat_empty (before : List Token) (tag : Bytes) :
    ((before ++ [Token.empty tag]).flatMap Token.render).length =
      (before.flatMap Token.render).length + tag.length + 3 := by
  rw [List.flatMap_append, List.flatMap_singleton, List.length_append,
    ← Token.width_eq_length_render, Token.width]
  omega

theorem getLast?_angle_append (head tag : Bytes) :
    (head ++ ascii "<" ++ tag).getLast? = some newline ↔ tag.getLast? = some newline := by
  rw [List.getLast?_append]
  cases tag.getLast? with
  | some b => rfl
  | none =>
    have hangle : (head ++ ascii "<").getLast? = some (byte '<') := List.getLast?_concat
    rw [Option.none_or, hangle]
    decide

section Expand

variable {input tag : Bytes} {before after : List Token}
  (htokens : tokens input = before ++ .empty tag :: after)
include htokens

/-- What stands around the empty tag stands around the two tags. -/
theorem exists_bytes_expand : ∃ head rest : Bytes,
    (head ++ ascii "<" ++ tag).length = (if [0xEF, 0xBB, 0xBF] <+: input then 3 else 0) +
      (before.flatMap Token.render).length + 1 + tag.length ∧
    input = head ++ ascii "<" ++ tag ++ ascii "/>" ++ rest ∧
    expand input before tag =
      head ++ ascii "<" ++ tag ++ (ascii "></" ++ Tag.name tag ++ ascii ">") ++ rest := by
  obtain ⟨rest, hcuts, -⟩ := exists_cuts_tokens input
  rw [htokens, List.append_cons] at hcuts
  obtain ⟨mid, hcuts, -⟩ := hcuts.exists_of_append
  obtain ⟨mid', hbefore, -⟩ := hcuts.exists_of_append
  have hdrop := drop_sizeUpTo_append hcuts
  rw [List.flatMap_singleton, Token.render] at hdrop
  refine ⟨input.take (sizeUpTo input before),
    input.drop (sizeUpTo input (before ++ [.empty tag])), ?_, ?_, ?_⟩
  · have hangle : (ascii "<").length = 1 := rfl
    rw [take_sizeUpTo hbefore, take_sizeUpTo_nil, List.length_append, List.length_append,
      List.length_append, hangle]
    split <;> rfl
  · conv_lhs => rw [← List.take_append_drop (sizeUpTo input before) input, hdrop]
    simp only [List.append_assoc]
  · simp only [expand, List.append_assoc]

variable (hslash : tag.getLast? ≠ some (byte '/'))
  (hquote : ∀ b ∈ Tag.name tag, b ≠ byte '"' ∧ b ≠ byte '\'')
include hslash hquote

theorem lex_expand : Token.lex (dropMark (expand input before tag)) =
    (before ++ .start tag :: .close (Tag.name tag) :: after, (Token.lex (dropMark input)).2) := by
  obtain ⟨rest, hcuts, -⟩ := exists_cuts_tokens input
  have hstands := hcuts.stands
  have hapart := hcuts.isChain
  rw [htokens, List.forall_mem_append, List.forall_mem_cons] at hstands
  rw [htokens, List.isChain_append, List.isChain_cons] at hapart
  have htag := hstands.2.1
  have hlex :=
    @lex_rewritten input (before ++ .start tag :: .close (Tag.name tag) :: after) ?_ ?_ ?_
  · rw [htokens, List.append_cons] at hcuts
    obtain ⟨mid, hbefore, -⟩ := hcuts.exists_of_append
    obtain ⟨mid', hbefore, -⟩ := hbefore.exists_of_append
    rw [← hlex, htokens, List.append_cons _ (Token.empty tag), expand, take_sizeUpTo hbefore,
      drop_sizeUpTo_append hcuts]
    simp [Token.render, ascii]
  · simp only [List.forall_mem_append, List.forall_mem_cons]
    exact ⟨hstands.1, Token.stands_start (Token.tagged_of_stands_empty htag) hslash,
      Token.stands_close_name htag hquote, hstands.2.2⟩
  · simp only [List.isChain_append, List.isChain_cons]
    have hstart (u : Token) : Token.Apart (.start tag) u :=
      fun ht => absurd ht Bool.false_ne_true
    have hclose (u : Token) : Token.Apart (.close (Tag.name tag)) u :=
      fun ht => absurd ht Bool.false_ne_true
    refine ⟨hapart.1, ⟨fun u _ => hstart u, fun u _ => hclose u, hapart.2.1.2⟩,
      fun t _ u hu _ => ?_⟩
    cases hu
    rfl
  · rw [htokens, takeWhile_isText_append rfl, takeWhile_isText_append rfl]

/-- The error stays the same, and so does its line unless a newline is lost. -/
theorem exists_fails_expand {f : Failure} (hf : Fails input f) :
    ∃ f', Fails (expand input before tag) f' ∧ f'.error = f.error ∧
      (¬ f.LosesNewline input before tag →
        lineAt (expand input before tag) f'.offset = lineAt input f.offset) ∧
      (f.LosesNewline input before tag →
        lineAt (expand input before tag) f'.offset = lineAt input f.offset + 1) := by
  have hlex := lex_expand htokens hslash hquote
  obtain ⟨head, rest, hhead, hinput, hexpand⟩ := exists_bytes_expand htokens
  have hangle := getLast?_angle_append head tag
  generalize head ++ ascii "<" ++ tag = p at hhead hinput hexpand hangle
  have hx : newline ∉ ascii "/>" := by decide
  have hx' := newline_notMem_tags tag
  have hlength := length_tags_eq tag
  have hstop := length_render_concat_empty before tag
  have hempty : (ascii "/>").length = 2 := rfl
  have hsize := congrArg List.length hinput
  have hsize' := congrArg List.length hexpand
  rw [List.length_append, List.length_append] at hsize hsize'
  rcases Fails.expanded htokens hlex (by omega) (by omega) hf with ⟨hoffset, hf'⟩ | ⟨hoffset, hf'⟩
  · have hlost : ¬ f.LosesNewline input before tag := fun hlost => by
      have hoffset' := hlost.offset
      omega
    refine ⟨f, hf', rfl, fun _ => ?_, fun h => absurd h hlost⟩
    have hbefore : f.offset ≤ p.length := by omega
    rw [hexpand]
    conv_rhs => rw [hinput]
    simp only [List.append_assoc, lineAt_append hbefore]
  · refine ⟨_, hf', rfl, ?_⟩
    by_cases hend : p.length ≤ f.offset
    · have hlost : ¬ f.LosesNewline input before tag := fun hlost => by
        have hoffset' := hlost.offset
        rw [if_pos hlost.marked] at hhead
        omega
      refine ⟨fun _ => ?_, fun h => absurd h hlost⟩
      rw [hexpand]
      conv_rhs => rw [hinput]
      exact lineAt_shifted hx hx' hlength hend
    -- Only a mark makes the offset of what follows the tag one less than the size of `p`.
    · have hmark : [0xEF, 0xBB, 0xBF] <+: input := by
        by_contra hmark
        rw [if_neg hmark] at hhead
        omega
      rw [if_pos hmark] at hhead
      have hline : lineAt (expand input before tag) (f.offset + ((Tag.name tag).length + 2)) =
          lineAt input f.offset + if p.getLast? = some newline then 1 else 0 := by
        rw [hexpand]
        conv_rhs => rw [hinput]
        exact lineAt_shifted_of_succ hx hx' hlength (by omega) (by omega)
      refine ⟨fun hlost => ?_, fun hlost => ?_⟩
      · rw [hline, if_neg fun hend => hlost ⟨hmark, hangle.1 hend, by omega⟩, Nat.add_zero]
      · rw [hline, if_pos (hangle.2 hlost.ends)]

/-- An empty tag means the same as a start tag with its end tag. Only the line of an error is
another one if a newline is lost. -/
theorem parse_expand :
    ((∀ f, Fails input f → ¬ f.LosesNewline input before tag) →
      parse (expand input before tag) = parse input) ∧
    ∀ f, Fails input f → f.LosesNewline input before tag →
      parse (expand input before tag) =
        (parse input).mapError fun e => { e with line := e.line + 1 } := by
  have hlex := lex_expand htokens hslash hquote
  have htokens' : tokens (expand input before tag) =
      before ++ .start tag :: .close (Tag.name tag) :: after := by
    rw [tokens, hlex]
  have hnotices : (parse (expand input before tag)).notices = (parse input).notices := by
    rw [notices_parse_eq_walk, notices_parse_eq_walk, htokens', walk_expanded, htokens]
  have hok (p : Protocol) :
      (parse (expand input before tag)).result = .ok p ↔ (parse input).result = .ok p := by
    rw [parse_eq_ok_iff_walk, parse_eq_ok_iff_walk, htokens', walk_expanded, htokens, hlex]
  constructor
  · intro hkeeps
    have hresult : (parse (expand input before tag)).result = (parse input).result := by
      cases hinput : (parse input).result with
      | ok p => exact (hok p).2 hinput
      | error e =>
        rw [parse_eq_located, Logged.result_mapError, mapError_eq_error] at hinput
        obtain ⟨f, hf, rfl⟩ := hinput
        rw [located_eq_error] at hf
        obtain ⟨f', hf', herror, hline, -⟩ := exists_fails_expand htokens hslash hquote hf
        rw [hf'.result_parse, herror, hline (hkeeps f hf)]
    exact Logged.eq_mk_iff.2 ⟨hnotices, hresult⟩
  · intro f hf hlost
    refine Logged.eq_mk_iff.2 ⟨hnotices, ?_⟩
    obtain ⟨f', hf', herror, -, hline⟩ := exists_fails_expand htokens hslash hquote hf
    rw [hf'.result_parse, hf.result_parse, herror, hline hlost, mapError_error]

end Expand

/-- The argument is on the second line, and it stays there. Behind a mark it comes to be there. -/
theorem parse_expand_before_arg :
    let d := ascii "<protocol name='p'><x\n/><arg name='a' type='fd'/></protocol>"
    let d' := ascii "<protocol name='p'><x\n></x><arg name='a' type='fd'/></protocol>"
    (parse d).result = .error ⟨2, .schema (.misplaced .arg .message)⟩ ∧ parse d' = parse d ∧
      parse (marked d') = (parse (marked d)).mapError fun e => { e with line := e.line + 1 } := by
  intro d d'
  let before := [Token.start (ascii "protocol name='p'")]
  let after := [Token.empty (ascii "arg name='a' type='fd'"), .close (ascii "protocol")]
  have hslash : (ascii "x\n").getLast? ≠ some (byte '/') := by decide
  have hquote : ∀ b ∈ Tag.name (ascii "x\n"), b ≠ byte '"' ∧ b ≠ byte '\'' := by decide +kernel
  have htokens : tokens d = before ++ .empty (ascii "x\n") :: after := by decide +kernel
  have htokens' : tokens (marked d) = before ++ .empty (ascii "x\n") :: after := by decide +kernel
  have hexpand : expand d before (ascii "x\n") = d' := by decide +kernel
  have hexpand' : expand (marked d) before (ascii "x\n") = marked d' := by decide +kernel
  refine ⟨by decide +kernel, ?_, ?_⟩
  · rw [← hexpand]
    refine (parse_expand htokens hslash hquote).1 fun f hf hlost => ?_
    exact absurd hlost.marked (by decide)
  · have hlocated : (located (marked d)).result =
        .error ⟨24, .schema (.misplaced .arg .message)⟩ := by
      decide +kernel
    rw [← hexpand']
    exact (parse_expand htokens' hslash hquote).2 _ (located_eq_error.1 hlocated)
      ⟨by decide, by decide, by decide +kernel⟩

/-- Behind a mark the argument after the empty tag is on the line before. -/
theorem line_behind_empty_tag_ne :
    let d := ascii "<protocol name='p'><x\n/><arg name='a' type='fd'/></protocol>"
    let before := [Token.start (ascii "protocol name='p'")]
    let after := [Token.empty (ascii "arg name='a' type='fd'"), .close (ascii "protocol")]
    tokens (marked d) = before ++ .empty (ascii "x\n") :: after ∧
      (parse (marked d)).result = .error ⟨1, .schema (.misplaced .arg .message)⟩ ∧
      (parse (expand (marked d) before (ascii "x\n"))).result =
        .error ⟨2, .schema (.misplaced .arg .message)⟩ := by
  decide +kernel

end WaylandDoc
