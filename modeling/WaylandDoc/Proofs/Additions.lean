import WaylandDoc.Proofs.Foreign
import WaylandDoc.Proofs.Rendering
import WaylandDoc.Proofs.Rewriting

/-!
# Documents with more markup

Comments, instructions and elements that are not in the schema may be added to a document wherever a
token begins or between two characters of a text. Whether it is accepted does not change, and
neither does its tree; only the notices of the added elements are new (`parse_enriched`).
-/

namespace WaylandDoc

/-! ## Notices in between -/

/-- The third list has the elements of the first two, each of them in their order. -/
inductive Shuffle {α : Type} : List α → List α → List α → Prop where
  | nil : Shuffle [] [] []
  | left {xs ys zs : List α} (a : α) (h : Shuffle xs ys zs) : Shuffle (a :: xs) ys (a :: zs)
  | right {xs ys zs : List α} (a : α) (h : Shuffle xs ys zs) : Shuffle xs (a :: ys) (a :: zs)

namespace Shuffle

variable {α : Type} {xs ys zs xs' ys' zs' : List α}

theorem refl (xs : List α) : Shuffle xs [] xs := by
  induction xs with
  | nil => exact .nil
  | cons a xs ih => exact ih.left a

theorem append (h : Shuffle xs ys zs) (h' : Shuffle xs' ys' zs') :
    Shuffle (xs ++ xs') (ys ++ ys') (zs ++ zs') := by
  induction h with
  | nil => exact h'
  | left a _ ih => exact ih.left a
  | right a _ ih => exact ih.right a

end Shuffle

/-- The second outcome is the first one with the notices `ms` in between, or with the first of them
if it is an error. -/
structure Joins {α : Type} (ms : List Notice) (x y : Logged Notice Unit α) : Prop where
  result : y.result = x.result
  notices : ∃ ms', ms' <+: ms ∧ Shuffle x.notices ms' y.notices ∧ ∀ a, x.result = .ok a → ms' = ms

namespace Joins

variable {α β : Type} {ms ms' : List Notice} {x y : Logged Notice Unit α}

theorem refl (x : Logged Notice Unit α) : Joins [] x x :=
  ⟨rfl, [], List.nil_prefix, .refl _, fun _ _ => rfl⟩

theorem note (h : Joins ms x y) (m : Notice) : Joins (m :: ms) x ⟨m :: y.notices, y.result⟩ := by
  obtain ⟨hresult, ms', hms, hnotices, hok⟩ := h
  exact ⟨hresult, m :: ms', List.cons_prefix_cons.2 ⟨rfl, hms⟩, hnotices.right m,
    fun a ha => by rw [hok a ha]⟩

theorem bind {f g : α → Logged Notice Unit β} (h : Joins ms x y)
    (hfg : ∀ a, x.result = .ok a → Joins ms' (f a) (g a)) :
    Joins (ms ++ ms') (x >>= f) (y >>= g) := by
  obtain ⟨hresult, ns, hns, hnotices, hok⟩ := h
  cases hx : x.result with
  | error e =>
    rw [Logged.bind_of_error hx, Logged.bind_of_error (hresult.trans hx)]
    exact ⟨rfl, ns, hns.trans (List.prefix_append ..), hnotices, nofun⟩
  | ok a =>
    obtain rfl := hok a hx
    obtain ⟨hresult', ns', hns', hnotices', hok'⟩ := hfg a hx
    rw [Logged.bind_of_ok hx, Logged.bind_of_ok (hresult.trans hx)]
    exact ⟨hresult', ns ++ ns', List.prefix_append_right_inj _ |>.2 hns', hnotices.append hnotices',
      fun b hb => by rw [hok' b hb]⟩

end Joins

/-! ## More tokens -/

/-- `us` are the tokens `ts` and added markup in between; `tags` are the tags of added elements. -/
inductive Adds : List Bytes → List Token → List Token → Prop where
  | nil : Adds [] [] []
  | keep {tags : List Bytes} {ts us : List Token} (t : Token) (h : Adds tags ts us) :
      Adds tags (t :: ts) (t :: us)
  | comment {tags : List Bytes} {ts us : List Token} {body : Bytes}
      (hbody : ¬ ascii "-->" <:+: body) (h : Adds tags ts us) :
      Adds tags ts (.aside (ascii "!--" ++ body ++ ascii "--") :: us)
  | instruction {tags : List Bytes} {ts us : List Token} {body : Bytes}
      (hbody : ¬ ascii "?>" <:+: byte '?' :: body) (h : Adds tags ts us) :
      Adds tags ts (.aside (byte '?' :: body ++ [byte '?']) :: us)
  | empty {tag : Bytes} {tags : List Bytes} {ts us : List Token} (htag : Foreign tag)
      (h : Adds tags ts us) : Adds (tag :: tags) ts (.empty tag :: us)
  /-- The added element has balanced tokens in it. -/
  | element {tag blanks : Bytes} {tags tags' : List Bytes} {inner inner' ts us : List Token}
      (htag : Foreign tag) (hslash : tag.getLast? ≠ some (byte '/'))
      (hblanks : ∀ b ∈ blanks, isBlank b) (hbalanced : Token.Balanced inner)
      (hinner : Adds tags inner inner') (h : Adds tags' ts us) :
      Adds (tag :: (tags ++ tags')) (inner ++ ts)
        (.start tag :: (inner' ++ .close (Tag.name tag ++ blanks) :: us))

namespace Adds

variable {tags : List Bytes} {ts us : List Token}

theorem stands (h : Adds tags ts us) (hts : ∀ t ∈ ts, t.Stands) : ∀ u ∈ us, u.Stands := by
  induction h with
  | nil => simp
  | keep t h ih =>
    rw [List.forall_mem_cons] at hts ⊢
    exact ⟨hts.1, ih hts.2⟩
  | comment hbody h ih => exact List.forall_mem_cons.2 ⟨stands_comment hbody, ih hts⟩
  | instruction hbody h ih => exact List.forall_mem_cons.2 ⟨stands_instruction hbody, ih hts⟩
  | empty htag h ih => exact List.forall_mem_cons.2 ⟨htag.stands_empty, ih hts⟩
  | element htag hslash hblanks hbalanced hinner h ihinner ih =>
    rw [List.forall_mem_append] at hts
    simp only [List.forall_mem_cons, List.forall_mem_append]
    exact ⟨htag.stands_start hslash, ihinner hts.1, htag.stands_close hblanks, ih hts.2⟩

/-- A walk over more tokens comes to the same end. -/
theorem joins_walk (h : Adds tags ts us) (s : Stage) :
    Joins (tags.map ignored) (walk s ts) (walk s us) := by
  induction h generalizing s with
  | nil => exact .refl _
  | keep t h ih =>
    rw [walk_cons, walk_cons]
    exact (Joins.refl _).bind fun s' _ => ih s'
  | comment hbody h ih => exact ih s
  | instruction hbody h ih => exact ih s
  | empty htag h ih =>
    obtain ⟨names, b⟩ := s
    rw [walk_cons, advance_empty_foreign htag]
    exact (ih (names, b)).note _
  | @element tag blanks tags tags' inner inner' ts us htag hslash hblanks hbalanced hinner h ihinner
      ih =>
    obtain ⟨names, b⟩ := s
    rw [walk_cons, advance_start_foreign htag, walk_append,
      walk_of_balanced hbalanced (Tag.name tag :: names), bind_map_left, List.map_cons,
      List.map_append]
    refine Joins.note (y := walk (Tag.name tag :: names, b) _) ?_ _
    rw [walk_append]
    refine (ihinner _).bind fun ⟨names', b'⟩ hs' => ?_
    -- The added element is the innermost one again when it ends.
    obtain rfl : Tag.name tag :: names = names' := by
      have hopen := Token.openAfter_append_right hbalanced (Tag.name tag :: names)
      exact Option.some.inj (hopen.symm.trans (walk_eq_ok.1 hs').2.1)
    rw [walk_cons, advance_close_foreign htag hblanks, pure_bind]
    exact ih (names, b')

/-- More tokens do not make the text at the beginning longer. -/
theorem takeWhile_isText_prefix (h : Adds tags ts us) :
    us.takeWhile Token.isText <+: ts.takeWhile Token.isText := by
  induction h with
  | nil => exact List.prefix_refl _
  | keep t h ih =>
    cases ht : t.isText with
    | true =>
      rw [List.takeWhile_cons_of_pos ht, List.takeWhile_cons_of_pos ht]
      exact List.cons_prefix_cons.2 ⟨rfl, ih⟩
    | false =>
      rw [List.takeWhile_cons_of_neg (by simp [ht])]
      exact List.nil_prefix
  | comment | instruction | empty | element => exact List.nil_prefix

end Adds

/-! ## Documents -/

/-- The second document is the first one with markup added between its tokens, where a text may be
divided for it. A mark stays in front, and what cannot be cut into tokens stays behind. -/
inductive Enriched (input : Bytes) (tags : List Bytes) : Bytes → Prop where
  | intro {ps us : List Token} (hdivided : Divided (tokens input) ps) (hadds : Adds tags ps us)
      (hapart : us.IsChain Token.Apart) :
      Enriched input tags (input.take (sizeUpTo input []) ++ us.flatMap Token.render ++
        input.drop (sizeUpTo input (tokens input)))

section Enriched

variable {input input' : Bytes} {tags : List Bytes}

theorem Enriched.lex (h : Enriched input tags input') :
    ∃ ps us, Divided (tokens input) ps ∧ Adds tags ps us ∧
      Token.lex (dropMark input') = (us, (Token.lex (dropMark input)).2) := by
  cases h with
  | @intro ps us hdivided hadds hapart =>
  refine ⟨ps, us, hdivided, hadds, ?_⟩
  obtain ⟨rest, hcuts, -⟩ := exists_cuts_tokens input
  have hps := hdivided.stands hcuts.stands
  have hbreaks : Token.Breaks [] := nofun
  refine lex_rewritten (hadds.stands hps) hapart ?_
  rw [← Token.takeWhile_flatMap_render hcuts.stands hbreaks, ← hdivided.flatMap_render,
    Token.takeWhile_flatMap_render hps hbreaks]
  exact hadds.takeWhile_isText_prefix.flatMap _

/-- Markup without a meaning changes nothing but the notices: those of the added elements come in
between, all of them if the document is accepted. -/
theorem parse_enriched (h : Enriched input tags input') :
    (∀ p, (parse input').result = .ok p ↔ (parse input).result = .ok p) ∧
    ∃ ms, ms <+: tags.map ignored ∧ Shuffle (parse input).notices ms (parse input').notices ∧
      ∀ p, (parse input).result = .ok p → ms = tags.map ignored := by
  obtain ⟨ps, us, hdivided, hadds, hlex⟩ := h.lex
  have hwalk := hadds.joins_walk ([], {})
  rw [walk_of_divided hdivided] at hwalk
  obtain ⟨hresult, ms, hms, hnotices, hok⟩ := hwalk
  have htokens : tokens input' = us := by rw [tokens, hlex]
  refine ⟨fun p => ?_, ms, hms, ?_, fun p hp => ?_⟩
  · rw [parse_eq_ok_iff_walk, parse_eq_ok_iff_walk, htokens, hresult, hlex]
  · rw [notices_parse_eq_walk, notices_parse_eq_walk, htokens]
    exact hnotices
  · obtain ⟨-, b, hb, -⟩ := parse_eq_ok_iff_walk.1 hp
    exact hok _ hb

/-- A comment, an element around a description, another one between two of its characters, and an
instruction at the end. -/
theorem parse_enriched_description :
    let input := ascii "<protocol name='p'><description summary='s'>ab</description></protocol>"
    let input' := ascii ("<!--c--><protocol name='p'><x a='>'><description summary='s'>a<y =1/>b" ++
      "</description></x ></protocol><?i?>")
    let tags := [ascii "x" ++ ascii " a='>'", ascii "y" ++ ascii " =1"]
    ∃ p, (parse input).result = .ok p ∧ (parse input').result = .ok p ∧
      Shuffle (parse input).notices (tags.map ignored) (parse input').notices := by
  intro input input' tags
  have hx : Foreign (ascii "x" ++ ascii " a='>'") := by
    have hafter : ascii " a='>'" = byte ' ' :: byte 'a' :: byte '=' ::
        (byte '\'' :: [byte '>'] ++ [byte '\''] ++ []) := by decide
    refine .intro (by decide) (by decide +kernel) (by decide) (by decide +kernel) ?_
    rw [hafter]
    exact .plain (by decide) (.plain (by decide) (.plain (by decide)
      (.value (.inr rfl) (by decide) .nil)))
  have hy : Foreign (ascii "y" ++ ascii " =1") :=
    .intro (by decide) (by decide +kernel) (by decide) (by decide +kernel)
      (.plain (by decide) (.plain (by decide) (.plain (by decide) .nil)))
  let protocol := Token.start (ascii "protocol name='p'")
  let description := Token.start (ascii "description summary='s'")
  let ends := Token.close (ascii "description")
  let last := Token.close (ascii "protocol")
  let text (s : String) := Token.text (ascii s)
  have hdivided :
      Divided (tokens input) [protocol, description, text "a", text "b", ends, last] := by
    have htokens : tokens input =
        [protocol, description, .text (ascii "a" ++ ascii "b"), ends, last] := by decide +kernel
    rw [htokens]
    exact .cons _ (.cons _ (.text (by decide) (by decide) (by decide +kernel)
      (.cons _ (.cons _ (.cons _ .nil)))))
  let inner := [description, text "a", text "b", ends]
  let inner' := [description, text "a", .empty (ascii "y" ++ ascii " =1"), text "b", ends]
  have hinner : Adds [ascii "y" ++ ascii " =1"] inner inner' :=
    .keep _ (.keep _ (.empty hy (.keep _ (.keep _ .nil))))
  have hbalanced : Token.Balanced inner := by
    unfold Token.Balanced
    decide +kernel
  let us := [.aside (ascii "!--" ++ ascii "c" ++ ascii "--"), protocol] ++
    .start (ascii "x" ++ ascii " a='>'") ::
      (inner' ++ .close (Tag.name (ascii "x" ++ ascii " a='>'") ++ ascii " ") ::
        [last, .aside (byte '?' :: ascii "i" ++ [byte '?'])])
  have hadds : Adds tags [protocol, description, text "a", text "b", ends, last] us :=
    .comment (by decide) (.keep _ (.element hx (by decide) (by decide +kernel) hbalanced hinner
      (.keep _ (.instruction (by decide) .nil))))
  have hbytes : input' = input.take (sizeUpTo input []) ++ us.flatMap Token.render ++
      input.drop (sizeUpTo input (tokens input)) := by decide +kernel
  have hapart : us.IsChain Token.Apart := by
    unfold Token.Apart
    decide +kernel
  have henriched : Enriched input tags input' := by
    rw [hbytes]
    exact .intro hdivided hadds hapart
  obtain ⟨hiff, ms, -, hnotices, hms⟩ := parse_enriched henriched
  have hresult : (parse input).result.toOption.isSome := by decide +kernel
  obtain ⟨p, hp⟩ := Option.isSome_iff_exists.1 hresult
  rw [toOption_eq_some] at hp
  exact ⟨p, hp, (hiff p).2 hp, hms p hp ▸ hnotices⟩

end Enriched

end WaylandDoc
