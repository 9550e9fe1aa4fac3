import WaylandDoc.Proofs.Agreement
import WaylandDoc.Proofs.Foreign
import WaylandDoc.Proofs.Rewriting

/-!
# The spelling of tags

Tags can be spelled in many ways: the attributes stand in any order, between any blanks and in
either quotes, names have any prefix, and there may be attributes that the element does not know.
Whether a document is accepted does not depend on it, nor do its tree and its notices
(`parse_respelled`). Only the end tag of an element has to have the prefix of its start tag.
-/

namespace WaylandDoc

open Attribute (Raw Spelled Decodes find?)
open Token (openAfter nest)

/-- A tag of a name and attributes. All names are made of the bytes of names, that of an attribute
is used once, and its value can be decoded. -/
inductive Regular : Bytes → List Attribute → Prop where
  | intro {name after : Bytes} {raws : List Raw} {as : List Attribute} (hne : name ≠ [])
      (hname : ∀ b ∈ name, isNameByte b) (hblank : ∀ b ∈ after.head?, isBlank b)
      (hspelled : Spelled after raws) (hraws : ∀ r ∈ raws, ∀ b ∈ r.name, isNameByte b)
      (hnodup : (raws.map Raw.name).Nodup) (hdecodes : List.Forall₂ Decodes raws as) :
      Regular (name ++ after) as

/-- Another spelling of a tag whose attributes have different local names. The `extra` attributes
are not known to the element. -/
inductive Alike (tag tag' : Bytes) : Prop where
  | intro {as as' extra : List Attribute} (htag : Regular tag as) (htag' : Regular tag' as')
      (hname : localName (Tag.name tag') = localName (Tag.name tag))
      (hnodup : (as.map Attribute.name).Nodup) (hperm : as'.Perm (as ++ extra))
      (hextra : ∀ a ∈ extra, ∀ e, Element.ofName? (localName (Tag.name tag)) = some e →
        ∀ name ∈ e.attributeNames, a.name ≠ ascii name)

/-! ## Tags -/

section Spelled

variable {s : Bytes} {raws : List Raw}

theorem Attribute.Spelled.whole (h : Spelled s raws)
    (hraws : ∀ r ∈ raws, ∀ b ∈ r.name, isNameByte b) : Mark.Whole s := by
  have hwhole {blanks : Bytes} (hblanks : ∀ b ∈ blanks, isBlank b) : Mark.Whole blanks := by
    refine Mark.whole_of_forall fun b hb => ⟨?_, ?_, ?_⟩ <;> rintro rfl <;> cases hblanks _ hb
  induction h with
  | nil hblanks => exact hwhole hblanks
  | @cons blanks name before after value rest b quote raws hblanks hb hname hbefore hafter hquote
      hvalue hrest ih =>
    rw [List.forall_mem_cons] at hraws
    have hequals : Mark.Whole [byte '='] := Mark.whole_singleton (by decide)
    have hattribute := (((((hwhole hblanks).append (whole_of_isNameByte hraws.1)).append
      (hwhole hbefore)).append hequals).append (hwhole hafter)).append
      ((Mark.whole_quoted hquote hvalue).append (ih hraws.2))
    simpa using hattribute

/-- Attributes end with a quote or a blank. -/
theorem Attribute.Spelled.getLast?_ne (h : Spelled s raws) : s.getLast? ≠ some (byte '/') := by
  induction h with
  | nil hblanks =>
    intro hlast
    cases hblanks _ (List.mem_of_getLast? hlast)
  | @cons blanks name before after value rest b quote raws hblanks hb hname hbefore hafter hquote
      hvalue hrest ih =>
    rw [List.getLast?_append, List.getLast?_cons, Option.some_or]
    cases hlast : rest.getLast? with
    | none => rcases hquote with rfl | rfl <;> decide
    | some c => exact hlast ▸ ih

/-- An attribute without blanks around its equals sign. -/
theorem Attribute.Spelled.attribute (blanks name value : Bytes) (quote : UInt8)
    (hblanks : ∀ c ∈ blanks, isBlank c) (hne : name ≠ []) (hname : ∀ c ∈ name, inName c)
    (hquote : quote = byte '"' ∨ quote = byte '\'') (hvalue : quote ∉ value)
    (h : Spelled s raws) :
    Spelled (blanks ++ name ++ byte '=' :: quote :: value ++ quote :: s)
      (⟨name, value⟩ :: raws) := by
  obtain ⟨b, t, rfl⟩ := List.exists_cons_of_ne_nil hne
  rw [List.forall_mem_cons] at hname
  have hb : isBlank b = false := by
    have hb := hname.1
    rw [inName, Bool.and_eq_true, Bool.not_eq_true'] at hb
    exact hb.2
  have hspelled := Spelled.cons hblanks hb hname.2 (List.forall_mem_nil _) (List.forall_mem_nil _)
    hquote hvalue h
  simpa using hspelled

end Spelled

namespace Regular

variable {tag : Bytes} {as : List Attribute} (h : Regular tag as)
include h

theorem ofTag : Attribute.ofTag tag = .ok as := by
  obtain ⟨hne, hname, hblank, hspelled, hraws, hnodup, hdecodes⟩ := h
  rename_i name after raws
  have hplain : ∀ b ∈ name, (!isBlank b) = true := fun b hb => by
    rw [not_isBlank_of_isNameByte hname b hb, Bool.not_false]
  have hdrop : (name ++ after).dropWhile (!isBlank ·) = after := by
    rw [List.dropWhile_append_of_pos hplain]
    cases after with
    | nil => rfl
    | cons b after => rw [List.dropWhile_cons, hblank b rfl, if_neg (by decide)]
  exact Attribute.ofTag_eq_ok.2 ⟨raws, by rwa [hdrop], hnodup, hdecodes⟩

theorem attributes : Builder.attributes tag = .ok as := by
  rw [Builder.attributes, h.ofTag, mapError_ok]

theorem name_ne_nil : Tag.name tag ≠ [] := by
  obtain ⟨hne, hname, hblank, hspelled, hraws, hnodup, hdecodes⟩ := h
  rwa [name_append hname hblank]

theorem isNameByte_name : ∀ b ∈ Tag.name tag, isNameByte b := by
  obtain ⟨hne, hname, hblank, hspelled, hraws, hnodup, hdecodes⟩ := h
  rwa [name_append hname hblank]

theorem tagged : Mark.Tagged tag := by
  obtain ⟨hne, hname, hblank, hspelled, hraws, hnodup, hdecodes⟩ := h
  exact tagged_append hname hne (hspelled.whole hraws)

theorem getLast?_ne : tag.getLast? ≠ some (byte '/') := by
  obtain ⟨hne, hname, hblank, hspelled, hraws, hnodup, hdecodes⟩ := h
  intro hlast
  rw [List.getLast?_append, Option.or_eq_some_iff] at hlast
  rcases hlast with hlast | ⟨-, hlast⟩
  · exact hspelled.getLast?_ne hlast
  · exact notMem_of_isNameByte hname (List.mem_of_getLast? hlast) (by decide)

end Regular

/-! ## Attributes -/

/-- Where no two attributes have the name, the one that has it is found. -/
theorem Attribute.find?_eq_some_iff_mem {as : List Attribute} {name value : String}
    (hunique : ∀ a ∈ as, ∀ b ∈ as, a.name = ascii name → b.name = ascii name → a = b) :
    find? as name = some value ↔ ⟨ascii name, value⟩ ∈ as := by
  have hmem {value : String} (hfind : find? as name = some value) : ⟨ascii name, value⟩ ∈ as := by
    obtain ⟨before, after, rfl, -⟩ := find?_eq_some.1 hfind
    simp
  refine ⟨hmem, fun ha => ?_⟩
  cases hfind : find? as name with
  | none =>
    rw [find?, Option.map_eq_none_iff, List.find?_eq_none] at hfind
    cases hfind _ (List.mem_reverse.2 ha) (beq_self_eq_true _)
  | some value' =>
    cases hunique _ (hmem hfind) _ ha rfl rfl
    rfl

namespace Alike

variable {tag tag' : Bytes} (h : Alike tag tag')
include h

theorem localName_eq : localName (Tag.name tag') = localName (Tag.name tag) := by
  cases h with
  | intro htag htag' hname hnodup hperm hextra => exact hname

theorem stands_start : Token.Stands (.start tag') := by
  cases h with
  | intro htag htag' hname hnodup hperm hextra =>
    exact Token.stands_start htag'.tagged htag'.getLast?_ne

theorem stands_empty : Token.Stands (.empty tag') := by
  cases h with
  | intro htag htag' hname hnodup hperm hextra => exact Token.stands_empty htag'.tagged

/-- A builder does not see how a tag is spelled. -/
theorem start_eq (b : Builder) : b.start tag' = b.start tag := by
  cases h with
  | @intro as as' extra htag htag' hname hnodup hperm hextra =>
    refine Builder.start_congr htag.attributes htag'.attributes hname (fun e he name hknown => ?_) b
    have hmem {a : Attribute} (ha : a.name = ascii name) : a ∈ as' ↔ a ∈ as := by
      rw [hperm.mem_iff, List.mem_append, or_iff_left]
      exact fun hmem => hextra a hmem e he name hknown ha
    have hunique : ∀ a ∈ as, ∀ b ∈ as, a.name = ascii name → b.name = ascii name → a = b :=
      fun a ha b hb ha' hb' => List.inj_on_of_nodup_map hnodup ha hb (ha'.trans hb'.symm)
    refine Option.ext fun value => ?_
    rw [Attribute.find?_eq_some_iff_mem hunique, Attribute.find?_eq_some_iff_mem, hmem rfl]
    intro a ha b hb ha' hb'
    exact hunique a ((hmem ha').1 ha) b ((hmem hb').1 hb) ha' hb'

end Alike

/-! ## Tokens -/

/-- `us` are the tokens `ts` with other spellings of their tags. `opened` are the names of the open
elements before them, the innermost first, each as it was and as it is. -/
inductive Respells : List (Bytes × Bytes) → List Token → List Token → Prop where
  | nil {opened : List (Bytes × Bytes)} : Respells opened [] []
  | start {opened : List (Bytes × Bytes)} {tag tag' : Bytes} {ts us : List Token}
      (htag : Alike tag tag') (h : Respells ((Tag.name tag, Tag.name tag') :: opened) ts us) :
      Respells opened (.start tag :: ts) (.start tag' :: us)
  | empty {opened : List (Bytes × Bytes)} {tag tag' : Bytes} {ts us : List Token}
      (htag : Alike tag tag') (h : Respells opened ts us) :
      Respells opened (.empty tag :: ts) (.empty tag' :: us)
  | close {opened : List (Bytes × Bytes)} {name name' endTag blanks : Bytes} {ts us : List Token}
      (hname : Tag.endName endTag = name) (hblanks : ∀ b ∈ blanks, isBlank b)
      (h : Respells opened ts us) :
      Respells ((name, name') :: opened) (.close endTag :: ts) (.close (name' ++ blanks) :: us)
  | other {opened : List (Bytes × Bytes)} {t : Token} {ts us : List Token} (ht : t.isTag = false)
      (h : Respells opened ts us) : Respells opened (t :: ts) (t :: us)

/-- The name of an open element in both spellings. -/
structure Opened (names : Bytes × Bytes) : Prop where
  ne_nil : names.2 ≠ []
  isNameByte : ∀ b ∈ names.2, isNameByte b
  localName_eq : localName names.2 = localName names.1

theorem Alike.opened {tag tag' : Bytes} (h : Alike tag tag') :
    Opened (Tag.name tag, Tag.name tag') := by
  cases h with
  | intro htag htag' hname hnodup hperm hextra =>
    exact ⟨htag'.name_ne_nil, htag'.isNameByte_name, hname⟩

namespace Respells

variable {opened : List (Bytes × Bytes)} {ts us : List Token} (h : Respells opened ts us)
include h

theorem map_isText : us.map Token.isText = ts.map Token.isText := by
  induction h with
  | nil => rfl
  | start htag h ih | empty htag h ih | close hname hblanks h ih =>
    rw [List.map_cons, List.map_cons, ih]
    rfl
  | other ht h ih => rw [List.map_cons, List.map_cons, ih]

theorem takeWhile_isText : us.takeWhile Token.isText = ts.takeWhile Token.isText := by
  induction h with
  | nil | start | empty | close => rfl
  | other ht h ih => rw [List.takeWhile_cons, List.takeWhile_cons, ih]

theorem stands (hopened : ∀ names ∈ opened, Opened names) (hts : ∀ t ∈ ts, t.Stands) :
    ∀ u ∈ us, u.Stands := by
  induction h with
  | nil => simp
  | start htag h ih =>
    rw [List.forall_mem_cons] at hts ⊢
    exact ⟨htag.stands_start, ih (List.forall_mem_cons.2 ⟨htag.opened, hopened⟩) hts.2⟩
  | empty htag h ih =>
    rw [List.forall_mem_cons] at hts ⊢
    exact ⟨htag.stands_empty, ih hopened hts.2⟩
  | close hname hblanks h ih =>
    rw [List.forall_mem_cons] at hopened hts ⊢
    exact ⟨stands_close_append hopened.1.isNameByte hblanks, ih hopened.2 hts.2⟩
  | other ht h ih =>
    rw [List.forall_mem_cons] at hts ⊢
    exact ⟨hts.1, ih hopened hts.2⟩

theorem isChain (hts : ts.IsChain Token.Apart) : us.IsChain Token.Apart := by
  have hchain (ts : List Token) : ts.IsChain Token.Apart ↔
      (ts.map Token.isText).IsChain fun x y => x = true → y = false := by
    unfold Token.Apart
    rw [List.isChain_map]
  rw [hchain] at hts ⊢
  rwa [h.map_isText]

/-- A walk over other spellings keeps the other names open. -/
theorem walk (hopened : ∀ names ∈ opened, Opened names) :
    ∃ opened' : List (Bytes × Bytes),
      openAfter (opened.map Prod.fst) ts = some (opened'.map Prod.fst) ∧
      ∀ b, WaylandDoc.walk (opened.map Prod.snd, b) us =
        (fun s => (opened'.map Prod.snd, s.2)) <$> WaylandDoc.walk (opened.map Prod.fst, b) ts := by
  induction h with
  | @nil opened => exact ⟨opened, rfl, fun b => rfl⟩
  | @start opened tag tag' ts us htag h ih =>
    obtain ⟨opened', hopen, hwalk⟩ := ih (List.forall_mem_cons.2 ⟨htag.opened, hopened⟩)
    refine ⟨opened', hopen, fun b => walk_cons_congr trivial trivial rfl rfl ?_ hwalk⟩
    simp only [Reading.told, Token.calls, Builder.performAll_cons, Builder.perform, htag.start_eq]
  | @empty opened tag tag' ts us htag h ih =>
    obtain ⟨opened', hopen, hwalk⟩ := ih hopened
    refine ⟨opened', hopen, fun b => walk_cons_congr trivial trivial rfl rfl ?_ hwalk⟩
    simp only [Reading.told, Token.calls, Builder.performAll_cons, Builder.perform, htag.start_eq,
      htag.localName_eq]
  | @close opened name name' endTag blanks ts us hname hblanks h ih =>
    rw [List.forall_mem_cons] at hopened
    obtain ⟨hnames, hopened⟩ := hopened
    obtain ⟨opened', hopen, hwalk⟩ := ih hopened
    have hname' : Tag.endName (name' ++ blanks) = name' :=
      endName_append hnames.isNameByte hnames.ne_nil hblanks
    have hlocal : localName name' = localName name := hnames.localName_eq
    have hnest : nest (name :: opened.map Prod.fst) (.close endTag) = some (opened.map Prod.fst) :=
      Token.nest_close_eq_some.2 (by rw [hname])
    have hnest' : nest (name' :: opened.map Prod.snd) (.close (name' ++ blanks)) =
        some (opened.map Prod.snd) :=
      Token.nest_close_eq_some.2 (by rw [hname'])
    refine ⟨opened', ?_, fun b => walk_cons_congr trivial trivial hnest hnest' ?_ hwalk⟩
    · rw [List.map_cons, Token.openAfter_cons, hnest]
      exact hopen
    · rw [Reading.told, Reading.told, Token.calls, Token.calls, hname', hname, hlocal]
  | @other opened t ts us ht h ih =>
    obtain ⟨opened', hopen, hwalk⟩ := ih hopened
    have hnest := Token.nest_of_not_isTag ht
    refine ⟨opened', ?_, fun b => ?_⟩
    · rw [Token.openAfter_cons, hnest]
      exact hopen
    · by_cases hread : t.Readable
      · exact walk_cons_congr hread hread (hnest _) (hnest _) rfl hwalk
      · rw [walk_cons, walk_cons, advance_of_not_readable _ hread, advance_of_not_readable _ hread]
        rfl

end Respells

/-! ## Documents -/

/-- The second document is the first one with other spellings of its tags. A mark stays in front,
and what cannot be cut into tokens stays behind. -/
inductive Respelled (input : Bytes) : Bytes → Prop where
  | intro {us : List Token} (h : Respells [] (tokens input) us) :
      Respelled input (input.take (sizeUpTo input []) ++ us.flatMap Token.render ++
        input.drop (sizeUpTo input (tokens input)))

section Respelled

variable {input input' : Bytes}

theorem Respelled.lex (h : Respelled input input') :
    ∃ us, Respells [] (tokens input) us ∧
      Token.lex (dropMark input') = (us, (Token.lex (dropMark input)).2) := by
  cases h with
  | @intro us hus =>
  obtain ⟨rest, hcuts, -⟩ := exists_cuts_tokens input
  refine ⟨us, hus, lex_rewritten (hus.stands (List.forall_mem_nil _) hcuts.stands)
    (hus.isChain hcuts.isChain) ?_⟩
  rw [hus.takeWhile_isText]

/-- The spelling of the tags changes neither the tree nor the notices. -/
theorem parse_respelled (h : Respelled input input') :
    (∀ p, (parse input').result = .ok p ↔ (parse input).result = .ok p) ∧
      (parse input').notices = (parse input).notices := by
  obtain ⟨us, hus, hlex⟩ := h.lex
  have htokens : tokens input' = us := by rw [tokens, hlex]
  obtain ⟨opened, hopen, hwalk⟩ := hus.walk (List.forall_mem_nil _)
  have hwalk : walk ([], {}) us =
      (fun s => (opened.map Prod.snd, s.2)) <$> walk ([], {}) (tokens input) := hwalk {}
  -- An element is open in the end just if it is in the other spelling.
  have hresult (b : Builder) : (walk ([], {}) us).result = .ok ([], b) ↔
      (walk ([], {}) (tokens input)).result = .ok ([], b) := by
    have hnames {names : List Bytes} {b : Builder}
        (hs : (walk ([], {}) (tokens input)).result = .ok (names, b)) :
        names = opened.map Prod.fst :=
      Option.some.inj ((walk_eq_ok.1 hs).2.1.symm.trans hopen)
    rw [hwalk, Logged.result_map_eq_ok]
    constructor
    · rintro ⟨⟨names, b'⟩, hs, heq⟩
      obtain ⟨hnil, rfl⟩ := Prod.mk.inj heq
      rwa [hnames hs, List.map_eq_nil_iff.1 hnil] at hs
    · intro hs
      refine ⟨_, hs, ?_⟩
      rw [List.map_eq_nil_iff.1 (hnames hs).symm, List.map_nil]
  constructor
  · intro p
    simp only [parse_eq_ok_iff_walk, htokens, hlex, hresult]
  · rw [notices_parse_eq_walk, notices_parse_eq_walk, htokens, hwalk, Logged.notices_map]

/-- A prefix for the element, the attributes the other way around, other quotes and blanks, and an
attribute more. -/
theorem parse_respelled_protocol :
    let input := ascii "<protocol name=\"p\" a='1'></protocol>"
    let input' := ascii "<x:protocol\ta=\"1\"  b='' x:name='p' ></x:protocol\n>"
    ∃ p, (parse input).result = .ok p ∧ (parse input').result = .ok p ∧
      (parse input').notices = (parse input).notices := by
  intro input input'
  have htag : Regular (ascii "protocol" ++ ascii " name=\"p\" a='1'")
      [⟨ascii "name", "p"⟩, ⟨ascii "a", "1"⟩] := by
    have hlast := Spelled.attribute (ascii " ") (ascii "a") (ascii "1") (byte '\'')
      (by decide +kernel) (by decide) (by decide +kernel) (by decide) (by decide)
      (.nil (List.forall_mem_nil _))
    have hspelled := hlast.attribute (ascii " ") (ascii "name") (ascii "p") (byte '"')
      (by decide +kernel) (by decide) (by decide +kernel) (by decide) (by decide)
    exact .intro (by decide) (by decide +kernel) (by decide +kernel) hspelled (by decide +kernel)
      (by decide) (.cons ⟨by decide, by decide +kernel⟩ (.cons ⟨by decide, by decide +kernel⟩ .nil))
  have htag' : Regular (ascii "x:protocol" ++ ascii "\ta=\"1\"  b='' x:name='p' ")
      [⟨ascii "a", "1"⟩, ⟨ascii "b", ""⟩, ⟨ascii "name", "p"⟩] := by
    have hend : Spelled (ascii " ") [] := .nil (by decide +kernel)
    have hlast := hend.attribute (ascii " ") (ascii "x:name") (ascii "p") (byte '\'')
      (by decide +kernel) (by decide) (by decide +kernel) (by decide) (by decide)
    have hmiddle := hlast.attribute (ascii "  ") (ascii "b") (ascii "") (byte '\'')
      (by decide +kernel) (by decide) (by decide +kernel) (by decide) (by decide)
    have hspelled := hmiddle.attribute (ascii "\t") (ascii "a") (ascii "1") (byte '"')
      (by decide +kernel) (by decide) (by decide +kernel) (by decide) (by decide)
    exact .intro (by decide) (by decide +kernel) (by decide +kernel) hspelled (by decide +kernel)
      (by decide) (.cons ⟨by decide, by decide +kernel⟩ (.cons ⟨by decide, by decide +kernel⟩
        (.cons ⟨by decide, by decide +kernel⟩ .nil)))
  have hperm : [⟨ascii "a", "1"⟩, ⟨ascii "b", ""⟩, ⟨ascii "name", "p"⟩].Perm
      ([⟨ascii "name", "p"⟩, ⟨ascii "a", "1"⟩] ++ [(⟨ascii "b", ""⟩ : Attribute)]) := by
    decide +kernel
  have halike := Alike.intro htag htag' (by decide +kernel) (by decide) hperm (by decide +kernel)
  let us := [Token.start (ascii "x:protocol" ++ ascii "\ta=\"1\"  b='' x:name='p' "),
    .close (ascii "x:protocol" ++ ascii "\n")]
  have hrespells : Respells [] (tokens input) us := by
    have htokens : tokens input =
        [.start (ascii "protocol" ++ ascii " name=\"p\" a='1'"), .close (ascii "protocol")] := by
      decide +kernel
    rw [htokens]
    exact .start halike (.close (by decide +kernel) (by decide +kernel) .nil)
  have hbytes : input' = input.take (sizeUpTo input []) ++ us.flatMap Token.render ++
      input.drop (sizeUpTo input (tokens input)) := by decide +kernel
  have hrespelled : Respelled input input' := by
    rw [hbytes]
    exact .intro hrespells
  obtain ⟨hiff, hnotices⟩ := parse_respelled hrespelled
  have hresult : (parse input).result.toOption.isSome := by decide +kernel
  obtain ⟨p, hp⟩ := Option.isSome_iff_exists.1 hresult
  rw [toOption_eq_some] at hp
  exact ⟨p, hp, (hiff p).2 hp, hnotices⟩

end Respelled

end WaylandDoc
