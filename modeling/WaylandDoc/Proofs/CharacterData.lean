import WaylandDoc.Proofs.Attachment

/-!
# Character data

What text a description or a copyright gets: all character data between its start tag and its own
end tag, in document order. A builder stops at the first end tag that could be the one; it is the
right one because no text begins inside of another, so the elements that are open inside of a
collected one have no text of their own (`Collecting`). How the character data is cut into text,
CDATA sections and references makes no difference (`applyAll_recut`).
-/

namespace WaylandDoc

/-- The tokens of a document, as far as it can be cut into tokens. -/
def tokens (input : Bytes) : List Token := (Token.lex (dropMark input)).1

namespace Token

/-! ## Elements -/

/-- The character data that the token stands for; tags and markup without content have none. -/
def characters : Token → String
  | text data => (Reading.decode data).toOption.getD ""
  | cdata data => (Reading.decode data).toOption.getD ""
  | reference name => (Reading.resolve name).toOption.getD ""
  | _ => ""

def isTag : Token → Bool
  | start _ | empty _ | close _ => true
  | text _ | cdata _ | reference _ | aside _ => false

/-- The character data of the tokens, in document order. -/
def contents : List Token → String
  | [] => ""
  | t :: ts => t.characters ++ contents ts

/-- The tokens of an element: its start tag, what is inside of it and its own end tag. An empty tag
has nothing inside. -/
inductive Spans (tag : Bytes) : (inner element : List Token) → Prop where
  | tags {inner : List Token} {endTag : Bytes} (hinner : Balanced inner)
      (hname : Tag.endName endTag = Tag.name tag) :
      Spans tag inner (.start tag :: (inner ++ [.close endTag]))
  | empty : Spans tag [] [.empty tag]

/-- What was opened before stays open below. -/
theorem nest_append {names names' : List Bytes} {t : Token} (h : nest names t = some names')
    (outer : List Bytes) : nest (names ++ outer) t = some (names' ++ outer) := by
  cases t with
  | close tag =>
    rw [nest_close_eq_some] at h ⊢
    rw [h]
    rfl
  | start tag =>
    cases h
    rfl
  | empty tag | text data | cdata data | reference name | aside markup =>
    cases h
    rfl

theorem openAfter_append_right {names names' : List Bytes} {ts : List Token}
    (h : openAfter names ts = some names') (outer : List Bytes) :
    openAfter (names ++ outer) ts = some (names' ++ outer) := by
  induction ts generalizing names with
  | nil =>
    cases h
    rfl
  | cons t ts ih =>
    rw [openAfter_cons, Option.bind_eq_some_iff] at h
    obtain ⟨names₁, ht, hts⟩ := h
    rw [openAfter_cons, nest_append ht, Option.bind_some]
    exact ih hts

/-- The element that is open below `opened` is closed among the tokens if they do not fit without
it. -/
theorem exists_close_of_openAfter {opened names final : List Bytes} {name : Bytes}
    {ts : List Token} (h : openAfter (opened ++ name :: names) ts = some final) :
    (∃ opened', openAfter opened ts = some opened') ∨
      ∃ inner endTag after, ts = inner ++ .close endTag :: after ∧
        openAfter opened inner = some [] ∧ Tag.endName endTag = name := by
  induction ts generalizing opened with
  | nil => exact .inl ⟨opened, rfl⟩
  | cons t ts ih =>
    rw [openAfter_cons, Option.bind_eq_some_iff] at h
    obtain ⟨names₁, ht, hts⟩ := h
    have step {opened₁ : List Bytes} (hnest : nest opened t = some opened₁) :
        (∃ opened', openAfter opened (t :: ts) = some opened') ∨
          ∃ inner endTag after, t :: ts = inner ++ .close endTag :: after ∧
            openAfter opened inner = some [] ∧ Tag.endName endTag = name := by
      rw [nest_append hnest, Option.some.injEq] at ht
      rw [openAfter_cons, hnest]
      rcases ih (ht ▸ hts) with hopen | ⟨inner, endTag, after, rfl, hinner, hname⟩
      · exact .inl hopen
      · refine .inr ⟨t :: inner, endTag, after, rfl, ?_, hname⟩
        rw [openAfter_cons, hnest]
        exact hinner
    cases t with
    | close tag =>
      cases opened with
      | nil =>
        rw [nest_close_eq_some] at ht
        obtain ⟨rfl, -⟩ := List.cons.inj ht
        exact .inr ⟨[], tag, ts, rfl, rfl, rfl⟩
      | cons o opened =>
        rw [nest_close_eq_some] at ht
        obtain ⟨rfl, -⟩ := List.cons.inj ht
        exact step (nest_close_eq_some.2 rfl)
    | start tag => exact step rfl
    | empty tag | text data | cdata data | reference name | aside markup => exact step rfl

/-- If all elements are closed in the end, so is the one that is open below `opened`. -/
theorem exists_close {opened names : List Bytes} {name : Bytes} {ts : List Token}
    (h : openAfter (opened ++ name :: names) ts = some []) :
    ∃ inner endTag after, ts = inner ++ .close endTag :: after ∧
      openAfter opened inner = some [] ∧ Tag.endName endTag = name := by
  rcases exists_close_of_openAfter h with ⟨opened', hopen⟩ | hclose
  · rw [openAfter_append_right hopen] at h
    simp at h
  · exact hclose

/-- In a document whose tags are balanced every start tag has its own end tag. -/
theorem Balanced.exists_spans {ts before rest : List Token} {tag : Bytes} (h : Balanced ts)
    (hts : ts = before ++ .start tag :: rest) :
    ∃ inner element after, Spans tag inner element ∧ ts = before ++ element ++ after := by
  rw [Balanced, hts, openAfter_append, Option.bind_eq_some_iff] at h
  obtain ⟨names, -, h⟩ := h
  rw [openAfter_cons] at h
  rw [nest, Option.bind_some, ← List.nil_append (_ :: names)] at h
  obtain ⟨inner, endTag, after, rfl, hinner, hname⟩ := exists_close h
  exact ⟨inner, _, after, .tags hinner hname, by simp [hts]⟩

namespace Spans

variable {tag : Bytes} {inner element : List Token}

theorem balanced (h : Spans tag inner element) : Balanced inner := by
  cases h with
  | tags hinner hname => exact hinner
  | empty => rfl

/-- An empty tag makes the calls of a start tag and an end tag. -/
theorem calls_eq (h : Spans tag inner element) : element.flatMap calls =
    .start tag :: (inner.flatMap calls ++ [.close (localName (Tag.name tag))]) := by
  cases h with
  | tags hinner hname => simp [calls, hname]
  | empty => rfl

theorem openAfter_eq (h : Spans tag inner element) (names : List Bytes) :
    openAfter names element = some names := by
  cases h with
  | @tags inner endTag hinner hname =>
    have hopen := openAfter_append_right hinner (Tag.name tag :: names)
    rw [List.nil_append] at hopen
    have hclose : nest (Tag.name tag :: names) (.close endTag) = some names :=
      nest_close_eq_some.2 (by rw [hname])
    rw [openAfter_cons, nest, Option.bind_some, openAfter_append, hopen, Option.bind_some,
      openAfter_cons, hclose]
    rfl
  | empty => rfl

end Spans

end Token

/-! ## Collecting -/

namespace Builder

open Token (contents nest openAfter)

variable {b b' : Builder} {past : History}

theorem applyAll_of_not_isTag {t : Token} (ht : t.isTag = false) (hread : t.Readable) :
    b.applyAll t.calls = .ok (b.text t.characters) := by
  have text {x : Except DocumentError String} (hx : ∃ s, x = .ok s) :
      b.applyAll (x.toOption.toList.map .text) = .ok (b.text (x.toOption.getD "")) := by
    obtain ⟨s, rfl⟩ := hx
    rfl
  cases t with
  | start tag | empty tag | close tag => cases ht
  | text data | cdata data | reference name => exact text hread
  | aside markup => exact congrArg Except.ok b.text_empty.symm

theorem pending_closed {name : Bytes} (h : isCollected name = false) :
    (b.closed (Element.ofName? name)).pending = b.pending := by
  simp only [isCollected, Bool.or_eq_false_iff, beq_eq_false_iff_ne, ne_eq] at h
  unfold Builder.closed
  split <;> simp_all

/-- A text is collected for one of the `outer` open elements. The `opened` ones are inside of it. -/
structure Collecting (b : Builder) (past : History) (outer opened : List Bytes) (c : Pending) :
    Prop where
  grounded : b.Grounded
  tracks : b.Tracks past
  nested : past.Nested
  names : past.openNames = (opened ++ outer).map localName
  collected : (outer.map localName).any isCollected
  pending : b.pending = some c

namespace Collecting

variable {outer opened opened' : List Bytes} {c : Pending}

/-- The text is not that of an element inside. -/
theorem not_isCollected (h : b.Collecting past outer opened c) {name : Bytes}
    (hname : name ∈ opened) : isCollected (localName name) = false := by
  have hcount := h.tracks.pending
  rw [h.names, List.map_append, List.countP_append, h.pending] at hcount
  have hpos : 0 < (outer.map localName).countP isCollected := by
    rw [List.countP_pos_iff]
    exact List.any_eq_true.1 h.collected
  have hzero : (opened.map localName).countP isCollected = 0 := by
    rw [Option.isSome_some, Bool.toNat_true] at hcount
    omega
  simpa using List.countP_eq_zero.1 hzero (localName name) (List.mem_map_of_mem hname)

/-- No text begins inside of another. -/
theorem start (h : b.Collecting past outer opened c) {tag : Bytes}
    (hc : b.apply (.start tag) = .ok b') :
    isCollected (localName (Tag.name tag)) = false ∧ b'.pending = some c := by
  cases (apply_eq_ok h.grounded).1 hc with
  | start he hs =>
    rcases hs.collects he h.grounded h.tracks with ⟨hcollected, hpending⟩ | ⟨_, -, -, hpending, -⟩
    · exact ⟨hcollected, hpending.trans h.pending⟩
    · simp [h.pending] at hpending
  | ignore he => exact ⟨by simp [isCollected, he], h.pending⟩

/-- A token inside of the element adds its character data to the text. -/
theorem pending_token (h : b.Collecting past outer opened c) {t : Token} (hread : t.Readable)
    (hnest : nest opened t = some opened') (hcalls : b.applyAll t.calls = .ok b') :
    b'.pending = some { c with text := c.text ++ t.characters } := by
  have unchanged (hp : b'.pending = some c) (ht : t.characters = "") :
      b'.pending = some { c with text := c.text ++ t.characters } := by
    rw [hp, ht, String.append_empty]
  by_cases htag : t.isTag
  · cases t with
    | start tag =>
      obtain ⟨b₁, hstart, hcalls⟩ := applyAll_cons_eq_ok.1 hcalls
      cases hcalls
      exact unchanged (h.start hstart).2 rfl
    | empty tag =>
      obtain ⟨b₁, hstart, hcalls⟩ := applyAll_cons_eq_ok.1 hcalls
      obtain ⟨b₂, hclose, hcalls⟩ := applyAll_cons_eq_ok.1 hcalls
      cases hcalls
      obtain ⟨hc, hp⟩ := h.start hstart
      have hb₁ := ((apply_eq_ok h.grounded).1 hstart).grounded h.grounded
      rw [Builder.apply, close_eq hb₁] at hclose
      cases hclose
      exact unchanged ((pending_closed hc).trans hp) rfl
    | close tag =>
      obtain ⟨b₁, hclose, hcalls⟩ := applyAll_cons_eq_ok.1 hcalls
      cases hcalls
      rw [Builder.apply, close_eq h.grounded] at hclose
      cases hclose
      rw [Token.nest_close_eq_some] at hnest
      have hmem : Tag.endName tag ∈ opened := by simp [hnest]
      have hc := h.not_isCollected hmem
      exact unchanged ((pending_closed hc).trans h.pending) rfl
    | text data | cdata data | reference name | aside markup => cases htag
  · rw [applyAll_of_not_isTag (by simpa using htag) hread] at hcalls
    cases hcalls
    simp [Builder.text, h.pending]

theorem token (h : b.Collecting past outer opened c) {t : Token} (hread : t.Readable)
    (hnest : nest opened t = some opened') (hcalls : b.applyAll t.calls = .ok b') :
    b'.Collecting (t.calls.reverse ++ past) outer opened'
      { c with text := c.text ++ t.characters } := by
  obtain ⟨hnested, hnames⟩ :=
    History.nested_of_nest h.nested h.names (Token.nest_append hnest outer)
  exact ⟨h.grounded.applyAll hcalls, h.tracks.applyAll h.grounded hnested hcalls, hnested, hnames,
    h.collected, h.pending_token hread hnest hcalls⟩

/-- The tokens inside of the element add their character data to the text, in their order. -/
theorem pending_tokens (h : b.Collecting past outer opened c) {ts : List Token}
    (hread : ∀ t ∈ ts, t.Readable) (hopen : openAfter opened ts = some opened')
    (hcalls : b.applyAll (ts.flatMap Token.calls) = .ok b') :
    b'.pending = some { c with text := c.text ++ contents ts } := by
  induction ts generalizing b past opened c with
  | nil =>
    cases hcalls
    rw [h.pending, contents, String.append_empty]
  | cons t ts ih =>
    rw [List.flatMap_cons, applyAll_append_eq_ok] at hcalls
    obtain ⟨b₁, ht, hcalls⟩ := hcalls
    rw [Token.openAfter_cons, Option.bind_eq_some_iff] at hopen
    obtain ⟨opened₁, hnest, hopen⟩ := hopen
    rw [List.forall_mem_cons] at hread
    rw [ih (h.token hread.1 hnest ht) hread.2 hopen hcalls, contents, String.append_assoc]

end Collecting

theorem Starts.exists_summary {tag : Bytes} (h : b.Starts tag .description b') :
    ∃ summary, Tag.value? tag "summary" = some summary := by
  cases h with
  | @description s place hd hc hplace =>
    obtain ⟨as, has, hs⟩ := hd
    rw [Description.declareSummary, required_eq_ok, ← Tag.value?_eq has] at hs
    exact ⟨s, hs⟩
  | @message e kind m p i x hel => cases kind <;> cases hel

theorem exists_element_of_purpose? {tag : Bytes} {purpose : Purpose}
    (h : Call.purpose? past (.start tag) = some purpose) :
    (∃ e, Element.ofName? (localName (Tag.name tag)) = some e) ∧
      isCollected (localName (Tag.name tag)) := by
  unfold Call.purpose? at h
  cases he : Element.ofName? (localName (Tag.name tag)) with
  | none => simp [he] at h
  | some e =>
    refine ⟨⟨e, rfl⟩, ?_⟩
    cases e <;> simp_all [isCollected]

/-- The character data inside of an element with a text is what is stored when it ends. -/
theorem texts_of_spans {tag : Bytes} {inner element : List Token} {names : List Bytes}
    {purpose : Purpose} (hb : b.Grounded) (ht : b.Tracks past) (hn : past.Nested)
    (hnames : past.openNames = names.map localName) (hspans : Token.Spans tag inner element)
    (hread : ∀ t ∈ inner, t.Readable) (hpurpose : Call.purpose? past (.start tag) = some purpose)
    (h : b.applyAll (element.flatMap Token.calls) = .ok b') :
    b'.pending = none ∧ ∃ t : Texts, b'.texts = t.store ⟨purpose, contents inner⟩ := by
  obtain ⟨⟨e, he⟩, hc⟩ := exists_element_of_purpose? hpurpose
  rw [hspans.calls_eq, applyAll_cons_eq_ok] at h
  obtain ⟨b₁, hstart, h⟩ := h
  obtain ⟨b₂, hinner, h⟩ := applyAll_append_eq_ok.1 h
  obtain ⟨b₃, hclose, h⟩ := applyAll_cons_eq_ok.1 h
  cases h
  have hstarts : b.Starts tag e b₁ := starts_of_start he hstart
  have hpending₁ : b₁.pending = some { purpose } := by
    rcases hstarts.collects he hb ht with ⟨hfalse, -⟩ | ⟨purpose', -, hpurpose', -, hpending⟩
    · simp [hc] at hfalse
    · cases hpurpose.symm.trans hpurpose'
      exact hpending
  have hcollecting : b₁.Collecting (.start tag :: past) (Tag.name tag :: names) [] { purpose } :=
    { grounded := hb.start hstarts
      tracks := ht.start hb he hstarts
      nested := hn
      names := congrArg (_ :: ·) hnames
      collected := by simp [hc]
      pending := hpending₁ }
  have hpending := hcollecting.pending_tokens hread hspans.balanced hinner
  rw [String.empty_append] at hpending
  have hb₂ := hcollecting.grounded.applyAll hinner
  rw [Builder.apply, close_eq hb₂, b₂.closed_of_isCollected hc, Except.ok.injEq] at hclose
  subst hclose
  refine ⟨by rw [stored_eq], b₂.texts, ?_⟩
  rw [texts_stored hb₂, hpending]
  rfl

end Builder

theorem copyright_foldl_store {cs : List Pending} (t : Texts)
    (h : ∀ c ∈ cs, c.purpose ≠ .copyright) : (cs.foldl Texts.store t).copyright = t.copyright := by
  induction cs generalizing t with
  | nil => rfl
  | cons c cs ih =>
    rw [List.forall_mem_cons] at h
    rw [List.foldl_cons, ih _ h.2]
    obtain ⟨purpose, text⟩ := c
    cases purpose with
    | copyright => exact absurd rfl h.1
    | description place summary => rfl

/-- A description stays if no later one is for the same node. -/
theorem description_foldl_store_of_ne {cs : List Pending} (t : Texts) {q : Place}
    (h : ∀ c ∈ cs, ∀ s, c.purpose ≠ .description q s) :
    (cs.foldl Texts.store t).description q = t.description q := by
  have hnone : (cs.filterMap Pending.described?).filter (·.1 = q) = [] := by
    rw [List.filter_eq_nil_iff]
    rintro d hd hq
    obtain ⟨⟨purpose, text⟩, hc, hd⟩ := List.mem_filterMap.1 hd
    cases purpose with
    | copyright => cases hd
    | description place summary =>
      cases hd
      exact h _ hc summary (by simpa using hq)
  rw [description_foldl_store, hnone]
  rfl

/-! ## Cutting character data -/

/-- The tokens differ only in how character data is cut: the tags are the same, and so is the
character data between two of them. -/
inductive Token.Recut : List Token → List Token → Prop where
  | nil : Recut [] []
  | cons {ts us : List Token} (t : Token) (h : Recut ts us) : Recut (t :: ts) (t :: us)
  | chunk {xs ys ts us : List Token} (hxs : ∀ t ∈ xs, t.isTag = false)
      (hys : ∀ t ∈ ys, t.isTag = false) (hcontents : Token.contents xs = Token.contents ys)
      (h : Recut ts us) : Recut (xs ++ ts) (ys ++ us)

namespace Builder

open Token (contents)

theorem applyAll_of_untagged {ts : List Token} (b : Builder) (htag : ∀ t ∈ ts, t.isTag = false)
    (hread : ∀ t ∈ ts, t.Readable) :
    b.applyAll (ts.flatMap Token.calls) = .ok (b.text (contents ts)) := by
  induction ts generalizing b with
  | nil => exact congrArg Except.ok b.text_empty.symm
  | cons t ts ih =>
    rw [List.forall_mem_cons] at htag hread
    rw [List.flatMap_cons, applyAll_append, applyAll_of_not_isTag htag.1 hread.1]
    rw [contents, ← text_text]
    exact ih (b.text t.characters) htag.2 hread.2

/-- A builder cannot tell how character data is cut. -/
theorem applyAll_recut {ts us : List Token} (h : Token.Recut ts us) (b : Builder)
    (hts : ∀ t ∈ ts, t.Readable) (hus : ∀ t ∈ us, t.Readable) :
    b.applyAll (ts.flatMap Token.calls) = b.applyAll (us.flatMap Token.calls) := by
  induction h generalizing b with
  | nil => rfl
  | cons t h ih =>
    rw [List.forall_mem_cons] at hts hus
    rw [List.flatMap_cons, List.flatMap_cons, applyAll_append, applyAll_append]
    exact congrArg _ (funext fun b₁ => ih b₁ hts.2 hus.2)
  | @chunk xs ys ts us hxs hys hcontents h ih =>
    rw [List.forall_mem_append] at hts hus
    rw [List.flatMap_append, List.flatMap_append, applyAll_append, applyAll_append,
      applyAll_of_untagged b hxs hts.1, applyAll_of_untagged b hys hus.1, hcontents]
    exact ih (b.text (contents ys)) hts.2 hus.2

end Builder

/-! ## Bodies of an accepted document -/

section Parse

variable {input : Bytes} {p : Protocol} {before inner element after : List Token} {tag : Bytes}

/-- Every start tag of an accepted document has its own end tag. -/
theorem exists_spans_of_parse (h : (parse input).result = .ok p) {rest : List Token}
    (hts : tokens input = before ++ .start tag :: rest) :
    ∃ inner element after, Token.Spans tag inner element ∧
      tokens input = before ++ element ++ after := by
  obtain ⟨ts, hlex, hbalanced, -⟩ := parse_eq_ok_iff.1 h
  have htokens : tokens input = ts := by rw [tokens, hlex]
  rw [htokens] at hts ⊢
  exact hbalanced.exists_spans hts

/-- The text of an element is stored when the element ends, and those that begin later after it. -/
theorem stored_of_parse (h : (parse input).result = .ok p)
    (hts : tokens input = before ++ element ++ after) (hspans : Token.Spans tag inner element)
    {purpose : Purpose}
    (hpurpose : Call.purpose? (before.flatMap Token.calls).reverse (.start tag) = some purpose) :
    ∃ b t, Builder.applyAll {} ((before ++ element).flatMap Token.calls) = .ok b ∧
      b.texts = Texts.store t ⟨purpose, Token.contents inner⟩ ∧
      p.texts = (collected ((before ++ element).flatMap Token.calls).reverse
        (after.flatMap Token.calls)).foldl Texts.store b.texts := by
  obtain ⟨ts, hlex, hbalanced, hread, b, hb, hp⟩ := parse_eq_ok_iff.1 h
  have htokens : tokens input = ts := by rw [tokens, hlex]
  rw [htokens] at hts
  subst hts
  rw [Token.Balanced, Token.openAfter_append, Option.bind_eq_some_iff] at hbalanced
  obtain ⟨names', hopen', hafter⟩ := hbalanced
  obtain ⟨names, hopen, helement⟩ := Option.bind_eq_some_iff.1
    ((Token.openAfter_append ..).symm.trans hopen')
  cases (hspans.openAfter_eq names).symm.trans helement
  have hnil : History.Nested [] := trivial
  obtain ⟨hn₀, hnames₀⟩ := History.nested_of_openAfter hnil rfl hopen
  obtain ⟨hn₁, hnames₁⟩ := History.nested_of_openAfter hnil rfl hopen'
  obtain ⟨hn, hnames⟩ := History.nested_of_openAfter hn₁ hnames₁ hafter
  rw [List.flatMap_append, Builder.applyAll_append_eq_ok] at hb
  obtain ⟨b₁, hb₁, hb⟩ := hb
  obtain ⟨b₀, hb₀, hb₁'⟩ := Builder.applyAll_append_eq_ok.1 (List.flatMap_append ▸ hb₁)
  have hgrounded₀ := Builder.grounded_empty.applyAll hb₀
  have hgrounded₁ := Builder.grounded_empty.applyAll hb₁
  have htracks₀ := Builder.tracks_empty.applyAll Builder.grounded_empty hn₀ hb₀
  have htracks₁ := Builder.tracks_empty.applyAll Builder.grounded_empty hn₁ hb₁
  simp only [List.append_nil] at hn₀ hnames₀ hn hnames htracks₀ htracks₁
  have hreadInner : ∀ t ∈ inner, t.Readable := by
    intro t ht
    refine hread t ?_
    cases hspans with
    | tags hinner hname => simp [ht]
    | empty => cases ht
  obtain ⟨hpending, t, htexts⟩ := Builder.texts_of_spans hgrounded₀ htracks₀ hn₀ hnames₀ hspans
    hreadInner hpurpose hb₁'
  have hlater := Builder.texts_applyAll hgrounded₁ htracks₁ hn hnames hb
  rw [Builder.texts_of_protocol hp] at hlater
  refine ⟨b₁, t, hb₁, htexts, ?_⟩
  rw [hlater, Builder.ahead, hpending]
  rfl

/-- A description has a summary. -/
theorem exists_summary_of_applyAll {b : Builder} (hspans : Token.Spans tag inner element)
    (he : Element.ofName? (localName (Tag.name tag)) = some .description)
    (hb : Builder.applyAll {} ((before ++ element).flatMap Token.calls) = .ok b) :
    ∃ summary, Tag.value? tag "summary" = some summary := by
  rw [List.flatMap_append, hspans.calls_eq, Builder.applyAll_append_eq_ok] at hb
  obtain ⟨b₀, -, hb⟩ := hb
  obtain ⟨b₁, hstart, -⟩ := Builder.applyAll_cons_eq_ok.1 hb
  exact (Builder.starts_of_start he hstart).exists_summary

end Parse

/-- In an accepted document all character data can be decoded and every start tag has its own end
tag. What is stored for a description or a copyright is the character data inside of the element,
and it stays unless a later text is for the same. A document that differs only in how character data
is cut has the same tree. -/
theorem bodies_of_parse {input : Bytes} {p : Protocol} (h : (parse input).result = .ok p) :
    (∀ t ∈ tokens input, t.Readable) ∧
    (∀ before tag rest, tokens input = before ++ .start tag :: rest →
      ∃ inner element after, Token.Spans tag inner element ∧
        tokens input = before ++ element ++ after) ∧
    (∀ before tag inner element after, tokens input = before ++ element ++ after →
      Token.Spans tag inner element →
      let past : History := (before.flatMap Token.calls).reverse
      let calls := (before ++ element).flatMap Token.calls
      let later := collected calls.reverse (after.flatMap Token.calls)
      (Element.ofName? (localName (Tag.name tag)) = some .description →
        ∃ b summary, Builder.applyAll {} calls = .ok b ∧ Tag.value? tag "summary" = some summary ∧
          b.texts.description past.target = some ⟨summary, Token.contents inner⟩ ∧
          ((∀ c ∈ later, ∀ s, c.purpose ≠ .description past.target s) →
            p.description? past.target = some ⟨summary, Token.contents inner⟩)) ∧
      (Element.ofName? (localName (Tag.name tag)) = some .copyright →
        ∃ b, Builder.applyAll {} calls = .ok b ∧
          b.texts.copyright = some (Token.contents inner) ∧
          ((∀ c ∈ later, c.purpose ≠ .copyright) →
            p.copyright = some (Token.contents inner)))) ∧
    ∀ input' p', (parse input').result = .ok p' → Token.Recut (tokens input) (tokens input') →
      p' = p := by
  refine ⟨?_, fun before tag rest hts => exists_spans_of_parse h hts, ?_, ?_⟩
  · obtain ⟨ts, hlex, -, hread, -⟩ := parse_eq_ok_iff.1 h
    rw [tokens, hlex]
    exact hread
  · intro before tag inner element after hts hspans past calls later
    constructor
    · intro he
      have hpurpose : Call.purpose? past (.start tag) =
          some (.description past.target ((Tag.value? tag "summary").getD "")) := by
        simp only [Call.purpose?, he]
      obtain ⟨b, t, hb, htexts, hp⟩ := stored_of_parse h hts hspans hpurpose
      obtain ⟨summary, hsummary⟩ := exists_summary_of_applyAll hspans he hb
      have hdescription :
          b.texts.description past.target = some ⟨summary, Token.contents inner⟩ := by
        simp [htexts, Texts.store, hsummary]
      refine ⟨b, summary, hb, hsummary, hdescription, fun hlater => ?_⟩
      have hlast := congrArg (Texts.description · past.target) hp
      rw [description_foldl_store_of_ne _ hlater, hdescription] at hlast
      exact hlast
    · intro he
      have hpurpose : Call.purpose? past (.start tag) = some .copyright := by
        simp only [Call.purpose?, he]
      obtain ⟨b, t, hb, htexts, hp⟩ := stored_of_parse h hts hspans hpurpose
      refine ⟨b, hb, by rw [htexts]; rfl, fun hlater => ?_⟩
      have hcopyright := congrArg Texts.copyright hp
      rw [copyright_foldl_store _ hlater, htexts] at hcopyright
      exact hcopyright
  · intro input' p' h' hrecut
    obtain ⟨ts, hlex, -, hread, b, hb, hp⟩ := parse_eq_ok_iff.1 h
    obtain ⟨ts', hlex', -, hread', b', hb', hp'⟩ := parse_eq_ok_iff.1 h'
    rw [tokens, tokens, hlex, hlex'] at hrecut
    rw [Builder.applyAll_recut hrecut _ hread hread', hb', Except.ok.injEq] at hb
    rw [hb, hp] at hp'
    exact (Option.some.inj hp').symm

/-- A body with an element, a comment and a CDATA section inside, and the same body cut anew. -/
theorem bodies_of_cut_text :
    let input := ascii ("<protocol name='p'><description summary='s'>a&lt;<b>c</b><!-- x -->" ++
      "<![CDATA[d]]></description></protocol>")
    let input' := ascii ("<protocol name='p'><description summary='s'><![CDATA[a<]]><b>c</b>d" ++
      "</description></protocol>")
    ∃ p, (parse input).result = .ok p ∧ (parse input').result = .ok p ∧
      p.description? .protocol = some ⟨"s", "a<cd"⟩ := by
  intro input input'
  let before : List Token := [.start (ascii "protocol name='p'")]
  let inner : List Token := [
    .text (ascii "a"), .reference (ascii "lt"), .start (ascii "b"), .text (ascii "c"),
    .close (ascii "b"), .aside (ascii "!-- x --"), .cdata (ascii "d")]
  let element := .start (ascii "description summary='s'") ::
    (inner ++ [.close (ascii "description")])
  let after : List Token := [.close (ascii "protocol")]
  have htokens : tokens input = before ++ element ++ after := by decide +kernel
  have htokens' : tokens input' = before ++ (.start (ascii "description summary='s'") ::
      .cdata (ascii "a<") :: .start (ascii "b") :: .text (ascii "c") :: .close (ascii "b") ::
      .text (ascii "d") :: .close (ascii "description") :: after) := by decide +kernel
  have hresult : (parse input).result.toOption.isSome := by decide +kernel
  have hresult' : (parse input').result.toOption.isSome := by decide +kernel
  obtain ⟨p, hp⟩ := Option.isSome_iff_exists.1 hresult
  obtain ⟨p', hp'⟩ := Option.isSome_iff_exists.1 hresult'
  rw [toOption_eq_some] at hp hp'
  obtain ⟨-, -, helement, hrecut⟩ := bodies_of_parse hp
  have hspans : Token.Spans (ascii "description summary='s'") inner element :=
    .tags (by unfold Token.Balanced; decide +kernel) (by decide +kernel)
  obtain ⟨b, summary, hb, hsummary, -, hlast⟩ :=
    (helement _ _ _ _ _ htokens hspans).1 (by decide +kernel)
  have hvalue : Tag.value? (ascii "description summary='s'") "summary" = some "s" := by
    decide +kernel
  have hcontents : Token.contents inner = "a<cd" := by decide +kernel
  have htarget : History.target (before.flatMap Token.calls).reverse = .protocol := by
    decide +kernel
  rw [hvalue, Option.some.injEq] at hsummary
  rw [htarget, hcontents, ← hsummary] at hlast
  refine ⟨p, hp, ?_, hlast fun c hc => ?_⟩
  · rw [← hrecut _ _ hp' ?_]
    · exact hp'
    · rw [htokens, htokens']
      refine .cons _ (.cons _ (@Token.Recut.chunk [.text (ascii "a"), .reference (ascii "lt")]
        [.cdata (ascii "a<")] _ _ ?_ ?_ ?_ (.cons _ (.cons _ (.cons _ (@Token.Recut.chunk
        [.aside (ascii "!-- x --"), .cdata (ascii "d")] [.text (ascii "d")] _ _ ?_ ?_ ?_
        (.cons _ (.cons _ .nil))))))))
      all_goals decide +kernel
  · have hnone : collected ((before ++ element).flatMap Token.calls).reverse
        (after.flatMap Token.calls) = [] := by decide +kernel
    rw [hnone] at hc
    cases hc

end WaylandDoc
