import WaylandDoc.Proofs.Assembly
import WaylandDoc.Proofs.Behind
import WaylandDoc.Proofs.CharacterData

/-!
# Interfaces on their own

A fragment is a sequence of interface elements with blanks around them. Two fragments in one
protocol are read as each is alone: the second goes on behind the tree of the first, and nothing
else is left of the first when an interface starts (`parse_documentOf_append`). The blanks make no
difference, since no text is collected between two interfaces (`Spaced.performAll_eq`).
-/

namespace WaylandDoc

open Utf8 (encode)
open Token (Cuts Spans)

/-- The document of a protocol that has nothing but a name and the content. -/
def documentOf (name : String) (content : Bytes) : Bytes :=
  ascii "<protocol name=\"" ++ encode (escape name) ++ ascii "\">" ++ content ++
    ascii "</protocol>"

/-- The bytes are interface elements with blanks around them, and `es` are the tokens of these. An
element may have anything inside that can be cut into tokens and whose tags match. -/
inductive Fragment : Bytes → List Token → Prop where
  | blanks {s : Bytes} (h : ∀ b ∈ s, isBlank b) : Fragment s []
  | cons {blanks bytes rest tag : Bytes} {inner element es : List Token}
      (hblanks : ∀ b ∈ blanks, isBlank b) (hlex : Token.lex bytes = (element, .complete))
      (hspans : Spans tag inner element)
      (hname : localName (Tag.name tag) = ascii Element.interface.name)
      (hrest : Fragment rest es) : Fragment (blanks ++ bytes ++ rest) (element ++ es)

/-- An element alone. -/
theorem Fragment.element {bytes tag : Bytes} {inner element : List Token}
    (hspans : Spans tag inner element) (hlex : Token.lex bytes = (element, .complete))
    (hname : localName (Tag.name tag) = ascii Element.interface.name) : Fragment bytes element := by
  simpa using Fragment.cons (List.forall_mem_nil _) hlex hspans hname
    (.blanks (List.forall_mem_nil _))

theorem Fragment.append {s s' : Bytes} {es es' : List Token} (h : Fragment s es)
    (h' : Fragment s' es') : Fragment (s ++ s') (es ++ es') := by
  induction h with
  | @blanks s hs =>
    cases h' with
    | blanks hs' => exact .blanks (List.forall_mem_append.2 ⟨hs, hs'⟩)
    | cons hblanks hlex hspans hname hrest =>
      rw [List.nil_append, ← List.append_assoc, ← List.append_assoc]
      exact .cons (List.forall_mem_append.2 ⟨hs, hblanks⟩) hlex hspans hname hrest
  | cons hblanks hlex hspans hname hrest ih =>
    rw [List.append_assoc _ _ s', List.append_assoc _ _ es']
    exact .cons hblanks hlex hspans hname ih

/-! ## Blanks between elements -/

/-- The tokens of elements, with blank texts between them. -/
inductive Spaced : List Token → List Token → Prop where
  | nil : Spaced [] []
  | blanks {data : Bytes} {ts es : List Token} (hdata : ∀ b ∈ data, isBlank b)
      (h : Spaced ts es) : Spaced (.text data :: ts) es
  | element {tag : Bytes} {inner element ts es : List Token} (hspans : Spans tag inner element)
      (h : Spaced ts es) : Spaced (element ++ ts) (element ++ es)

theorem Fragment.spaced {s : Bytes} {es : List Token} (h : Fragment s es) : Spaced es es := by
  induction h with
  | blanks => exact .nil
  | cons _ _ hspans _ _ ih => exact .element hspans ih

theorem exists_encode_of_blanks {data : Bytes} (h : ∀ b ∈ data, isBlank b) :
    ∃ s, data = encode s := by
  induction data with
  | nil => exact ⟨"", rfl⟩
  | cons b data ih =>
    rw [List.forall_mem_cons] at h
    obtain ⟨s, rfl⟩ := ih h.2
    have hb : ∃ c : Char, c.toNat < 0x80 ∧ b = byte c := by
      have hcases := h.1
      simp only [isBlank, newline, Bool.or_eq_true, beq_iff_eq] at hcases
      rcases hcases with ((rfl | rfl) | rfl) | rfl
      all_goals exact ⟨_, by decide, rfl⟩
    obtain ⟨c, hc, rfl⟩ := hb
    exact ⟨.ofList (c :: s.toList), by simp [encode, Utf8.utf8EncodeChar_ascii hc]⟩

theorem exists_decode_of_blanks {data : Bytes} (h : ∀ b ∈ data, isBlank b) :
    ∃ s, Reading.decode data = .ok s := by
  obtain ⟨s, rfl⟩ := exists_encode_of_blanks h
  exact ⟨s, by rw [Reading.decode, Utf8.decode_encode]; rfl⟩

/-- Outside of the elements with a text no text is collected. -/
theorem Builder.Tracks.pending_eq_none {b : Builder} {past : History} {names : List Bytes}
    (ht : b.Tracks past) (hnames : past.openNames = names.map localName)
    (hcollected : (names.map localName).countP isCollected = 0) : b.pending = none := by
  have hcount := ht.pending
  rw [hnames, hcollected] at hcount
  simpa using hcount.symm

namespace Spaced

variable {ts es : List Token}

theorem readable (h : Spaced ts es) : (∀ t ∈ ts, t.Readable) ↔ ∀ t ∈ es, t.Readable := by
  induction h with
  | nil => rfl
  | blanks hdata h ih =>
    have hread : Token.Readable (.text _) := exists_decode_of_blanks hdata
    rw [List.forall_mem_cons, ih, and_iff_right hread]
  | element hspans h ih => rw [List.forall_mem_append, List.forall_mem_append, ih]

theorem openAfter_eq (h : Spaced ts es) (names : List Bytes) :
    Token.openAfter names ts = some names := by
  induction h with
  | nil => rfl
  | blanks hdata h ih => exact ih
  | element hspans h ih =>
    rw [Token.openAfter_append, hspans.openAfter_eq, Option.bind_some, ih]

/-- The blanks count for nothing outside of the elements with a text. -/
theorem performAll_eq (h : Spaced ts es) {b : Builder} {past : History} {names : List Bytes}
    (hb : b.Grounded) (ht : b.Tracks past) (hn : past.Nested)
    (hnames : past.openNames = names.map localName)
    (hcollected : (names.map localName).countP isCollected = 0) :
    b.performAll (ts.flatMap Token.calls) = b.performAll (es.flatMap Token.calls) := by
  induction h generalizing b past with
  | nil => rfl
  | @blanks data ts es hdata h ih =>
    obtain ⟨s, hs⟩ := exists_decode_of_blanks hdata
    have hcalls : (Token.text data).calls = [.text s] := by
      simp [Token.calls, hs, Except.toOption]
    have hpending := ht.pending_eq_none hnames hcollected
    have htext : b.text s = b := by
      rw [Builder.text, hpending, Option.map_none, ← hpending]
    rw [List.flatMap_cons, hcalls, List.singleton_append, Builder.performAll_cons,
      Builder.perform, htext, pure_bind, ih hb ht hn hnames]
  | element hspans h ih =>
    rw [List.flatMap_append, List.flatMap_append, Builder.performAll_append,
      Builder.performAll_append]
    refine Logged.bind_congr_of_ok fun b' hb' => ?_
    rw [Builder.result_performAll] at hb'
    -- Behind an element the same names are open as before it.
    obtain ⟨hn', hnames'⟩ :=
      History.nested_of_openAfter hn hnames (hspans.openAfter_eq names)
    exact ih (hb.applyAll hb') (ht.applyAll hb hn' hb') hn' hnames'

end Spaced

/-- In front of markup blanks are a text, if there are any. -/
theorem exists_gap {s u : Bytes} (hs : ∀ b ∈ s, isBlank b)
    (hu : ∀ b ∈ u.head?, Token.inText b = false) :
    ∃ gap, Cuts (s ++ u) gap u ∧ ∀ ts es, Spaced ts es → Spaced (gap ++ ts) es := by
  cases s with
  | nil => exact ⟨[], .nil u, fun _ _ h => h⟩
  | cons b s =>
    have htext : ∀ c ∈ b :: s, Token.inText c := by
      intro c hc
      have hcases := hs c hc
      simp only [isBlank, newline, Bool.or_eq_true, beq_iff_eq] at hcases
      rcases hcases with ((rfl | rfl) | rfl) | rfl <;> decide
    exact ⟨[.text (b :: s)], .cons (Token.scan_text (List.cons_ne_nil _ _) htext hu) (.nil u),
      fun ts es h => .blanks hs h⟩

/-- An element begins and ends with a tag, so it is cut out of every document in the same way. -/
theorem Token.Spans.cuts_append {tag bytes : Bytes} {inner element : List Token}
    (h : Spans tag inner element) (hlex : Token.lex bytes = (element, .complete)) (u : Bytes) :
    Cuts (bytes ++ u) element u ∧ bytes.head? = some (byte '<') := by
  have hcuts := Token.lex_eq_complete.1 hlex
  refine ⟨hcuts.append u fun t ht htext => ?_, ?_⟩
  · cases h with
    | tags hinner hname =>
      rw [← List.cons_append, List.getLast?_concat] at ht
      cases ht
      cases htext
    | empty =>
      cases ht
      cases htext
  · rw [hcuts.eq_append]
    cases h <;> rfl

/-- In front of markup the tokens of a fragment are its elements and the blanks between them. -/
theorem Fragment.exists_cuts {s u : Bytes} {es : List Token} (h : Fragment s es)
    (hu : ∀ b ∈ u.head?, Token.inText b = false) :
    ∃ ts, Cuts (s ++ u) ts u ∧ Spaced ts es := by
  induction h with
  | blanks hs =>
    obtain ⟨gap, hgap, hspaced⟩ := exists_gap hs hu
    exact ⟨gap ++ [], by simpa using hgap, hspaced _ _ .nil⟩
  | @cons blanks bytes rest tag inner element es hblanks hlex hspans hname hrest ih =>
    obtain ⟨ts, hts, hes⟩ := ih
    obtain ⟨helement, hhead⟩ := hspans.cuts_append hlex (rest ++ u)
    have hmarkup : ∀ b ∈ (bytes ++ (rest ++ u)).head?, Token.inText b = false := by
      rw [List.head?_append, hhead]
      rintro b ⟨⟩
      rfl
    obtain ⟨gap, hgap, hspaced⟩ := exists_gap hblanks hmarkup
    refine ⟨gap ++ (element ++ ts), ?_, hspaced _ _ (.element hspans hes)⟩
    rw [List.append_assoc, List.append_assoc]
    exact hgap.trans (helement.trans hts)

/-! ## Documents of a fragment -/

/-- The start tag of a protocol that has nothing but a name. -/
def protocolTag (name : String) : Bytes := Mark.tag .protocol [("name", name)]

theorem localName_protocolTag (name : String) :
    localName (Tag.name (protocolTag name)) = ascii Element.protocol.name := by
  rw [protocolTag, (Mark.tag_span .protocol _).1, Element.protocol.isPlain.localName]

/-- The tree of a protocol that has nothing but a name. -/
def Protocol.named (name : String) : Protocol := { name, uppercaseName := upperCase name }

namespace Builder

/-- The builder after the start tag of a protocol. -/
def begun (name : String) : Builder := { protocol := some (.named name) }

theorem perform_protocol (name : String) :
    perform {} (.start (protocolTag name)) = ⟨[.protocol name], .ok (begun name)⟩ := by
  have hname : IsPlain "name" := by decide
  have hnamed : Named [("name", name)] :=
    ⟨List.forall_mem_singleton.2 hname, List.nodup_singleton _⟩
  obtain ⟨as, has, hd⟩ := Protocol.declares (e := .protocol) hnamed rfl
  have he : Element.ofName? (localName (Tag.name (protocolTag name))) = some .protocol := by
    rw [localName_protocolTag, Element.ofName?_name]
  have hdeclare : (monadLift (Protocol.declare as) : Logged Notice SchemaError Protocol).result =
      .ok (.named name) := hd
  simp only [perform, start, he, startProtocol]
  rw [protocolTag, attributes_eq_ok.2 has, Logged.bind_of_ok rfl, Logged.bind_of_ok hdeclare]
  rfl

theorem grounded_begun (name : String) : (begun name).Grounded :=
  ⟨nofun, nofun, nofun, nofun, nofun, nofun⟩

theorem tracks_begun (name : String) : (begun name).Tracks [.start (protocolTag name)] := by
  have hstart : applyAll {} [.start (protocolTag name)] = .ok (begun name) := by
    rw [← result_performAll, performAll_cons, perform_protocol]
    rfl
  have hnested : History.Nested ([Call.start (protocolTag name)].reverse ++ []) := trivial
  exact tracks_empty.applyAll grounded_empty hnested hstart

theorem collected_begun (name : String) :
    ([Tag.name (protocolTag name)].map localName).countP isCollected = 0 := by
  rw [List.map_singleton, localName_protocolTag]
  decide

/-- The start of an interface depends on the tree and on the text that is collected. -/
theorem startInterface_congr {b b' : Builder} (hp : b.protocol = b'.protocol)
    (hc : b.pending = b'.pending) (tag : Bytes) : b.startInterface tag = b'.startInterface tag := by
  simp only [startInterface, currentProtocol, hp, hc]

/-- A fragment is read behind a tree as it is read alone. -/
theorem performAll_fragment {s : Bytes} {es : List Token} (h : Fragment s es) {b : Builder}
    {q : Protocol} (hp : b.protocol = some q) (hc : b.pending = none) (name : String) :
    Builder.protocol <$> b.performAll (es.flatMap Token.calls) =
      Option.map (·.behind q) <$> Builder.protocol <$>
        (begun name).performAll (es.flatMap Token.calls) := by
  have hbehind : (Protocol.named name).behind q = q := by
    simp [Protocol.behind, Protocol.named]
  cases h with
  | blanks hs => simp [begun, hp, hbehind]
  | @cons _ _ _ tag inner element es _ _ hspans hname _ =>
    have he : Element.ofName? (localName (Tag.name tag)) = some .interface := by
      rw [hname, Element.ofName?_name]
    -- The cursors of `b` are still in the last interface, but the first tag sets all of them.
    have hstart : b.perform (.start tag) = ((begun name).behind q).perform (.start tag) := by
      simp only [perform, start, he]
      exact startInterface_congr (by simp [hp, behind, begun, hbehind])
        (by simp [hc, behind, begun])
        tag
    rw [List.flatMap_append, hspans.calls_eq, List.cons_append, performAll_cons, hstart,
      ← performAll_cons, performAll_behind q (grounded_begun name) rfl, Functor.map_map,
      Functor.map_map]
    rfl

/-- After a fragment there is a tree and no text is collected. -/
theorem after_fragment {s : Bytes} {es : List Token} (h : Fragment s es) {name : String}
    {b : Builder} (hb : (begun name).applyAll (es.flatMap Token.calls) = .ok b) :
    (∃ p, b.protocol = some p) ∧ b.pending = none := by
  have hpast : History.Nested [.start (protocolTag name)] := trivial
  obtain ⟨hnested, hnames⟩ := History.nested_of_openAfter hpast rfl
    (h.spaced.openAfter_eq [Tag.name (protocolTag name)])
  have htracks := (tracks_begun name).applyAll (grounded_begun name) hnested hb
  have hprotocol : Element.ofName? (localName (Tag.name (protocolTag name))) = some .protocol := by
    rw [localName_protocolTag, Element.ofName?_name]
  refine ⟨Option.isSome_iff_exists.1 ?_, htracks.pending_eq_none hnames (collected_begun name)⟩
  simp [htracks.protocol, History.hasProtocol, Call.starts_start hprotocol]

/-- A fragment after another one is read as it is alone, behind the tree of the other. -/
theorem performAll_append_fragment {s₁ s₂ : Bytes} {es₁ es₂ : List Token} (h₁ : Fragment s₁ es₁)
    (h₂ : Fragment s₂ es₂) {name : String} {ns : List Notice} {p : Protocol} :
    Builder.protocol <$> (begun name).performAll ((es₁ ++ es₂).flatMap Token.calls) =
        ⟨ns, .ok (some p)⟩ ↔
      ∃ ns₁ p₁ ns₂ p₂,
        Builder.protocol <$> (begun name).performAll (es₁.flatMap Token.calls) =
          ⟨ns₁, .ok (some p₁)⟩ ∧
        Builder.protocol <$> (begun name).performAll (es₂.flatMap Token.calls) =
          ⟨ns₂, .ok (some p₂)⟩ ∧
        ns = ns₁ ++ ns₂ ∧ p = p₂.behind p₁ := by
  have hafter {b : Builder} {ns₁ : List Notice}
      (hb : (begun name).performAll (es₁.flatMap Token.calls) = ⟨ns₁, .ok b⟩) :=
    after_fragment h₁ (b := b) (by rw [← result_performAll, hb])
  rw [List.flatMap_append, performAll_append, map_bind, Logged.bind_eq_ok_iff]
  constructor
  · rintro ⟨ns₁, b, ns₂, hb, hrest, rfl⟩
    obtain ⟨⟨p₁, hp⟩, hc⟩ := hafter hb
    rw [performAll_fragment h₂ hp hc name, Logged.map_eq_ok_iff] at hrest
    obtain ⟨o, hrest, ho⟩ := hrest
    obtain ⟨p₂, rfl, rfl⟩ := Option.map_eq_some_iff.1 ho
    exact ⟨ns₁, p₁, ns₂, p₂, Logged.map_eq_ok_iff.2 ⟨b, hb, hp⟩, hrest, rfl, rfl⟩
  · rintro ⟨ns₁, p₁, ns₂, p₂, hfst, hsnd, rfl, rfl⟩
    obtain ⟨b, hb, hp⟩ := Logged.map_eq_ok_iff.1 hfst
    refine ⟨ns₁, b, ns₂, hb, ?_, rfl⟩
    rw [performAll_fragment h₂ hp (hafter hb).2 name, hsnd, Logged.map_mk]
    rfl

end Builder

/-- The tokens of a document of a fragment. -/
theorem exists_lex_documentOf (name : String) {s : Bytes} {es : List Token} (h : Fragment s es) :
    ∃ ts, Spaced ts es ∧ Token.lex (dropMark (documentOf name s)) =
      (.start (protocolTag name) :: (ts ++ [.close (ascii Element.protocol.name)]), .complete) := by
  have hbytes : documentOf name s = (Mark.start .protocol [("name", name)]).bytes ++
      (s ++ (Mark.close .protocol).bytes) := by
    simp [documentOf, Mark.bytes, Mark.tag, Mark.attributeBytes, Element.name, ascii]
  have hmarkup : ∀ b ∈ (Mark.close .protocol).bytes.head?, Token.inText b = false := by
    rintro b ⟨⟩
    rfl
  obtain ⟨ts, hts, hspaced⟩ := h.exists_cuts hmarkup
  have hname : IsPlain "name" := by decide
  have hplain : ∀ n ∈ (Mark.start .protocol [("name", name)]).names, IsPlain n :=
    List.forall_mem_singleton.2 hname
  have hclose := Mark.scan_bytes (m := .close .protocol) (List.forall_mem_nil _) []
  rw [List.append_nil] at hclose
  have hmark : dropMark (documentOf name s) = documentOf name s := rfl
  refine ⟨ts, hspaced, ?_⟩
  rw [hmark, Token.lex_eq_complete, hbytes]
  exact .cons (Mark.scan_bytes hplain _) (hts.trans (.cons hclose (.nil [])))

/-- A document of a fragment comes down to the calls of its elements. -/
theorem performAll_documentOf (name : String) {ts es : List Token} (h : Spaced ts es) :
    Builder.performAll {} ((Token.start (protocolTag name) ::
      (ts ++ [.close (ascii Element.protocol.name)])).flatMap Token.calls) =
      ⟨.protocol name :: ((Builder.begun name).performAll (es.flatMap Token.calls)).notices,
        ((Builder.begun name).performAll (es.flatMap Token.calls)).result⟩ := by
  have hstart := Builder.perform_protocol name
  have hspaced := h.performAll_eq (Builder.grounded_begun name) (Builder.tracks_begun name) trivial
    rfl (Builder.collected_begun name)
  have hclose (b : Builder) : b.performAll (Token.close (ascii Element.protocol.name)).calls =
      pure b := rfl
  rw [List.flatMap_cons, Token.calls, List.singleton_append, Builder.performAll_cons, hstart,
    Logged.bind_of_ok rfl, List.flatMap_append, Builder.performAll_append, hspaced]
  simp only [List.flatMap_singleton, hclose, bind_pure]
  rfl

/-- What has to be in order in a fragment for the document to be accepted. -/
theorem parse_documentOf {name : String} {s : Bytes} {es : List Token} (h : Fragment s es)
    {ns : List Notice} {p : Protocol} :
    parse (documentOf name s) = ⟨ns, .ok p⟩ ↔ (∀ t ∈ es, t.Readable) ∧
      ∃ ms, ns = .protocol name :: ms ∧
        Builder.protocol <$> (Builder.begun name).performAll (es.flatMap Token.calls) =
          ⟨ms, .ok (some p)⟩ := by
  obtain ⟨ts, hspaced, hlex⟩ := exists_lex_documentOf name h
  have hbalanced : Token.Balanced (.start (protocolTag name) ::
      (ts ++ [.close (ascii Element.protocol.name)])) := by
    have hname : Tag.endName (ascii Element.protocol.name) = Tag.name (protocolTag name) := by
      rw [Element.endName_name, protocolTag, (Mark.tag_span .protocol _).1]
    have hspans := hspaced.openAfter_eq [Tag.name (protocolTag name)]
    have hclose := Token.nest_close_eq_some.2 (congrArg (· :: []) hname.symm)
    rw [Token.Balanced, Token.openAfter_cons, Token.nest, Option.bind_some, Token.openAfter_append,
      hspans, Option.bind_some, Token.openAfter_cons, hclose]
    rfl
  have hread : (∀ t ∈ Token.start (protocolTag name) ::
      (ts ++ [.close (ascii Element.protocol.name)]), t.Readable) ↔ ∀ t ∈ es, t.Readable := by
    have hstart : (Token.start (protocolTag name)).Readable := trivial
    have hclose : (Token.close (ascii Element.protocol.name)).Readable := trivial
    rw [List.forall_mem_cons, List.forall_mem_append, List.forall_mem_singleton, hspaced.readable]
    tauto
  have hrun := performAll_documentOf name hspaced
  rw [parse_eq_iff]
  constructor
  · rintro ⟨_, hlex', -, hts, b, hb, hp⟩
    cases hlex.symm.trans hlex'
    rw [hrun, Logged.mk.injEq] at hb
    exact ⟨hread.1 hts, _, hb.1.symm,
      Logged.map_eq_ok_iff.2 ⟨b, Logged.eq_mk_iff.2 ⟨rfl, hb.2⟩, hp⟩⟩
  · rintro ⟨hes, ms, rfl, hb⟩
    obtain ⟨b, hb, hp⟩ := Logged.map_eq_ok_iff.1 hb
    exact ⟨_, hlex, hbalanced, hread.2 hes, b, by rw [hrun, hb], hp⟩

/-- The fragments of a document count one after the other: the second begins with nothing left of
the first but its tree. -/
theorem parse_documentOf_append_iff {name : String} {s₁ s₂ : Bytes} {es₁ es₂ : List Token}
    (h₁ : Fragment s₁ es₁) (h₂ : Fragment s₂ es₂) {ns : List Notice} {p : Protocol} :
    parse (documentOf name (s₁ ++ s₂)) = ⟨ns, .ok p⟩ ↔
      ∃ ns₁ p₁ ns₂ p₂, parse (documentOf name s₁) = ⟨ns₁, .ok p₁⟩ ∧
        parse (documentOf name s₂) = ⟨.protocol name :: ns₂, .ok p₂⟩ ∧
        ns = ns₁ ++ ns₂ ∧ p = p₂.behind p₁ := by
  rw [parse_documentOf (h₁.append h₂), List.forall_mem_append]
  simp only [parse_documentOf h₁, parse_documentOf h₂, Builder.performAll_append_fragment h₁ h₂]
  constructor
  · rintro ⟨⟨hread₁, hread₂⟩, _, rfl, ns₁, p₁, ns₂, p₂, hfst, hsnd, rfl, rfl⟩
    exact ⟨_, p₁, ns₂, p₂, ⟨hread₁, ns₁, rfl, hfst⟩, ⟨hread₂, ns₂, rfl, hsnd⟩, rfl, rfl⟩
  · rintro ⟨_, p₁, ns₂, p₂, ⟨hread₁, ns₁, rfl, hfst⟩, ⟨hread₂, _, h, hsnd⟩, rfl, rfl⟩
    cases h
    exact ⟨⟨hread₁, hread₂⟩, _, rfl, ns₁, p₁, ns₂, p₂, hfst, hsnd, rfl, rfl⟩

/-- The interfaces of a protocol are read on their own: a document of two fragments is accepted if
those of the fragments are, and its interfaces, its copyright and its notices come from theirs. -/
theorem parse_documentOf_append {name : String} {s₁ s₂ : Bytes} {es₁ es₂ : List Token}
    (h₁ : Fragment s₁ es₁) (h₂ : Fragment s₂ es₂) :
    ((∃ p, (parse (documentOf name (s₁ ++ s₂))).result = .ok p) ↔
      (∃ p₁, (parse (documentOf name s₁)).result = .ok p₁) ∧
        ∃ p₂, (parse (documentOf name s₂)).result = .ok p₂) ∧
    ∀ p₁ p₂, (parse (documentOf name s₁)).result = .ok p₁ →
      (parse (documentOf name s₂)).result = .ok p₂ →
      ∃ p ns₂, (parse (documentOf name (s₁ ++ s₂))).result = .ok p ∧
        p.interfaces = p₁.interfaces ++ p₂.interfaces ∧
        p.copyright = p₂.copyright.or p₁.copyright ∧
        (parse (documentOf name s₂)).notices = .protocol name :: ns₂ ∧
        (parse (documentOf name (s₁ ++ s₂))).notices =
          (parse (documentOf name s₁)).notices ++ ns₂ := by
  have hboth {p₁ p₂ : Protocol} (hp₁ : (parse (documentOf name s₁)).result = .ok p₁)
      (hp₂ : (parse (documentOf name s₂)).result = .ok p₂) :
      ∃ ns₂, (parse (documentOf name s₂)).notices = .protocol name :: ns₂ ∧
        parse (documentOf name (s₁ ++ s₂)) =
          ⟨(parse (documentOf name s₁)).notices ++ ns₂, .ok (p₂.behind p₁)⟩ := by
    have hparse₁ := Logged.eq_mk_iff.2 ⟨rfl, hp₁⟩
    have hparse₂ := Logged.eq_mk_iff.2 ⟨rfl, hp₂⟩
    obtain ⟨-, ns₂, hns₂, -⟩ := (parse_documentOf h₂).1 hparse₂
    rw [hns₂] at hparse₂
    exact ⟨ns₂, hns₂,
      (parse_documentOf_append_iff h₁ h₂).2 ⟨_, p₁, ns₂, p₂, hparse₁, hparse₂, rfl, rfl⟩⟩
  refine ⟨⟨?_, ?_⟩, fun p₁ p₂ hp₁ hp₂ => ?_⟩
  · rintro ⟨p, hp⟩
    obtain ⟨_, p₁, _, p₂, hparse₁, hparse₂, -⟩ :=
      (parse_documentOf_append_iff h₁ h₂).1 (Logged.eq_mk_iff.2 ⟨rfl, hp⟩)
    exact ⟨⟨p₁, by rw [hparse₁]⟩, p₂, by rw [hparse₂]⟩
  · rintro ⟨⟨p₁, hp₁⟩, p₂, hp₂⟩
    obtain ⟨ns₂, -, hparse⟩ := hboth hp₁ hp₂
    exact ⟨p₂.behind p₁, by rw [hparse]⟩
  · obtain ⟨ns₂, hns₂, hparse⟩ := hboth hp₁ hp₂
    exact ⟨p₂.behind p₁, ns₂, by rw [hparse], rfl, rfl, hns₂, by rw [hparse]⟩

/-- The first fragment leaves a request and a copyright behind. The second has a description where
the request could be described no more. -/
theorem parse_documentOf_append_of_request :
    let s₁ := ascii ("<interface name='a' version='2'><copyright>me</copyright>" ++
      "<request name='r' since='2'/></interface>") ++ ascii "\n"
    let s₂ := ascii ("<interface name='b' version='1'><other/><description summary='of b'/>" ++
      "</interface>")
    ∃ p, (parse (documentOf "p" (s₁ ++ s₂))).result = .ok p ∧
      p.interfaces.map Interface.name = ["a", "b"] ∧ p.copyright = some "me" := by
  intro s₁ s₂
  let inner₁ : List Token := [.start (ascii "copyright"), .text (ascii "me"),
    .close (ascii "copyright"), .empty (ascii "request name='r' since='2'")]
  let inner₂ : List Token := [.empty (ascii "other"),
    .empty (ascii "description summary='of b'")]
  let element₁ : List Token :=
    .start (ascii "interface name='a' version='2'") :: (inner₁ ++ [.close (ascii "interface")])
  let element₂ : List Token :=
    .start (ascii "interface name='b' version='1'") :: (inner₂ ++ [.close (ascii "interface")])
  have hspans₁ : Spans (ascii "interface name='a' version='2'") inner₁ element₁ :=
    .tags (by unfold Token.Balanced; decide +kernel) (by decide +kernel)
  have hspans₂ : Spans (ascii "interface name='b' version='1'") inner₂ element₂ :=
    .tags (by unfold Token.Balanced; decide +kernel) (by decide +kernel)
  have h₁ : Fragment s₁ (element₁ ++ []) :=
    (Fragment.element hspans₁ (by decide +kernel) (by decide +kernel)).append
      (.blanks (by decide +kernel))
  have h₂ : Fragment s₂ element₂ :=
    .element hspans₂ (by decide +kernel) (by decide +kernel)
  have hresult₁ : (parse (documentOf "p" s₁)).result.toOption.map
      (fun p => (p.interfaces.map Interface.name, p.copyright)) = some (["a"], some "me") := by
    decide +kernel
  have hresult₂ : (parse (documentOf "p" s₂)).result.toOption.map
      (fun p => (p.interfaces.map Interface.name, p.copyright)) = some (["b"], none) := by
    decide +kernel
  obtain ⟨p₁, hp₁, hparts₁⟩ := Option.map_eq_some_iff.1 hresult₁
  obtain ⟨p₂, hp₂, hparts₂⟩ := Option.map_eq_some_iff.1 hresult₂
  rw [toOption_eq_some] at hp₁ hp₂
  rw [Prod.mk.injEq] at hparts₁ hparts₂
  obtain ⟨p, ns₂, hp, hinterfaces, hcopyright, -⟩ :=
    (parse_documentOf_append h₁ h₂).2 p₁ p₂ hp₁ hp₂
  refine ⟨p, hp, ?_, ?_⟩
  · rw [hinterfaces, List.map_append, hparts₁.1, hparts₂.1]
    rfl
  · rw [hcopyright, hparts₁.2, hparts₂.2]
    rfl

end WaylandDoc
