import WaylandDoc.Proofs.Assembly
import WaylandDoc.Proofs.Grounded

/-!
# Round trip

A document of a valid protocol is accepted, and its tree is the protocol (`parse_written`). The
builder is followed from node to node: `inMessage` and its siblings are its states inside of a node,
and every written node takes the builder from one such state to the next.
-/

namespace WaylandDoc

/-! ## The last node of a list -/

theorem modify_concat {α : Type} (l : List α) (a : α) (f : α → α) :
    (l ++ [a]).modify l.length f = l ++ [f a] := by
  simp [List.modify_eq_take_drop]

namespace Protocol

variable (p : Protocol) (x : Interface)

@[simp] theorem interface?_last : (p.addInterface x).interface? p.interfaces.length = some x := by
  simp [interface?, addInterface]

@[simp] theorem modifyInterface_last (f : Interface → Interface) :
    (p.addInterface x).modifyInterface p.interfaces.length f = p.addInterface (f x) := by
  simp [modifyInterface, addInterface, modify_concat]

end Protocol

namespace Interface

variable (x : Interface) (kind : MessageKind) (m : Message) (e : Enum)

@[simp] theorem message?_last :
    ((x.addMessage kind m).messages kind)[(x.messages kind).length]? = some m := by
  simp [messages_addMessage]

theorem modifyMessages_last {f : Message → Message} (hf : (f m).since = m.since) :
    (x.addMessage kind m).modifyMessages kind (·.modify (x.messages kind).length f) =
      x.addMessage kind (f m) := by
  cases kind <;> simp [addMessage, modifyMessages, modify_concat, hf]

@[simp] theorem enum?_last : (x.addEnum e).enums[x.enums.length]? = some e := by simp [addEnum]

@[simp] theorem modifyEnums_last (f : Enum → Enum) :
    { x.addEnum e with enums := (x.addEnum e).enums.modify x.enums.length f } =
      x.addEnum (f e) := by
  simp [addEnum, modify_concat]

end Interface

namespace Protocol

variable (p : Protocol) (x : Interface) (kind : MessageKind) (m : Message) (e : Enum)

@[simp] theorem message?_last : (p.addInterface (x.addMessage kind m)).message? p.interfaces.length
    kind (x.messages kind).length = some m := by
  simp [message?]

theorem modifyMessage_last {f : Message → Message} (hf : (f m).since = m.since) :
    (p.addInterface (x.addMessage kind m)).modifyMessage p.interfaces.length kind
        (x.messages kind).length f = p.addInterface (x.addMessage kind (f m)) := by
  rw [modifyMessage, modifyInterface_last, x.modifyMessages_last kind m hf]

@[simp] theorem enum?_last :
    (p.addInterface (x.addEnum e)).enum? p.interfaces.length x.enums.length = some e := by
  simp [enum?]

@[simp] theorem modifyEnum_last (f : Enum → Enum) :
    (p.addInterface (x.addEnum e)).modifyEnum p.interfaces.length x.enums.length f =
      p.addInterface (x.addEnum (f e)) := by
  rw [modifyEnum, modifyInterface_last, Interface.modifyEnums_last]

end Protocol

theorem Message.modifyArgs_last (m : Message) (a : Arg) {f : Arg → Arg} (hf : (f a).type = a.type) :
    { m.addArg a with args := (m.addArg a).args.modify m.args.length f } = m.addArg (f a) := by
  simp [addArg, modify_concat, hf]

theorem Enum.modifyEntries_last (e : Enum) (n : Entry) (f : Entry → Entry) :
    { e.addEntry n with entries := (e.addEntry n).entries.modify e.entries.length f } =
      e.addEntry (f n) := by
  simp [addEntry, modify_concat]

/-! ## Builders inside of a node -/

namespace Builder

/-- Inside of an interface, the last one. -/
def inInterface (p : Protocol) (x : Interface) : Builder :=
  { protocol := some (p.addInterface x), interface := some p.interfaces.length }

def inMessage (p : Protocol) (x : Interface) (kind : MessageKind) (m : Message) : Builder :=
  { inInterface p (x.addMessage kind m) with message := some (kind, (x.messages kind).length) }

def inArg (p : Protocol) (x : Interface) (kind : MessageKind) (m : Message) (a : Arg) : Builder :=
  { inMessage p x kind (m.addArg a) with arg := some m.args.length }

def inEnum (p : Protocol) (x : Interface) (e : Enum) : Builder :=
  { inInterface p (x.addEnum e) with enum := some x.enums.length }

def inEntry (p : Protocol) (x : Interface) (e : Enum) (n : Entry) : Builder :=
  { inEnum p x (e.addEntry n) with entry := some e.entries.length }

variable {b b₁ b₂ b₃ : Builder} {e : Element} {as : List (String × String)} {text : String}
  {inner ps : List Piece}

theorem text_of_pending (h : b.pending = none) (s : String) : b.text s = b := by
  obtain ⟨protocol, interface, message, arg, enum, entry, pending⟩ := b
  cases h
  rfl

/-- An element does what its start tag, what is inside and its end tag do. -/
theorem applyAll_encloses (h : e.Encloses as text inner ps) (hstart : b.Starts (Mark.tag e as) e b₁)
    (hinner : (b₁.text text).applyAll (inner.flatMap Piece.calls) = .ok b₂)
    (hclose : b₂.close (ascii e.name) = .ok b₃) (hpending : b₃.pending = none) :
    b.applyAll (ps.flatMap Piece.calls) = .ok b₃ := by
  have hname : localName (Tag.name (Mark.tag e as)) = ascii e.name := by
    rw [(Mark.tag_span e as).1, e.isPlain.localName]
  have hend : localName (Tag.endName (ascii e.name)) = ascii e.name := by
    rw [e.endName_name, e.isPlain.localName]
  have hstart : b.apply (.start (Mark.tag e as)) = .ok b₁ :=
    hstart.start (by rw [hname, e.ofName?_name])
  have hafter (after : String) :
      b₂.applyAll [.close (ascii e.name), .text after] = .ok b₃ := by
    refine applyAll_cons_eq_ok.2 ⟨b₃, hclose, applyAll_cons_eq_ok.2 ⟨b₃, ?_, rfl⟩⟩
    rw [apply, text_of_pending hpending]
  cases h with
  | tags text inner after =>
    have hcalls : ((⟨.start e as, text⟩ : Piece) :: inner ++
          [(⟨.close e, after⟩ : Piece)]).flatMap Piece.calls =
        .start (Mark.tag e as) :: .text text ::
          (inner.flatMap Piece.calls ++ [.close (ascii e.name), .text after]) := by
      simp [Piece.calls, Mark.token, Token.calls, hend]
    rw [hcalls]
    refine applyAll_cons_eq_ok.2 ⟨b₁, hstart, applyAll_cons_eq_ok.2 ⟨_, rfl, ?_⟩⟩
    exact applyAll_append_eq_ok.2 ⟨b₂, hinner, hafter after⟩
  | empty after =>
    have hcalls : [(⟨.empty e as, after⟩ : Piece)].flatMap Piece.calls =
        [.start (Mark.tag e as), .close (ascii e.name), .text after] := by
      simp [Piece.calls, Mark.token, Token.calls, hname]
    rw [text_empty] at hinner
    cases hinner
    rw [hcalls]
    exact applyAll_cons_eq_ok.2 ⟨b₁, hstart, hafter after⟩

/-- An element that is there for what is inside ignores its own text. -/
theorem applyAll_contains (h : e.Encloses as text inner ps) (hstart : b.Starts (Mark.tag e as) e b₁)
    (hb₁ : b₁.pending = none) (hinner : b₁.applyAll (inner.flatMap Piece.calls) = .ok b₂)
    (hclose : b₂.close (ascii e.name) = .ok b₃) (hpending : b₃.pending = none) :
    b.applyAll (ps.flatMap Piece.calls) = .ok b₃ := by
  refine applyAll_encloses h hstart ?_ hclose hpending
  rwa [text_of_pending hb₁]

section Collected

variable {p : Protocol} {place : Place} {d : Description}

/-- The end tag of an element that collected text stores the text. -/
theorem close_collected (purpose : Purpose) (text : String) (hp : b.protocol = some p)
    (hpending : b.pending = none) (hhas : p.has purpose.place) :
    (({ b with pending := some { purpose } } : Builder).text text).close
        (ascii purpose.element.name) =
      .ok { b with protocol := some (store ⟨purpose, text⟩ p) } := by
  obtain ⟨protocol, interface, message, arg, enum, entry, pending⟩ := b
  cases hpending
  cases hp
  rw [close, Element.ofName?_name]
  cases purpose with
  | copyright =>
    simp [Purpose.element, Builder.text, finishText, store, currentProtocol, bind, Except.bind,
      pure, Except.pure]
  | description place summary =>
    have hhas : p.has place := hhas
    simp [Purpose.element, Builder.text, finishText, store, hhas, currentProtocol, bind,
      Except.bind, pure, Except.pure]

theorem applyAll_description (hd : d.Written ps) (hp : b.protocol = some p)
    (hpending : b.pending = none) (hplace : b.descriptionPlace = .ok place) (hhas : p.has place) :
    b.applyAll (ps.flatMap Piece.calls) =
      .ok { b with protocol := some (p.describe d place) } := by
  obtain ⟨as, has, hsummary, h⟩ := hd
  have hdeclares : Declares Description.declareSummary (Mark.tag .description as) d.summary :=
    Description.declares has hsummary
  exact applyAll_encloses h (.description hdeclares hpending hplace) rfl
    (close_collected (.description place d.summary) d.body hp hpending hhas) hpending

theorem applyAll_copyright {s : String} (hs : WrittenCopyright s ps) (hp : b.protocol = some p)
    (hpending : b.pending = none) :
    b.applyAll (ps.flatMap Piece.calls) =
      .ok { b with protocol := some { p with copyright := some s } } := by
  obtain ⟨as, has, -, h⟩ := hs
  exact applyAll_encloses h (.copyright hp hpending) rfl
    (close_collected .copyright s hp hpending rfl) hpending

end Collected

/-! ## Nodes -/

/-- Nodes one after another, each of which makes a step. -/
theorem applyAll_listed {α β : Type} {Written : α → List Piece → Prop} {xs : List α}
    {ps : List Piece} {f : β → Builder} {g : β → α → β} (h : Listed Written xs ps)
    (hstep : ∀ x ∈ xs, ∀ y qs, Written x qs →
      (f y).applyAll (qs.flatMap Piece.calls) = .ok (f (g y x))) (y : β) :
    (f y).applyAll (ps.flatMap Piece.calls) = .ok (f (xs.foldl g y)) := by
  induction h generalizing y with
  | nil => rfl
  | @cons x xs qs rs hx _ ih =>
    rw [List.forall_mem_cons] at hstep
    rw [List.flatMap_append, applyAll_append_eq_ok]
    exact ⟨_, hstep.1 y qs hx, ih hstep.2 _⟩

section Steps

variable {p : Protocol} {x : Interface} {kind : MessageKind} {m : Message} {a : Arg} {e : Enum}
  {n : Entry} {d : Description} {ps : List Piece}

/-! ### Messages -/

theorem applyAll_argDescription (hd : d.Written ps) :
    (inArg p x kind m a).applyAll (ps.flatMap Piece.calls) =
      .ok (inArg p x kind m (a.describe d)) := by
  have hhas : (p.addInterface (x.addMessage kind (m.addArg a))).has
      (.arg p.interfaces.length kind (x.messages kind).length m.args.length) := by
    simp [Protocol.has, Protocol.arg?, Message.addArg]
  rw [applyAll_description hd rfl rfl rfl hhas, Protocol.describe, Protocol.modifyArg,
    p.modifyMessage_last x kind _ rfl, m.modifyArgs_last a rfl]
  rfl

theorem applyAll_arg (ha : a.Valid) (h : a.Written ps) :
    (inMessage p x kind m).applyAll (ps.flatMap Piece.calls) =
      .ok (inMessage p x kind (m.addArg a)) := by
  obtain ⟨inner, hinner, as, text, has, hgiven, h⟩ := h
  have hstart :
      (inMessage p x kind m).Starts (Mark.tag .arg as) .arg (inArg p x kind m a.bare) := by
    have hstart := Starts.arg (b := inMessage p x kind m) (Arg.declares (e := .arg) ha has hgiven)
      rfl rfl rfl (p.message?_last x kind m)
    rwa [p.modifyMessage_last x kind m rfl] at hstart
  have hinner := applyAll_listed (f := inArg p x kind m) hinner
    (fun d _ a qs hd => applyAll_argDescription hd) a.bare
  rw [a.foldl_describe] at hinner
  exact applyAll_contains h hstart rfl hinner rfl rfl

theorem applyAll_messageDescription (hd : d.Written ps) :
    (inMessage p x kind m).applyAll (ps.flatMap Piece.calls) =
      .ok (inMessage p x kind (m.addChild (.description d))) := by
  have hhas : (p.addInterface (x.addMessage kind m)).has
      (.message p.interfaces.length kind (x.messages kind).length) := by
    simp [Protocol.has]
  rw [applyAll_description hd rfl rfl rfl hhas, Protocol.describe,
    p.modifyMessage_last x kind m rfl]
  rfl

theorem applyAll_message (hm : m.Valid) (h : m.Written kind ps) :
    (inInterface p x).applyAll (ps.flatMap Piece.calls) =
      .ok (inInterface p (x.addMessage kind m)) := by
  obtain ⟨children, inner, hchildren, hinner, as, text, has, hgiven, h⟩ := h
  have hstart : (inInterface p x).Starts (Mark.tag kind.element as) kind.element
      (inMessage p x kind m.bare) := by
    have hdeclares : Declares (Message.declare kind) (Mark.tag kind.element as) m.bare :=
      Message.declares hm has hgiven
    have hstart := Starts.message (b := inInterface p x) rfl hdeclares rfl rfl (p.interface?_last x)
    rwa [p.modifyInterface_last] at hstart
  have hinner := applyAll_listed (f := inMessage p x kind) (g := Message.addChild) hinner
    (fun c hc m' qs hq => by
      cases c with
      | description d => exact applyAll_messageDescription hq
      | node a => exact applyAll_arg (hm.args a (hchildren.args ▸ mem_nodesOf.2 hc)) hq) m.bare
  rw [hchildren.foldl hm] at hinner
  refine applyAll_contains h hstart rfl hinner ?_ rfl
  cases kind <;> rfl

/-! ### Enums -/

theorem applyAll_entryDescription (hd : d.Written ps) :
    (inEntry p x e n).applyAll (ps.flatMap Piece.calls) =
      .ok (inEntry p x e (n.describe d)) := by
  have hhas : (p.addInterface (x.addEnum (e.addEntry n))).has
      (.entry p.interfaces.length x.enums.length e.entries.length) := by
    simp [Protocol.has, Protocol.entry?, Enum.addEntry]
  rw [applyAll_description hd rfl rfl rfl hhas, Protocol.describe, Protocol.modifyEntry,
    p.modifyEnum_last, e.modifyEntries_last]
  rfl

theorem applyAll_entry (hn : n.Valid) (h : n.Written ps) :
    (inEnum p x e).applyAll (ps.flatMap Piece.calls) = .ok (inEnum p x (e.addEntry n)) := by
  obtain ⟨inner, hinner, as, text, has, hgiven, h⟩ := h
  have hstart : (inEnum p x e).Starts (Mark.tag .entry as) .entry (inEntry p x e n.bare) := by
    have hstart := Starts.entry (b := inEnum p x e) (Entry.declares (e := .entry) hn has hgiven)
      rfl rfl rfl (p.enum?_last x e)
    rwa [p.modifyEnum_last] at hstart
  have hinner := applyAll_listed (f := inEntry p x e) hinner
    (fun d _ n qs hd => applyAll_entryDescription hd) n.bare
  rw [n.foldl_describe] at hinner
  exact applyAll_contains h hstart rfl hinner rfl rfl

theorem applyAll_enumDescription (hd : d.Written ps) :
    (inEnum p x e).applyAll (ps.flatMap Piece.calls) =
      .ok (inEnum p x (e.addChild (.description d))) := by
  have hhas : (p.addInterface (x.addEnum e)).has (.enum p.interfaces.length x.enums.length) := by
    simp [Protocol.has]
  rw [applyAll_description hd rfl rfl rfl hhas, Protocol.describe, p.modifyEnum_last]
  rfl

theorem applyAll_enum (he : e.Valid) (h : e.Written ps) :
    (inInterface p x).applyAll (ps.flatMap Piece.calls) = .ok (inInterface p (x.addEnum e)) := by
  obtain ⟨children, inner, hchildren, hinner, as, text, has, hgiven, h⟩ := h
  have hstart : (inInterface p x).Starts (Mark.tag .enum as) .enum (inEnum p x e.bare) := by
    have hstart := Starts.enum (b := inInterface p x) (Enum.declares (e := .enum) he has hgiven)
      rfl rfl (p.interface?_last x)
    rwa [p.modifyInterface_last] at hstart
  have hinner := applyAll_listed (f := inEnum p x) (g := Enum.addChild) hinner
    (fun c hc e' qs hq => by
      cases c with
      | description d => exact applyAll_enumDescription hq
      | node n => exact applyAll_entry (he.entries n (hchildren.entries ▸ mem_nodesOf.2 hc)) hq)
    e.bare
  rw [hchildren.foldl] at hinner
  exact applyAll_contains h hstart rfl hinner rfl rfl

/-! ### Interfaces -/

theorem applyAll_interfaceDescription (hd : d.Written ps) :
    (inInterface p x).applyAll (ps.flatMap Piece.calls) =
      .ok (inInterface p (x.addChild (.description d))) := by
  have hhas : (p.addInterface x).has (.interface p.interfaces.length) := by
    simp [Protocol.has]
  rw [applyAll_description hd rfl rfl rfl hhas, Protocol.describe, p.modifyInterface_last]
  rfl

/-- What came before matters only for the protocol. -/
theorem applyAll_interface {b : Builder} (hb : b.protocol = some p) (hpending : b.pending = none)
    (hx : x.Valid) (h : x.Written ps) :
    b.applyAll (ps.flatMap Piece.calls) = .ok (inInterface p x) := by
  obtain ⟨children, inner, hchildren, hinner, as, text, has, hgiven, h⟩ := h
  have hstart : b.Starts (Mark.tag .interface as) .interface (inInterface p x.bare) := by
    have hstart := Starts.interface (Interface.declares (e := .interface) hx has hgiven) hb
    rwa [hpending] at hstart
  have hinner := applyAll_listed (f := inInterface p) (g := Interface.addChild) hinner
    (fun c hc y qs hq => by
      cases c with
      | description d => exact applyAll_interfaceDescription hq
      | node z =>
        have hz := mem_nodesOf.2 hc
        cases z with
        | message kind m =>
          exact applyAll_message (hx.messages kind m (hchildren.mem_messages hz)) hq
        | enum e => exact applyAll_enum (hx.enums e (hchildren.mem_enums hz)) hq) x.bare
  rw [hchildren.foldl] at hinner
  exact applyAll_contains h hstart rfl hinner rfl rfl

theorem applyAll_interfaces {b : Builder} {xs : List Interface} (hb : b.protocol = some p)
    (hpending : b.pending = none) (hxs : ∀ x ∈ xs, x.Valid) (h : Listed Interface.Written xs ps) :
    ∃ b', b.applyAll (ps.flatMap Piece.calls) = .ok b' ∧ b'.pending = none ∧
      b'.protocol = some { p with interfaces := p.interfaces ++ xs } := by
  induction h generalizing b p with
  | nil => exact ⟨b, rfl, hpending, by simp [hb]⟩
  | @cons x xs qs rs hx _ ih =>
    rw [List.forall_mem_cons] at hxs
    have hfirst := applyAll_interface hb hpending hxs.1 hx
    obtain ⟨b', hb', hpending', hp'⟩ := ih (b := inInterface p x) rfl rfl hxs.2
    refine ⟨b', ?_, hpending', ?_⟩
    · rw [List.flatMap_append, applyAll_append_eq_ok]
      exact ⟨_, hfirst, hb'⟩
    · simpa [Protocol.addInterface] using hp'

end Steps

end Builder

/-- What comes before the interfaces. -/
theorem Builder.applyAll_lead {children : List (Child String)} {ps : List Piece}
    (h : Listed (Child.Written WrittenCopyright) children ps) (p : Protocol) :
    applyAll { protocol := some p } (ps.flatMap Piece.calls) =
      .ok { protocol := some (children.foldl Protocol.addChild p) } := by
  refine applyAll_listed (f := fun p => { protocol := some p }) h (fun c _ p qs hq => ?_) p
  cases c with
  | description d => exact applyAll_description hq rfl rfl rfl (rfl : p.has .protocol)
  | node text => exact applyAll_copyright hq rfl rfl

/-- A document of a valid protocol is accepted, and its tree is the protocol. -/
theorem parse_written {p : Protocol} {ps : List Piece} (hp : p.Valid) (h : p.Written ps) :
    (parse (ps.flatMap Piece.bytes)).result = .ok p := by
  have hsound := h.sound
  obtain ⟨children, lead, inner, hchildren, hlead, hinner, as, text, has, hname, h⟩ := h
  have hstart : Builder.Starts {} (Mark.tag .protocol as) .protocol
      { protocol := some { name := p.name, uppercaseName := p.uppercaseName } } := by
    rw [hp.uppercaseName.eq]
    exact .protocol (Protocol.declares has hname) rfl
  have hlead := Builder.applyAll_lead hlead { name := p.name, uppercaseName := p.uppercaseName }
  rw [hchildren.foldl] at hlead
  obtain ⟨b, hb, hpending, hprotocol⟩ :=
    Builder.applyAll_interfaces (p := { p with interfaces := [] })
      (b := { protocol := some { p with interfaces := [] } }) rfl rfl hp.interfaces hinner
  have hinner : Builder.applyAll
      { protocol := some { name := p.name, uppercaseName := p.uppercaseName } }
      ((lead ++ inner).flatMap Piece.calls) = .ok b := by
    rw [List.flatMap_append, Builder.applyAll_append_eq_ok]
    exact ⟨_, hlead, hb⟩
  have hclose : b.close (ascii Element.protocol.name) = .ok b := by
    rw [Builder.close, Element.ofName?_name]
  have hdocument := Builder.applyAll_contains h hstart rfl hinner hclose hpending
  exact parse_pieces hsound.plain (hsound.openAfter []) hdocument hprotocol

/-- References in text and in a value, empty tags, and a description after its sibling. -/
theorem parse_written_small :
    let x : Arg := { name := "x", type := .fd }
    let r : Message := {
      name := "r", uppercaseName := "R", since := 2, description := some ⟨"<s>", ""⟩, args := [x] }
    let i : Interface := {
      name := "i", uppercaseName := "I", version := 1, since := 2, requests := [r] }
    let p : Protocol := {
      name := "p", uppercaseName := "P", copyright := some "a & b", interfaces := [i] }
    (parse (ascii ("<protocol name=\"p\"><copyright>a &amp; b</copyright>" ++
      "<interface version=\"1\" name=\"i\"><request since=\"2\" name=\"r\">" ++
      "<arg name=\"x\" type=\"fd\"/><description summary=\"&lt;s&gt;\"/></request></interface>" ++
      "</protocol>"))).result = .ok p := by
  intro x r i p
  have hx : x.Written _ :=
    ⟨[], .nil, [("name", "x"), ("type", "fd")], "", ⟨by decide, by decide⟩,
      ⟨rfl, rfl, rfl, rfl, rfl, rfl⟩, .empty ""⟩
  have hdescription : Description.Written ⟨"<s>", ""⟩ _ :=
    ⟨[("summary", "<s>")], ⟨by decide, by decide⟩, rfl, .empty ""⟩
  have hr : r.Written .request _ :=
    ⟨[.node x, .description _], _, ⟨rfl, rfl⟩, .cons hx (.cons hdescription .nil),
      [("since", "2"), ("name", "r")], "", ⟨by decide, by decide⟩,
      ⟨rfl, rfl, .inl (by simp only [r]; rfl), rfl⟩, .tags "" _ ""⟩
  have hi : i.Written _ :=
    ⟨[.node (.message .request r)], _, ⟨rfl, fun kind => by cases kind <;> rfl, rfl, rfl⟩,
      .cons hr .nil, [("version", "1"), ("name", "i")], "", ⟨by decide, by decide⟩,
      ⟨rfl, by simp only [i]; rfl⟩, .tags "" _ ""⟩
  have hcopyright : WrittenCopyright "a & b" _ :=
    ⟨[], ⟨nofun, .nil⟩, trivial, .tags "a & b" [] ""⟩
  have hp : p.Written _ :=
    ⟨[.node "a & b"], _, _, ⟨rfl, rfl⟩, .cons hcopyright .nil, .cons hi .nil,
      [("name", "p")], "", ⟨by decide, by decide⟩, rfl, .tags "" _ ""⟩
  have hx : x.Valid := ⟨nofun, nofun⟩
  have hr : r.Valid := ⟨by decide, by decide, by decide, by simpa [r] using hx⟩
  have hmessages (kind : MessageKind) : ∀ m ∈ i.messages kind, m.Valid := by
    cases kind
    · simpa [i] using hr
    · exact nofun
  have hi : i.Valid := ⟨by decide, by decide, hmessages, nofun⟩
  have hvalid : p.Valid := ⟨by decide, by simpa [p] using hi⟩
  refine .trans (congrArg (fun s => (parse s).result) ?_) (parse_written hvalid hp)
  decide +kernel

end WaylandDoc
