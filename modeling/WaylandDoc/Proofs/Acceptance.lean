import WaylandDoc.Proofs.Attributes
import WaylandDoc.Proofs.Numerals
import WaylandDoc.Proofs.Outline

/-!
# Accepted documents

Which documents are protocol descriptions. What a start tag has to be like is said for each element
by two rules: `Admits` for the values that its attributes give and `Fits` for what came before it.
A document whose tokens can be cut out and whose tags are balanced is accepted if its character data
can be decoded, it has one protocol and every start tag keeps both rules (`exists_parse_iff`).
-/

namespace WaylandDoc

open Attribute (find? Spelled Decodes Raw)
open Numeral (Denotes)

namespace Element

/-- What the attributes have to give; `given` looks up the last value under a local name. -/
def Admits (given : String → Option String) : Element → Prop
  | protocol => ∃ name, given "name" = some name
  | copyright => True
  | interface =>
    (∃ name, given "name" = some name) ∧
      ∃ text version, given "version" = some text ∧ Denotes text version ∧ version ≠ 0
  | request | event =>
    (∃ name, given "name" = some name ∧
      (name = "destroy" → given "type" = some "destructor")) ∧
      (∀ text ∈ given "since", ∃ version, Denotes text version) ∧
      ∀ text ∈ given "deprecated-since", ∃ version, Denotes text version
  | arg =>
    (∃ name, given "name" = some name) ∧
      ∃ type : ArgType, given "type" = some type.name ∧
        ((given "interface").isSome → type = .object ∨ type = .newId) ∧
        ∀ text ∈ given "allow-null",
          (type = .string ∨ type = .object ∨ type = .newId ∨ type = .array) ∧
            (text = "true" ∨ text = "false")
  | enum =>
    (∃ name, given "name" = some name) ∧
      (∀ text ∈ given "since", ∃ version, Denotes text version) ∧
      ∀ text ∈ given "bitfield", text = "true" ∨ text = "false"
  | entry =>
    (∃ name, given "name" = some name) ∧
      ∀ text ∈ given "since", ∃ version, Denotes text version
  | description => ∃ summary, given "summary" = some summary

/-- Where the element may start. -/
def Fits (past : History) : Element → Prop
  | protocol => True
  | copyright => past.hasProtocol ∧ past.collecting = false
  | interface => past.hasProtocol
  | request | event | enum => past.hasInterface
  | arg => past.hasMessage
  | entry => past.hasEnum
  | description => past.hasProtocol ∧ past.collecting = false

end Element

/-- The start tag keeps the rules of its element. The attributes of a copyright do not matter. -/
structure Opening.Allowed (o : Opening) (past : History) : Prop where
  attributes : o.element ≠ .copyright → ∃ raws attributes,
    Spelled (o.tag.dropWhile (!isBlank ·)) raws ∧ (raws.map Raw.name).Nodup ∧
      List.Forall₂ Decodes raws attributes ∧ o.element.Admits (find? attributes)
  place : o.element.Fits past

/-! ## Attributes -/

theorem exists_isVersion {given : Option String} :
    (∃ version, IsVersion given version) ↔ ∀ text ∈ given, ∃ version, Denotes text version := by
  cases given with
  | none => simp [IsVersion]
  | some text => simp [IsVersion, Numeral.read_decimal_eq_ok]

theorem exists_isBool {given : Option String} :
    (∃ b, IsBool given b) ↔ ∀ text ∈ given, text = "true" ∨ text = "false" := by
  cases given with
  | none => simp [IsBool]
  | some text => simp [IsBool, or_comm]

section Declare

variable {as : List Attribute}

theorem Protocol.exists_declare :
    (∃ p, Protocol.declare as = .ok p) ↔ Element.protocol.Admits (find? as) := by
  simp [Protocol.declare_eq_ok, Element.Admits]

theorem Interface.exists_declare :
    (∃ x, Interface.declare as = .ok x) ↔ Element.interface.Admits (find? as) := by
  simp only [Interface.declare_eq_ok, Numeral.read_decimal_eq_ok, Element.Admits]
  constructor
  · rintro ⟨x, name, text, version, hn, ht, hv, h0, -⟩
    exact ⟨⟨name, hn⟩, text, version, ht, hv, h0⟩
  · rintro ⟨⟨name, hn⟩, text, version, ht, hv, h0⟩
    exact ⟨_, name, text, version, hn, ht, hv, h0, rfl⟩

theorem Message.exists_declare {kind : MessageKind} :
    (∃ m, Message.declare kind as = .ok m) ↔ kind.element.Admits (find? as) := by
  have hadmits : kind.element.Admits (find? as) ↔ Element.request.Admits (find? as) := by
    cases kind <;> rfl
  rw [hadmits]
  simp only [Message.declare_eq_ok, isDestructor_eq_true, Element.Admits, ← exists_isVersion]
  constructor
  · rintro ⟨m, name, since, deprecatedSince, hn, hd, hs, hds, -⟩
    exact ⟨⟨name, hn, hd⟩, ⟨since, hs⟩, deprecatedSince, hds⟩
  · rintro ⟨⟨name, hn, hd⟩, ⟨since, hs⟩, deprecatedSince, hds⟩
    exact ⟨_, name, since, deprecatedSince, hn, hd, hs, hds, rfl⟩

theorem Arg.exists_declare : (∃ a, Arg.declare as = .ok a) ↔ Element.arg.Admits (find? as) := by
  simp only [Arg.declare_eq_ok, Element.Admits, ArgType.hasInterface_iff, ArgType.isNullable_iff]
  constructor
  · rintro ⟨a, name, type, nullable, hn, ht, hi, hb, hnull, -⟩
    refine ⟨⟨name, hn⟩, type, ht, hi, fun text htext => ⟨hnull ?_, ?_⟩⟩
    · rw [Option.mem_def.1 htext]
      rfl
    · exact exists_isBool.1 ⟨nullable, hb⟩ text htext
  · rintro ⟨⟨name, hn⟩, type, ht, hi, hnull⟩
    obtain ⟨nullable, hb⟩ := exists_isBool.2 fun text htext => (hnull text htext).2
    refine ⟨_, name, type, nullable, hn, ht, hi, hb, fun hsome => ?_, rfl⟩
    obtain ⟨text, htext⟩ := Option.isSome_iff_exists.1 hsome
    exact (hnull text htext).1

theorem Enum.exists_declare : (∃ e, Enum.declare as = .ok e) ↔ Element.enum.Admits (find? as) := by
  simp only [Enum.declare_eq_ok, Element.Admits, ← exists_isVersion, ← exists_isBool]
  constructor
  · rintro ⟨e, name, since, bitfield, hn, hs, hb, -⟩
    exact ⟨⟨name, hn⟩, ⟨since, hs⟩, bitfield, hb⟩
  · rintro ⟨⟨name, hn⟩, ⟨since, hs⟩, bitfield, hb⟩
    exact ⟨_, name, since, bitfield, hn, hs, hb, rfl⟩

theorem Entry.exists_declare :
    (∃ n, Entry.declare as = .ok n) ↔ Element.entry.Admits (find? as) := by
  simp only [Entry.declare_eq_ok, Element.Admits, ← exists_isVersion]
  constructor
  · rintro ⟨n, name, since, hn, hs, -⟩
    exact ⟨⟨name, hn⟩, since, hs⟩
  · rintro ⟨⟨name, hn⟩, since, hs⟩
    exact ⟨_, name, since, hn, hs, rfl⟩

theorem Description.exists_declare :
    (∃ s, Description.declareSummary as = .ok s) ↔ Element.description.Admits (find? as) := by
  simp [Description.declareSummary, required_eq_ok, Element.Admits]

end Declare

/-- The attributes of a tag are read before they declare a node. -/
theorem exists_declares {α : Type} {declare : List Attribute → Except SchemaError α} {e : Element}
    (h : ∀ {as}, (∃ x, declare as = .ok x) ↔ e.Admits (find? as)) {tag : Bytes} :
    (∃ x, Declares declare tag x) ↔ ∃ raws attributes,
      Spelled (tag.dropWhile (!isBlank ·)) raws ∧ (raws.map Raw.name).Nodup ∧
        List.Forall₂ Decodes raws attributes ∧ e.Admits (find? attributes) := by
  simp only [Declares, Attribute.ofTag_eq_ok, ← h]
  constructor
  · rintro ⟨x, as, ⟨raws, hs, hnodup, has⟩, hx⟩
    exact ⟨raws, as, hs, hnodup, has, x, hx⟩
  · rintro ⟨raws, as, hs, hnodup, has, x, hx⟩
    exact ⟨x, as, ⟨raws, hs, hnodup, has⟩, hx⟩

/-! ## Places -/

namespace Builder

variable {b b' : Builder} {past : History}

theorem Tracks.hasProtocol_iff (ht : b.Tracks past) :
    past.hasProtocol ↔ ∃ p, b.protocol = some p := by
  rw [← ht.protocol, Option.isSome_iff_exists]

theorem Tracks.hasInterface_iff (ht : b.Tracks past) (hb : b.Grounded) :
    past.hasInterface ↔
      ∃ p i x, b.protocol = some p ∧ b.interface = some i ∧ p.interface? i = some x := by
  have hi := ht.interface
  constructor
  · intro h
    rw [if_pos h] at hi
    obtain ⟨p, hp, hhas⟩ := hb.interface hi
    obtain ⟨x, hx⟩ := Option.isSome_iff_exists.1 hhas
    exact ⟨p, _, x, hp, hi, hx⟩
  · rintro ⟨p, i, x, hp, hi', hx⟩
    by_contra h
    rw [if_neg h, hi'] at hi
    cases hi

theorem Tracks.hasMessage_iff (ht : b.Tracks past) (hb : b.Grounded) :
    past.hasMessage ↔ ∃ p i kind m x, b.protocol = some p ∧ b.interface = some i ∧
      b.message = some (kind, m) ∧ p.message? i kind m = some x := by
  have hm := ht.message
  constructor
  · intro h
    rw [if_pos h] at hm
    obtain ⟨i, hi, p, hp, hhas⟩ := hb.message hm
    obtain ⟨x, hx⟩ := Option.isSome_iff_exists.1 hhas
    exact ⟨p, i, _, _, x, hp, hi, hm, hx⟩
  · rintro ⟨p, i, kind, m, x, hp, hi, hm', hx⟩
    by_contra h
    rw [if_neg h, hm'] at hm
    cases hm

theorem Tracks.hasEnum_iff (ht : b.Tracks past) (hb : b.Grounded) :
    past.hasEnum ↔ ∃ p i e x, b.protocol = some p ∧ b.interface = some i ∧
      b.enum = some e ∧ p.enum? i e = some x := by
  have he := ht.enum
  constructor
  · intro h
    rw [if_pos h] at he
    obtain ⟨i, hi, p, hp, hhas⟩ := hb.enum he
    obtain ⟨x, hx⟩ := Option.isSome_iff_exists.1 hhas
    exact ⟨p, i, _, x, hp, hi, he, hx⟩
  · rintro ⟨p, i, e, x, hp, hi, he', hx⟩
    by_contra h
    rw [if_neg h, he'] at he
    cases he

theorem Tracks.collecting_eq_false (ht : b.Tracks past) :
    past.collecting = false ↔ b.pending = none := by
  have hpending := ht.pending
  have hcount : past.collecting = false ↔ past.openNames.countP isCollected = 0 := by
    simp [History.collecting, List.countP_eq_zero]
  rw [hcount, hpending]
  cases b.pending <;> simp

/-- A start tag is taken just if it is allowed; the protocol starts once. -/
theorem Tracks.exists_starts (ht : b.Tracks past) (hb : b.Grounded) {o : Opening} :
    (∃ b', b.Starts o.tag o.element b') ↔
      o.Allowed past ∧ (o.element = .protocol → past.hasProtocol = false) := by
  obtain ⟨e, tag⟩ := o
  constructor
  · rintro ⟨b', h⟩
    cases h with
    | @protocol p hd hp =>
      refine ⟨⟨fun _ => (exists_declares Protocol.exists_declare).1 ⟨p, hd⟩, trivial⟩, fun _ => ?_⟩
      rw [← ht.protocol, hp]
      rfl
    | @copyright p hp hc =>
      have hplace := And.intro (ht.hasProtocol_iff.2 ⟨p, hp⟩) (ht.collecting_eq_false.2 hc)
      exact ⟨⟨fun h => absurd rfl h, hplace⟩, nofun⟩
    | @interface x p hd hp =>
      have hplace := ht.hasProtocol_iff.2 ⟨p, hp⟩
      exact ⟨⟨fun _ => (exists_declares Interface.exists_declare).1 ⟨x, hd⟩, hplace⟩, nofun⟩
    | @message e kind m p i x he hd hp hi hx =>
      have hplace := (ht.hasInterface_iff hb).2 ⟨p, i, x, hp, hi, hx⟩
      have hattributes := (exists_declares Message.exists_declare).1 ⟨m, hd⟩
      subst he
      refine ⟨⟨fun _ => hattributes, ?_⟩, ?_⟩ <;> cases kind
      · exact hplace
      · exact hplace
      · exact nofun
      · exact nofun
    | @arg a p i kind m x hd hp hi hm hx =>
      have hplace := (ht.hasMessage_iff hb).2 ⟨p, i, kind, m, x, hp, hi, hm, hx⟩
      exact ⟨⟨fun _ => (exists_declares Arg.exists_declare).1 ⟨a, hd⟩, hplace⟩, nofun⟩
    | @enum n p i x hd hp hi hx =>
      have hplace := (ht.hasInterface_iff hb).2 ⟨p, i, x, hp, hi, hx⟩
      exact ⟨⟨fun _ => (exists_declares Enum.exists_declare).1 ⟨n, hd⟩, hplace⟩, nofun⟩
    | @entry n p i k x hd hp hi hk hx =>
      have hplace := (ht.hasEnum_iff hb).2 ⟨p, i, k, x, hp, hi, hk, hx⟩
      exact ⟨⟨fun _ => (exists_declares Entry.exists_declare).1 ⟨n, hd⟩, hplace⟩, nofun⟩
    | @description s place hd hc hp =>
      obtain ⟨p, hprotocol, -⟩ := hb.has_descriptionPlace hp
      have hplace :=
        And.intro (ht.hasProtocol_iff.2 ⟨p, hprotocol⟩) (ht.collecting_eq_false.2 hc)
      exact ⟨⟨fun _ => (exists_declares Description.exists_declare).1 ⟨s, hd⟩, hplace⟩, nofun⟩
  · rintro ⟨⟨hattributes, hplace⟩, honce⟩
    have message (kind : MessageKind) (he : e = kind.element) (hinterface : past.hasInterface) :
        ∃ b', b.Starts tag e b' := by
      subst he
      obtain ⟨m, hd⟩ := (exists_declares Message.exists_declare).2
        (hattributes (by cases kind <;> nofun))
      obtain ⟨p, i, x, hp, hi, hx⟩ := (ht.hasInterface_iff hb).1 hinterface
      exact ⟨_, .message rfl hd hp hi hx⟩
    cases e with
    | protocol =>
      obtain ⟨p, hd⟩ := (exists_declares Protocol.exists_declare).2 (hattributes nofun)
      have hnone := honce rfl
      rw [← ht.protocol, Option.isSome_eq_false_iff, Option.isNone_iff_eq_none] at hnone
      exact ⟨_, .protocol hd hnone⟩
    | copyright =>
      obtain ⟨p, hp⟩ := ht.hasProtocol_iff.1 hplace.1
      exact ⟨_, .copyright hp (ht.collecting_eq_false.1 hplace.2)⟩
    | interface =>
      obtain ⟨x, hd⟩ := (exists_declares Interface.exists_declare).2 (hattributes nofun)
      obtain ⟨p, hp⟩ := ht.hasProtocol_iff.1 hplace
      exact ⟨_, .interface hd hp⟩
    | request => exact message .request rfl hplace
    | event => exact message .event rfl hplace
    | arg =>
      obtain ⟨a, hd⟩ := (exists_declares Arg.exists_declare).2 (hattributes nofun)
      obtain ⟨p, i, kind, m, x, hp, hi, hm, hx⟩ := (ht.hasMessage_iff hb).1 hplace
      exact ⟨_, .arg hd hp hi hm hx⟩
    | enum =>
      obtain ⟨n, hd⟩ := (exists_declares Enum.exists_declare).2 (hattributes nofun)
      obtain ⟨p, i, x, hp, hi, hx⟩ := (ht.hasInterface_iff hb).1 hplace
      exact ⟨_, .enum hd hp hi hx⟩
    | entry =>
      obtain ⟨n, hd⟩ := (exists_declares Entry.exists_declare).2 (hattributes nofun)
      obtain ⟨p, i, k, x, hp, hi, hk, hx⟩ := (ht.hasEnum_iff hb).1 hplace
      exact ⟨_, .entry hd hp hi hk hx⟩
    | description =>
      obtain ⟨s, hd⟩ := (exists_declares Description.exists_declare).2 (hattributes nofun)
      exact ⟨_, .description hd (ht.collecting_eq_false.1 hplace.2)
        (ht.descriptionPlace hb hplace.1)⟩

/-- Only start tags are ever refused. -/
theorem Tracks.exists_apply (ht : b.Tracks past) (hb : b.Grounded) {c : Call} :
    (∃ b', b.apply c = .ok b') ↔ ∀ o, c.opening? = some o →
      o.Allowed past ∧ (o.element = .protocol → past.hasProtocol = false) := by
  simp only [apply_eq_ok hb]
  cases c with
  | start tag =>
    cases he : Element.ofName? (localName (Tag.name tag)) with
    | none => simpa [Call.opening?, he] using ⟨b, .ignore he⟩
    | some e =>
      have hstarts := ht.exists_starts hb (o := ⟨e, tag⟩)
      simp only [Call.opening?, he, Option.map_some, Option.some.injEq, forall_eq', ← hstarts]
      constructor
      · rintro ⟨b', h⟩
        cases h with
        | start he' h =>
          cases he.symm.trans he'
          exact ⟨b', h⟩
        | ignore he' => cases he.symm.trans he'
      · rintro ⟨b', h⟩
        exact ⟨b', .start he h⟩
  | close name => simpa [Call.opening?] using ⟨_, .close name⟩
  | text s => simpa [Call.opening?] using ⟨_, .text s⟩

theorem countP_protocol (past : History) :
    past.countP (Call.starts .protocol) = 0 ↔ past.hasProtocol = false := by
  simp [History.hasProtocol, List.countP_eq_zero]

theorem exists_opening {c : Call} {e : Element} (h : c.starts e) :
    ∃ o, c.opening? = some o ∧ o.element = e := by
  rw [Call.starts, beq_iff_eq, ← c.opening?_element, Option.map_eq_some_iff] at h
  exact h

/-- One more call keeps count of the protocol. -/
theorem Tracks.countP_protocol (ht : b.Tracks past) (hb : b.Grounded) {c : Call}
    (hc : b.apply c = .ok b') (ht' : b'.Tracks (c :: past))
    (hcount : past.countP (Call.starts .protocol) = b.protocol.isSome.toNat) :
    List.countP (Call.starts .protocol) (c :: past) = b'.protocol.isSome.toNat := by
  rw [ht'.protocol, History.hasProtocol_cons, List.countP_cons, hcount, ht.protocol]
  cases hstarts : c.starts .protocol with
  | false => simp
  | true =>
    obtain ⟨o, ho, he⟩ := exists_opening hstarts
    have hnone := ((ht.exists_apply hb).1 ⟨b', hc⟩ o ho).2 he
    simp [hnone]

/-- A builder has a protocol in the end if one starts in the calls or before, but not two. -/
theorem Tracks.exists_applyAll (ht : b.Tracks past) (hb : b.Grounded) {cs : List Call}
    (hn : History.Nested (cs.reverse ++ past))
    (hcount : past.countP (Call.starts .protocol) = b.protocol.isSome.toNat) :
    (∃ b' p, b.applyAll cs = .ok b' ∧ b'.protocol = some p) ↔
      past.countP (Call.starts .protocol) + cs.countP (Call.starts .protocol) = 1 ∧
        ∀ before c after, cs = before ++ c :: after →
          ∀ o, c.opening? = some o → o.Allowed (before.reverse ++ past) := by
  induction cs generalizing b past with
  | nil => cases hp : b.protocol <;> simp [hcount, hp]
  | cons c cs ih =>
    rw [List.reverse_cons, List.append_assoc] at hn
    have ih {b₁ : Builder} (hc : b.apply c = .ok b₁) := by
      have hstep := (apply_eq_ok hb).1 hc
      have ht₁ := hstep.tracks hb ht hn.of_append
      exact ih ht₁ (hstep.grounded hb) hn (ht.countP_protocol hb hc ht₁ hcount)
    have hsum : List.countP (Call.starts .protocol) (c :: past) +
        cs.countP (Call.starts .protocol) =
        past.countP (Call.starts .protocol) + (c :: cs).countP (Call.starts .protocol) := by
      rw [List.countP_cons, List.countP_cons]
      omega
    constructor
    · rintro ⟨b', p, h, hp⟩
      obtain ⟨b₁, hc, hcs⟩ := applyAll_cons_eq_ok.1 h
      obtain ⟨hone, hrest⟩ := (ih hc).1 ⟨b', p, hcs, hp⟩
      refine ⟨hsum ▸ hone, fun before c' after heq o ho => ?_⟩
      cases before with
      | nil =>
        cases heq
        exact ((ht.exists_apply hb).1 ⟨b₁, hc⟩ o ho).1
      | cons d before =>
        cases heq
        simpa using hrest before c' after rfl o ho
    · rintro ⟨hone, hall⟩
      have hc : ∃ b₁, b.apply c = .ok b₁ := by
        refine (ht.exists_apply hb).2 fun o ho => ⟨hall [] c cs rfl o ho, fun he => ?_⟩
        have hstarts : c.starts .protocol := by simp [History.starts_eq ho, he]
        rw [← Builder.countP_protocol]
        rw [List.countP_cons_of_pos hstarts] at hone
        omega
      obtain ⟨b₁, hc⟩ := hc
      have hrest := (ih hc).2 ⟨hsum ▸ hone, fun before c' after heq o ho => by
        simpa using hall (c :: before) c' after (by simp [heq]) o ho⟩
      obtain ⟨b', p, hcs, hp⟩ := hrest
      exact ⟨b', p, applyAll_cons_eq_ok.2 ⟨b₁, hc, hcs⟩, hp⟩

end Builder

theorem length_tags (cs : List Call) (e : Element) :
    (Opening.tags e (openings cs)).length = cs.countP (Call.starts e) := by
  induction cs with
  | nil => rfl
  | cons c cs ih =>
    rw [openings, List.filterMap_cons, List.countP_cons, ← ih]
    cases ho : c.opening? with
    | none => simp [History.starts_eq_false ho, openings]
    | some o =>
      rw [History.starts_eq ho]
      cases he : o.element == e <;> simp [Opening.tags, openings, he]

/-- A document whose tokens can be cut out and whose tags are balanced is accepted if and only if
its character data can be decoded, it has one protocol and every start tag is allowed after the
calls before it. -/
theorem exists_parse_iff {input : Bytes} {ts : List Token}
    (hlex : Token.lex (dropMark input) = (ts, .complete)) (hbalanced : Token.Balanced ts) :
    (∃ p, (parse input).result = .ok p) ↔ (∀ t ∈ ts, t.Readable) ∧
      (∃ tag, Opening.tags .protocol (openings (calls input)) = [tag]) ∧
      ∀ before c after, calls input = before ++ c :: after →
        ∀ o, c.opening? = some o → o.Allowed before.reverse := by
  have hcalls : calls input = ts.flatMap Token.calls := by rw [calls, hlex]
  obtain ⟨hn, -⟩ := History.nested_of_balanced hbalanced
  rw [← hcalls, ← List.append_nil (calls input).reverse] at hn
  have happly := Builder.tracks_empty.exists_applyAll Builder.grounded_empty hn rfl
  simp only [List.countP_nil, Nat.zero_add, List.append_nil] at happly
  rw [← List.length_eq_one_iff, length_tags, ← happly]
  constructor
  · rintro ⟨p, h⟩
    obtain ⟨ts', hlex', -, hread, b, hb, hp⟩ := parse_eq_ok_iff.1 h
    cases hlex.symm.trans hlex'
    exact ⟨hread, b, p, hcalls ▸ hb, hp⟩
  · rintro ⟨hread, b, p, hb, hp⟩
    exact ⟨p, parse_eq_ok_iff.2 ⟨ts, hlex, hbalanced, hread, b, hcalls ▸ hb, hp⟩⟩

/-- Prefixes of names and unknown elements between the known ones do not matter. -/
theorem allowed_under_unknown_element :
    let input := ascii "<x:protocol name='p'><a><interface version='7' name='i'/></a></x:protocol>"
    let ts := (Token.lex (dropMark input)).1
    Token.lex (dropMark input) = (ts, .complete) ∧ Token.Balanced ts ∧
      (∃ p, (parse input).result = .ok p) ∧
      ∀ before c after, calls input = before ++ c :: after →
        ∀ o, c.opening? = some o → o.Allowed before.reverse := by
  intro input ts
  have hlex : Token.lex (dropMark input) = (ts, .complete) := by decide +kernel
  have hbalanced : Token.Balanced ts := by
    unfold Token.Balanced
    decide +kernel
  have hresult : (parse input).result = .ok {
      name := "p", uppercaseName := "P"
      interfaces := [{ name := "i", uppercaseName := "I", version := 7 }] } := by decide +kernel
  obtain ⟨-, -, hallowed⟩ := (exists_parse_iff hlex hbalanced).1 ⟨_, hresult⟩
  exact ⟨hlex, hbalanced, ⟨_, hresult⟩, hallowed⟩

end WaylandDoc
