import WaylandDoc.Proofs.Call
import WaylandDoc.Proofs.Declared

/-!
# Grounded builders

`Builder.Starts` lists what a start tag can do to a builder, with all that it asks for. A builder is
grounded if every cursor, and the place of a pending description, leads to a node of the tree. The
calls keep it so, so an end tag never fails: it does what `Builder.closed` says.
-/

namespace WaylandDoc

namespace Builder

/-! ## The nodes under the cursors -/

theorem currentProtocol_eq_ok {b : Builder} {e : Element} {p : Protocol} :
    b.currentProtocol e = .ok p ↔ b.protocol = some p := by
  cases h : b.protocol <;> simp [currentProtocol, h]

theorem node_eq_ok {α : Type} {o : Option α} {x : α} : node o = .ok x ↔ o = some x := by
  cases o <;> simp [node]

theorem currentInterface_eq_ok {b : Builder} {e : Element} {i : Nat} {x : Interface} :
    b.currentInterface e = .ok (i, x) ↔
      b.interface = some i ∧ ∃ p, b.protocol = some p ∧ p.interface? i = some x := by
  cases h : b.interface with
  | none => simp [currentInterface, h]
  | some j =>
    simp only [currentInterface, h, bind_eq_ok, pure_eq_ok, currentProtocol_eq_ok, node_eq_ok,
      Prod.mk.injEq, Option.some.injEq]
    constructor
    · rintro ⟨p, hp, y, hy, rfl, rfl⟩
      exact ⟨rfl, p, hp, hy⟩
    · rintro ⟨rfl, p, hp, hx⟩
      exact ⟨p, hp, x, hx, rfl, rfl⟩

theorem currentMessage_eq_ok {b : Builder} {e : Element} {i m : Nat} {kind : MessageKind}
    {x : Message} :
    b.currentMessage e = .ok ((i, kind, m), x) ↔ b.message = some (kind, m) ∧
      b.interface = some i ∧ ∃ p, b.protocol = some p ∧ p.message? i kind m = some x := by
  cases h : b.message with
  | none => simp [currentMessage, h]
  | some c =>
    obtain ⟨kind', n⟩ := c
    simp only [currentMessage, h, bind_eq_ok, pure_eq_ok, node_eq_ok, Prod.exists,
      currentInterface_eq_ok, Prod.mk.injEq, Option.some.injEq, Protocol.message?,
      Option.bind_eq_some_iff]
    constructor
    · rintro ⟨j, y, ⟨hi, p, hp, hy⟩, z, hz, ⟨rfl, rfl, rfl⟩, rfl⟩
      exact ⟨⟨rfl, rfl⟩, hi, p, hp, y, hy, hz⟩
    · rintro ⟨⟨rfl, rfl⟩, hi, p, hp, y, hy, hx⟩
      exact ⟨i, y, ⟨hi, p, hp, hy⟩, x, hx, ⟨rfl, rfl, rfl⟩, rfl⟩

theorem currentEnum_eq_ok {b : Builder} {el : Element} {i e : Nat} {x : Enum} :
    b.currentEnum el = .ok ((i, e), x) ↔ b.enum = some e ∧
      b.interface = some i ∧ ∃ p, b.protocol = some p ∧ p.enum? i e = some x := by
  cases h : b.enum with
  | none => simp [currentEnum, h]
  | some n =>
    simp only [currentEnum, h, bind_eq_ok, pure_eq_ok, node_eq_ok, Prod.exists,
      currentInterface_eq_ok, Prod.mk.injEq, Option.some.injEq, Protocol.enum?,
      Option.bind_eq_some_iff]
    constructor
    · rintro ⟨j, y, ⟨hi, p, hp, hy⟩, z, hz, ⟨rfl, rfl⟩, rfl⟩
      exact ⟨rfl, hi, p, hp, y, hy, hz⟩
    · rintro ⟨rfl, hi, p, hp, y, hy, hx⟩
      exact ⟨i, y, ⟨hi, p, hp, hy⟩, x, hx, ⟨rfl, rfl⟩, rfl⟩

theorem checkNotCollecting_eq_ok {b : Builder} {e : Element} {u : Unit} :
    b.checkNotCollecting e = .ok u ↔ b.pending = none := by
  cases h : b.pending <;> simp [checkNotCollecting, h]

theorem attributes_eq_ok {tag : Bytes} {as : List Attribute} :
    attributes tag = .ok as ↔ Attribute.ofTag tag = .ok as := mapError_eq_ok

/-! ## Start tags -/

/-- What the start tag of an element of the schema does to a builder that takes it. -/
inductive Starts (b : Builder) (tag : Bytes) : Element → Builder → Prop where
  | protocol {p : Protocol} (hd : Declares Protocol.declare tag p) (h : b.protocol = none) :
      Starts b tag .protocol { b with protocol := some p }
  | copyright {p : Protocol} (h : b.protocol = some p) (hc : b.pending = none) :
      Starts b tag .copyright { b with pending := some { purpose := .copyright } }
  | interface {x : Interface} {p : Protocol} (hd : Declares Interface.declare tag x)
      (h : b.protocol = some p) :
      Starts b tag .interface { b with
        protocol := some (p.addInterface x), interface := some p.interfaces.length
        message := none, arg := none, enum := none, entry := none }
  | message {e : Element} {kind : MessageKind} {m : Message} {p : Protocol} {i : Nat}
      {x : Interface} (he : e = kind.element) (hd : Declares (Message.declare kind) tag m)
      (h : b.protocol = some p) (hi : b.interface = some i) (hx : p.interface? i = some x) :
      Starts b tag e { b with
        protocol := some (p.modifyInterface i (·.addMessage kind m))
        message := some (kind, (x.messages kind).length), arg := none }
  | arg {a : Arg} {p : Protocol} {i : Nat} {kind : MessageKind} {m : Nat} {x : Message}
      (hd : Declares Arg.declare tag a) (h : b.protocol = some p) (hi : b.interface = some i)
      (hm : b.message = some (kind, m)) (hx : p.message? i kind m = some x) :
      Starts b tag .arg { b with
        protocol := some (p.modifyMessage i kind m (·.addArg a)), arg := some x.args.length }
  | enum {e : Enum} {p : Protocol} {i : Nat} {x : Interface} (hd : Declares Enum.declare tag e)
      (h : b.protocol = some p) (hi : b.interface = some i) (hx : p.interface? i = some x) :
      Starts b tag .enum { b with
        protocol := some (p.modifyInterface i (·.addEnum e)), enum := some x.enums.length
        entry := none }
  | entry {n : Entry} {p : Protocol} {i e : Nat} {x : Enum} (hd : Declares Entry.declare tag n)
      (h : b.protocol = some p) (hi : b.interface = some i) (he : b.enum = some e)
      (hx : p.enum? i e = some x) :
      Starts b tag .entry { b with
        protocol := some (p.modifyEnum i e (·.addEntry n)), entry := some x.entries.length }
  | description {s : String} {place : Place} (hd : Declares Description.declareSummary tag s)
      (hc : b.pending = none) (hp : b.descriptionPlace = .ok place) :
      Starts b tag .description { b with
        pending := some { purpose := .description place s } }

section Start

variable {b b' : Builder} {tag : Bytes}

theorem starts_of_startProtocol (h : (b.startProtocol tag).result = .ok b') :
    b.Starts tag .protocol b' := by
  cases hp : b.protocol with
  | some p => simp [startProtocol, hp] at h
  | none =>
    simp only [startProtocol, hp, Logged.result_bind_eq_ok, Logged.result_monadLift,
      attributes_eq_ok, Logged.result_pure, Except.ok.injEq] at h
    obtain ⟨as, has, p, hd, -, -, rfl⟩ := h
    exact .protocol ⟨as, has, hd⟩ hp

theorem starts_of_startCopyright (h : b.startCopyright = .ok b') : b.Starts tag .copyright b' := by
  simp only [startCopyright, bind_eq_ok, pure_eq_ok, currentProtocol_eq_ok,
    checkNotCollecting_eq_ok] at h
  obtain ⟨p, hp, -, hc, rfl⟩ := h
  exact .copyright hp hc

theorem starts_of_startInterface (h : (b.startInterface tag).result = .ok b') :
    b.Starts tag .interface b' := by
  simp only [startInterface, Logged.result_bind_eq_ok, Logged.result_monadLift,
    attributes_eq_ok, currentProtocol_eq_ok, Logged.result_pure, Except.ok.injEq] at h
  obtain ⟨as, has, x, hd, -, -, p, hp, rfl⟩ := h
  exact .interface ⟨as, has, hd⟩ hp

theorem starts_of_startMessage {kind : MessageKind}
    (h : (b.startMessage kind tag).result = .ok b') : b.Starts tag kind.element b' := by
  simp only [startMessage, Logged.result_bind_eq_ok, Logged.result_monadLift, attributes_eq_ok,
    Logged.result_pure, Except.ok.injEq, Prod.exists, currentInterface_eq_ok] at h
  obtain ⟨as, has, -, -, m, hd, i, x, ⟨hi, p, hp, hx⟩, -, -, rfl⟩ := h
  simp only [modify, hp, Option.map_some]
  exact .message rfl ⟨as, has, hd⟩ hp hi hx

theorem starts_of_startArg (h : b.startArg tag = .ok b') : b.Starts tag .arg b' := by
  simp only [startArg, bind_eq_ok, attributes_eq_ok, pure_eq_ok, Prod.exists,
    currentMessage_eq_ok] at h
  obtain ⟨as, has, a, hd, i, kind, m, x, ⟨hm, hi, p, hp, hx⟩, rfl⟩ := h
  simp only [modify, hp, Option.map_some]
  exact .arg ⟨as, has, hd⟩ hp hi hm hx

theorem starts_of_startEnum (h : b.startEnum tag = .ok b') : b.Starts tag .enum b' := by
  simp only [startEnum, bind_eq_ok, attributes_eq_ok, pure_eq_ok, Prod.exists,
    currentInterface_eq_ok] at h
  obtain ⟨as, has, e, hd, i, x, ⟨hi, p, hp, hx⟩, rfl⟩ := h
  simp only [modify, hp, Option.map_some]
  exact .enum ⟨as, has, hd⟩ hp hi hx

theorem starts_of_startEntry (h : b.startEntry tag = .ok b') : b.Starts tag .entry b' := by
  simp only [startEntry, bind_eq_ok, attributes_eq_ok, pure_eq_ok, Prod.exists,
    currentEnum_eq_ok] at h
  obtain ⟨as, has, n, hd, i, e, x, ⟨he, hi, p, hp, hx⟩, rfl⟩ := h
  simp only [modify, hp, Option.map_some]
  exact .entry ⟨as, has, hd⟩ hp hi he hx

theorem starts_of_startDescription (h : b.startDescription tag = .ok b') :
    b.Starts tag .description b' := by
  simp only [startDescription, bind_eq_ok, attributes_eq_ok, pure_eq_ok,
    checkNotCollecting_eq_ok] at h
  obtain ⟨as, has, s, hs, -, hc, place, hp, rfl⟩ := h
  exact .description ⟨as, has, hs⟩ hc hp

variable {e : Element}

theorem starts_of_start (he : Element.ofName? (localName (Tag.name tag)) = some e)
    (h : (b.start tag).result = .ok b') : b.Starts tag e b' := by
  simp only [start, he] at h
  cases e with
  | protocol => exact starts_of_startProtocol h
  | copyright => exact starts_of_startCopyright h
  | interface => exact starts_of_startInterface h
  | request => exact starts_of_startMessage h
  | event => exact starts_of_startMessage h
  | arg => exact starts_of_startArg h
  | enum => exact starts_of_startEnum h
  | entry => exact starts_of_startEntry h
  | description => exact starts_of_startDescription h

theorem Starts.start (he : Element.ofName? (localName (Tag.name tag)) = some e)
    (h : b.Starts tag e b') : (b.start tag).result = .ok b' := by
  simp only [Builder.start, he]
  cases h with
  | protocol hd hp =>
    obtain ⟨as, has, hd⟩ := hd
    simp [startProtocol, hp, attributes_eq_ok, has, hd]
  | copyright hp hc =>
    simp [startCopyright, currentProtocol_eq_ok, checkNotCollecting_eq_ok, hp, hc]
  | interface hd hp =>
    obtain ⟨as, has, hd⟩ := hd
    simp [startInterface, attributes_eq_ok, currentProtocol_eq_ok, has, hd, hp]
  | @message e kind m p i x he hd hp hi hx =>
    obtain ⟨as, has, hd⟩ := hd
    have hstart : (b.startMessage kind tag).result = .ok { b with
        protocol := some (p.modifyInterface i (·.addMessage kind m))
        message := some (kind, (x.messages kind).length), arg := none } := by
      simp only [startMessage, Logged.result_bind_eq_ok, Logged.result_monadLift,
        attributes_eq_ok, Prod.exists, currentInterface_eq_ok]
      exact ⟨as, has, (), rfl, m, hd, i, x, ⟨hi, p, hp, hx⟩, (), rfl, by simp [modify, hp]⟩
    cases kind <;> subst he <;> exact hstart
  | @arg a p i kind m x hd hp hi hm hx =>
    obtain ⟨as, has, hd⟩ := hd
    simp only [startArg, Logged.result_ofExcept, bind_eq_ok, attributes_eq_ok, Prod.exists,
      currentMessage_eq_ok]
    exact ⟨as, has, a, hd, i, kind, m, x, ⟨hm, hi, p, hp, hx⟩, by simp [modify, hp]⟩
  | @enum n p i x hd hp hi hx =>
    obtain ⟨as, has, hd⟩ := hd
    simp only [startEnum, Logged.result_ofExcept, bind_eq_ok, attributes_eq_ok, Prod.exists,
      currentInterface_eq_ok]
    exact ⟨as, has, n, hd, i, x, ⟨hi, p, hp, hx⟩, by simp [modify, hp]⟩
  | @entry n p i k x hd hp hi hk hx =>
    obtain ⟨as, has, hd⟩ := hd
    simp only [startEntry, Logged.result_ofExcept, bind_eq_ok, attributes_eq_ok, Prod.exists,
      currentEnum_eq_ok]
    exact ⟨as, has, n, hd, i, k, x, ⟨hk, hi, p, hp, hx⟩, by simp [modify, hp]⟩
  | description hd hc hp =>
    obtain ⟨as, has, hs⟩ := hd
    simp only [Description.declareSummary] at hs
    simp [startDescription, attributes_eq_ok, checkNotCollecting_eq_ok, has, hs, hc, hp]

end Start

/-! ## Grounded builders -/

/-- The tree has a node at the place. -/
def Has (b : Builder) (q : Place) : Prop := ∃ p, b.protocol = some p ∧ p.has q

end Builder

/-- The node that the collected text is for. -/
def Purpose.place : Purpose → Place
  | copyright => .protocol
  | description place _ => place

/-- All cursors lead to nodes of the tree: that of the message and the enum below that of the
interface, that of the argument below that of the message and that of the entry below that of the
enum. So does the place of the text that is collected. -/
structure Builder.Grounded (b : Builder) : Prop where
  interface {i : Nat} : b.interface = some i → b.Has (.interface i)
  message {kind : MessageKind} {m : Nat} : b.message = some (kind, m) →
    ∃ i, b.interface = some i ∧ b.Has (.message i kind m)
  arg {a : Nat} : b.arg = some a →
    ∃ i kind m, b.interface = some i ∧ b.message = some (kind, m) ∧ b.Has (.arg i kind m a)
  enum {e : Nat} : b.enum = some e → ∃ i, b.interface = some i ∧ b.Has (.enum i e)
  entry {n : Nat} : b.entry = some n →
    ∃ i e, b.interface = some i ∧ b.enum = some e ∧ b.Has (.entry i e n)
  pending {c : Pending} : b.pending = some c → b.Has c.purpose.place

namespace Builder

theorem grounded_empty : Grounded {} := ⟨nofun, nofun, nofun, nofun, nofun, nofun⟩

theorem Has.mono {b b' : Builder} {p p' : Protocol} (hb : b.protocol = some p)
    (hb' : b'.protocol = some p') (h : ∀ q, p.has q → p'.has q) {q : Place} (hq : b.Has q) :
    b'.Has q := by
  obtain ⟨p₁, hp₁, hq⟩ := hq
  cases hb.symm.trans hp₁
  exact ⟨p', hb', h q hq⟩

/-- A builder stays grounded if the tree keeps its nodes. -/
theorem Grounded.mono {b : Builder} {p' : Protocol} (hb : b.Grounded)
    (mono : ∀ q, b.Has q → p'.has q) : Grounded { b with protocol := some p' } := by
  refine ⟨fun h => ⟨p', rfl, mono _ (hb.interface h)⟩, fun h => ?_, fun h => ?_, fun h => ?_,
    fun h => ?_, fun h => ⟨p', rfl, mono _ (hb.pending h)⟩⟩
  · obtain ⟨i, hi, hq⟩ := hb.message h
    exact ⟨i, hi, p', rfl, mono _ hq⟩
  · obtain ⟨i, kind, m, hi, hm, hq⟩ := hb.arg h
    exact ⟨i, kind, m, hi, hm, p', rfl, mono _ hq⟩
  · obtain ⟨i, hi, hq⟩ := hb.enum h
    exact ⟨i, hi, p', rfl, mono _ hq⟩
  · obtain ⟨i, e, hi, he, hq⟩ := hb.entry h
    exact ⟨i, e, hi, he, p', rfl, mono _ hq⟩

theorem Grounded.grow {b : Builder} {p p' : Protocol} (hb : b.Grounded) (hp : b.protocol = some p)
    (h : p.Grows p') : Grounded { b with protocol := some p' } := by
  refine hb.mono fun q hq => ?_
  obtain ⟨p₁, hp₁, hq⟩ := hq
  cases hp.symm.trans hp₁
  exact h.has hq

/-- A description begins at a node. -/
theorem Grounded.has_descriptionPlace {b : Builder} {place : Place} (hb : b.Grounded)
    (h : b.descriptionPlace = .ok place) : b.Has place := by
  unfold descriptionPlace at h
  split at h
  · cases h
  · rename_i p hp hi
    cases h
    exact ⟨p, hp, rfl⟩
  · rename_i i hp hi
    split at h
    · rename_i e n he hn
      cases h
      obtain ⟨i', e', hi', he', hq⟩ := hb.entry hn
      cases hi.symm.trans hi'
      cases he.symm.trans he'
      exact hq
    · rename_i kind m a hm ha hentry
      cases h
      obtain ⟨i', kind', m', hi', hm', hq⟩ := hb.arg ha
      cases hi.symm.trans hi'
      cases hm.symm.trans hm'
      exact hq
    · rename_i kind m hm ha hentry
      cases h
      obtain ⟨i', hi', hq⟩ := hb.message hm
      cases hi.symm.trans hi'
      exact hq
    · rename_i e hm he hn
      cases h
      obtain ⟨i', hi', hq⟩ := hb.enum he
      cases hi.symm.trans hi'
      exact hq
    · cases h
      exact hb.interface hi

theorem Grounded.start {b b' : Builder} {tag : Bytes} {e : Element} (hb : b.Grounded)
    (h : b.Starts tag e b') : b'.Grounded := by
  cases h with
  | @protocol p hd hp =>
    refine hb.mono fun q hq => ?_
    obtain ⟨p₁, hp₁, -⟩ := hq
    simp [hp] at hp₁
  | copyright hp hc =>
    exact { hb with pending := fun h => by cases h; exact ⟨_, hp, rfl⟩ }
  | @interface x p hd hp =>
    have hgrow := Protocol.Grows.interface (p := p) (Interface.declaredBy hd).2
    refine { hb.grow hp hgrow with
      interface := fun h => ?_
      message := fun h => by cases h
      arg := fun h => by cases h
      enum := fun h => by cases h
      entry := fun h => by cases h }
    cases h
    exact ⟨_, rfl, by simp [Protocol.has, Protocol.interface?, Protocol.addInterface]⟩
  | @message e kind m p i x he hd hp hi hx =>
    have hgrow := Protocol.Grows.message (p := p) (Message.declaredBy hd).2 i kind
    refine { hb.grow hp hgrow with message := fun h => ?_, arg := fun h => by cases h }
    cases h
    refine ⟨i, hi, _, rfl, ?_⟩
    simp [Protocol.has, Protocol.message?, Protocol.interface?_modifyInterface, hx,
      Interface.messages_addMessage]
  | @arg a p i kind m x hd hp hi hm hx =>
    have hgrow := Protocol.Grows.arg (p := p) (Arg.declaredBy hd).2 i kind m
    refine { hb.grow hp hgrow with arg := fun h => ?_ }
    cases h
    refine ⟨i, kind, m, hi, hm, _, rfl, ?_⟩
    simp [Protocol.has, Protocol.arg?, Protocol.message?_modifyMessage, hx, Message.addArg]
  | @enum e p i x hd hp hi hx =>
    have hgrow := Protocol.Grows.enum (p := p) (Enum.declaredBy hd).2 i
    refine { hb.grow hp hgrow with enum := fun h => ?_, entry := fun h => by cases h }
    cases h
    refine ⟨i, hi, _, rfl, ?_⟩
    simp [Protocol.has, Protocol.enum?, Protocol.interface?_modifyInterface, hx,
      Interface.addEnum]
  | @entry n p i k x hd hp hi hk hx =>
    have hgrow := Protocol.Grows.entry (p := p) (Entry.declaredBy hd).2 i k
    refine { hb.grow hp hgrow with entry := fun h => ?_ }
    cases h
    refine ⟨i, k, hi, hk, _, rfl, ?_⟩
    simp [Protocol.has, Protocol.entry?, Protocol.enum?_modifyEnum, hx, Enum.addEntry]
  | description hd hc hp =>
    refine { hb with pending := fun h => ?_ }
    cases h
    exact hb.has_descriptionPlace hp

/-! ## Character data and end tags -/

/-- The tree with the text that was collected. -/
def store (c : Pending) (p : Protocol) : Protocol :=
  match c.purpose with
  | .copyright => { p with copyright := some c.text }
  | .description place summary => p.describe { summary, body := c.text } place

/-- The builder after the collected text was stored. -/
def stored (b : Builder) : Builder :=
  match b.pending with
  | none => b
  | some c => { b.modify (store c) with pending := none }

/-- The builder after an end tag. -/
def closed (b : Builder) : Option Element → Builder
  | some .copyright => b.stored
  | some .description => b.stored
  | some .request => { b with message := none, arg := none }
  | some .event => { b with message := none, arg := none }
  | some .arg => { b with arg := none }
  | some .enum => { b with enum := none, entry := none }
  | some .entry => { b with entry := none }
  | some .protocol | some .interface | none => b

theorem has_store (c : Pending) (p : Protocol) (q : Place) : (store c p).has q = p.has q := by
  unfold store
  split
  · cases q <;> rfl
  · exact p.has_describe _ _ q

theorem finishText_eq {b : Builder} (hb : b.Grounded) : b.finishText = .ok b.stored := by
  cases hc : b.pending with
  | none => simp [finishText, stored, hc]
  | some c =>
    obtain ⟨p, hp, hq⟩ := hb.pending hc
    obtain ⟨purpose, text⟩ := c
    cases purpose with
    | copyright =>
      simp [finishText, stored, store, modify, hc, hp, currentProtocol, bind, Except.bind, pure,
        Except.pure]
    | description place summary =>
      have hq : p.has place := hq
      simp [finishText, stored, store, modify, hc, hp, hq, currentProtocol, bind, Except.bind, pure,
        Except.pure]

/-- An end tag never fails. -/
theorem close_eq {b : Builder} (hb : b.Grounded) (name : Bytes) :
    b.close name = .ok (b.closed (Element.ofName? name)) := by
  unfold close closed
  cases Element.ofName? name with
  | none => rfl
  | some e => cases e <;> first | rfl | exact finishText_eq hb

theorem Grounded.stored {b : Builder} (hb : b.Grounded) : b.stored.Grounded := by
  unfold Builder.stored
  cases hc : b.pending with
  | none => exact hb
  | some c =>
    obtain ⟨p, hp, -⟩ := hb.pending hc
    have h : Grounded { b with protocol := some (store c p) } := by
      refine hb.mono fun q hq => ?_
      obtain ⟨p₁, hp₁, hq⟩ := hq
      cases hp.symm.trans hp₁
      rwa [has_store]
    simp only [modify, hp, Option.map_some]
    exact { h with pending := nofun }

theorem Grounded.closed {b : Builder} (hb : b.Grounded) (e : Option Element) :
    (b.closed e).Grounded := by
  unfold Builder.closed
  split
  · exact hb.stored
  · exact hb.stored
  · exact { hb with message := nofun, arg := nofun }
  · exact { hb with message := nofun, arg := nofun }
  · exact { hb with arg := nofun }
  · exact { hb with enum := nofun, entry := nofun }
  · exact { hb with entry := nofun }
  all_goals exact hb

theorem Grounded.text {b : Builder} (hb : b.Grounded) (s : String) : (b.text s).Grounded := by
  refine { hb with pending := fun h => ?_ }
  obtain ⟨c, hc, rfl⟩ := Option.map_eq_some_iff.1 h
  exact hb.pending (c := c) hc

/-- What a grounded builder does with a call. -/
inductive Takes (b : Builder) : Call → Builder → Prop where
  | start {tag : Bytes} {e : Element} {b' : Builder}
      (he : Element.ofName? (localName (Tag.name tag)) = some e) (h : b.Starts tag e b') :
      Takes b (.start tag) b'
  | ignore {tag : Bytes} (he : Element.ofName? (localName (Tag.name tag)) = none) :
      Takes b (.start tag) b
  | close (name : Bytes) : Takes b (.close name) (b.closed (Element.ofName? name))
  | text (s : String) : Takes b (.text s) (b.text s)

theorem apply_eq_ok {b b' : Builder} (hb : b.Grounded) {c : Call} :
    b.apply c = .ok b' ↔ b.Takes c b' := by
  constructor
  · intro h
    cases c with
    | start tag =>
      cases he : Element.ofName? (localName (Tag.name tag)) with
      | none =>
        simp [apply, Builder.start, he] at h
        exact h ▸ .ignore he
      | some e => exact .start he (starts_of_start he h)
    | close name =>
      rw [apply, close_eq hb] at h
      cases h
      exact .close name
    | text s =>
      cases h
      exact .text s
  · intro h
    cases h with
    | start he h => exact h.start he
    | ignore he => simp [apply, Builder.start, he]
    | close name => exact close_eq hb name
    | text s => rfl

theorem Takes.grounded {b b' : Builder} {c : Call} (h : b.Takes c b') (hb : b.Grounded) :
    b'.Grounded := by
  cases h with
  | start he h => exact hb.start h
  | ignore he => exact hb
  | close name => exact hb.closed _
  | text s => exact hb.text s

/-- Whatever the calls are, the cursors of a builder that takes them lead to nodes. -/
theorem Grounded.applyAll {b b' : Builder} {cs : List Call} (hb : b.Grounded)
    (h : b.applyAll cs = .ok b') : b'.Grounded := by
  induction cs generalizing b with
  | nil =>
    cases h
    exact hb
  | cons c cs ih =>
    obtain ⟨b₁, hc, hcs⟩ := applyAll_cons_eq_ok.1 h
    exact ih (((apply_eq_ok hb).1 hc).grounded hb) hcs

end Builder

end WaylandDoc
