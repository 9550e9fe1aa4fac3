import WaylandDoc.Proofs.Notices
import WaylandDoc.Proofs.Tracking

/-!
# Trees behind other trees

A builder that goes on behind a tree `q` does what it does alone, with the places of all nodes moved
by the interfaces of `q` (`Builder.performAll_behind`). Only the start tag of a protocol could tell
the difference, and it fails in both.
-/

namespace WaylandDoc

/-- The place behind `n` more interfaces. -/
def Place.behind (place : Place) (n : Nat) : Place :=
  match place with
  | protocol => protocol
  | interface i => interface (n + i)
  | message i kind m => message (n + i) kind m
  | arg i kind m a => arg (n + i) kind m a
  | enum i e => enum (n + i) e
  | entry i e k => entry (n + i) e k

namespace Protocol

/-- The tree of `q` and then that of `p`. A text that `p` has is the one that counts. -/
def behind (p q : Protocol) : Protocol :=
  { q with
    copyright := p.copyright.or q.copyright
    description := p.description.or q.description
    interfaces := q.interfaces ++ p.interfaces }

section Behind

variable (p q : Protocol)

theorem addInterface_behind (x : Interface) :
    (p.behind q).addInterface x = (p.addInterface x).behind q := by
  simp [addInterface, behind]

theorem interface?_behind (i : Nat) :
    (p.behind q).interface? (q.interfaces.length + i) = p.interface? i := by
  rw [interface?, behind, List.getElem?_append_right (Nat.le_add_right ..),
    Nat.add_sub_cancel_left, interface?]

theorem message?_behind (i : Nat) (kind : MessageKind) (m : Nat) :
    (p.behind q).message? (q.interfaces.length + i) kind m = p.message? i kind m := by
  rw [message?, interface?_behind, message?]

theorem enum?_behind (i e : Nat) :
    (p.behind q).enum? (q.interfaces.length + i) e = p.enum? i e := by
  rw [enum?, interface?_behind, enum?]

theorem has_behind (place : Place) :
    (p.behind q).has (place.behind q.interfaces.length) = p.has place := by
  cases place <;>
    simp [has, Place.behind, arg?, entry?, interface?_behind, message?_behind, enum?_behind]

theorem modifyInterface_behind (i : Nat) (f : Interface → Interface) :
    (p.behind q).modifyInterface (q.interfaces.length + i) f =
      (p.modifyInterface i f).behind q := by
  simp only [modifyInterface, behind, modify_append_right]

theorem modifyMessage_behind (i : Nat) (kind : MessageKind) (m : Nat) (f : Message → Message) :
    (p.behind q).modifyMessage (q.interfaces.length + i) kind m f =
      (p.modifyMessage i kind m f).behind q := modifyInterface_behind ..

theorem modifyEnum_behind (i e : Nat) (f : Enum → Enum) :
    (p.behind q).modifyEnum (q.interfaces.length + i) e f = (p.modifyEnum i e f).behind q :=
  modifyInterface_behind ..

theorem describe_behind (d : Description) (place : Place) :
    (p.behind q).describe d (place.behind q.interfaces.length) = (p.describe d place).behind q := by
  cases place with
  | protocol => rfl
  | interface i | message i kind m | arg i kind m a | enum i e | entry i e k =>
    exact modifyInterface_behind ..

end Behind

end Protocol

/-- What the text is for, behind `n` more interfaces. -/
def Purpose.behind (purpose : Purpose) (n : Nat) : Purpose :=
  match purpose with
  | copyright => copyright
  | description place summary => description (place.behind n) summary

theorem Purpose.element_behind (purpose : Purpose) (n : Nat) :
    (purpose.behind n).element = purpose.element := by
  cases purpose <;> rfl

namespace Builder

/-- The builder with the tree of `q` before its own. -/
def behind (b : Builder) (q : Protocol) : Builder :=
  { b with
    protocol := b.protocol.map (·.behind q)
    interface := b.interface.map (q.interfaces.length + ·)
    pending := b.pending.map fun c => { c with purpose := c.purpose.behind q.interfaces.length } }

variable (b : Builder) (q : Protocol)

/-! ## The nodes under the cursors -/

theorem modify_behind {f g : Protocol → Protocol}
    (h : ∀ p : Protocol, f (p.behind q) = (g p).behind q) :
    (b.behind q).modify f = (b.modify g).behind q := by
  cases hp : b.protocol <;> simp [modify, behind, hp, h]

theorem modifyInterface_behind (i : Nat) (f : Interface → Interface) :
    ((b.behind q).modify fun p => p.modifyInterface (q.interfaces.length + i) f) =
      (b.modify fun p => p.modifyInterface i f).behind q :=
  modify_behind _ _ fun p => p.modifyInterface_behind q i f

theorem modifyMessage_behind (i : Nat) (kind : MessageKind) (m : Nat) (f : Message → Message) :
    ((b.behind q).modify fun p => p.modifyMessage (q.interfaces.length + i) kind m f) =
      (b.modify fun p => p.modifyMessage i kind m f).behind q :=
  modify_behind _ _ fun p => p.modifyMessage_behind q i kind m f

theorem modifyEnum_behind (i e : Nat) (f : Enum → Enum) :
    ((b.behind q).modify fun p => p.modifyEnum (q.interfaces.length + i) e f) =
      (b.modify fun p => p.modifyEnum i e f).behind q :=
  modify_behind _ _ fun p => p.modifyEnum_behind q i e f

theorem currentProtocol_behind (e : Element) :
    (b.behind q).currentProtocol e = (·.behind q) <$> b.currentProtocol e := by
  have hprotocol : (b.behind q).protocol = b.protocol.map (·.behind q) := rfl
  cases hp : b.protocol <;> simp only [currentProtocol, hprotocol, hp] <;> rfl

theorem currentInterface_behind (e : Element) :
    (b.behind q).currentInterface e =
      (fun x => (q.interfaces.length + x.1, x.2)) <$> b.currentInterface e := by
  have hinterface : (b.behind q).interface = b.interface.map (q.interfaces.length + ·) := rfl
  cases hi : b.interface with
  | none => simp only [currentInterface, hinterface, hi]; rfl
  | some i =>
    simp only [currentInterface, hinterface, hi, Option.map_some, currentProtocol_behind,
      bind_map_left, Protocol.interface?_behind, map_bind, map_pure]

theorem currentMessage_behind (e : Element) :
    (b.behind q).currentMessage e =
      (fun x => ((q.interfaces.length + x.1.1, x.1.2), x.2)) <$> b.currentMessage e := by
  have hm : (b.behind q).message = b.message := rfl
  cases h : b.message with
  | none => simp only [currentMessage, hm, h]; rfl
  | some c =>
    simp only [currentMessage, hm, h, currentInterface_behind, bind_map_left, map_bind, map_pure]

theorem currentEnum_behind (e : Element) :
    (b.behind q).currentEnum e =
      (fun x => ((q.interfaces.length + x.1.1, x.1.2), x.2)) <$> b.currentEnum e := by
  have he : (b.behind q).enum = b.enum := rfl
  cases h : b.enum with
  | none => simp only [currentEnum, he, h]; rfl
  | some c =>
    simp only [currentEnum, he, h, currentInterface_behind, bind_map_left, map_bind, map_pure]

theorem checkNotCollecting_behind (e : Element) :
    (b.behind q).checkNotCollecting e = b.checkNotCollecting e := by
  cases hc : b.pending <;> simp [checkNotCollecting, behind, hc, Purpose.element_behind]

theorem descriptionPlace_behind :
    (b.behind q).descriptionPlace =
      (·.behind q.interfaces.length) <$> b.descriptionPlace := by
  obtain ⟨protocol, interface, message, arg, enum, entry, pending⟩ := b
  cases protocol with
  | none => rfl
  | some p =>
    cases interface with
    | none => rfl
    | some i => cases message <;> cases arg <;> cases enum <;> cases entry <;> rfl

/-! ## Calls -/

variable (tag : Bytes)

theorem startCopyright_behind :
    (b.behind q).startCopyright = (·.behind q) <$> b.startCopyright := by
  simp only [startCopyright, currentProtocol_behind, checkNotCollecting_behind, bind_map_left,
    map_bind, map_pure]
  rfl

theorem startInterface_behind :
    (b.behind q).startInterface tag = (·.behind q) <$> b.startInterface tag := by
  simp only [startInterface, currentProtocol_behind, Logged.monadLift_map, bind_map_left, map_bind,
    map_pure, Protocol.addInterface_behind]
  simp only [behind, Protocol.behind, List.length_append, Option.map_some]

theorem startMessage_behind (kind : MessageKind) :
    (b.behind q).startMessage kind tag = (·.behind q) <$> b.startMessage kind tag := by
  simp only [startMessage, currentInterface_behind, Logged.monadLift_map, bind_map_left, map_bind,
    map_pure, modifyInterface_behind]
  rfl

theorem startArg_behind : (b.behind q).startArg tag = (·.behind q) <$> b.startArg tag := by
  simp only [startArg, currentMessage_behind, bind_map_left, map_bind, map_pure,
    modifyMessage_behind]
  rfl

theorem startEnum_behind : (b.behind q).startEnum tag = (·.behind q) <$> b.startEnum tag := by
  simp only [startEnum, currentInterface_behind, bind_map_left, map_bind, map_pure,
    modifyInterface_behind]
  rfl

theorem startEntry_behind : (b.behind q).startEntry tag = (·.behind q) <$> b.startEntry tag := by
  simp only [startEntry, currentEnum_behind, bind_map_left, map_bind, map_pure,
    modifyEnum_behind]
  rfl

theorem startDescription_behind :
    (b.behind q).startDescription tag = (·.behind q) <$> b.startDescription tag := by
  simp only [startDescription, checkNotCollecting_behind, descriptionPlace_behind, bind_map_left,
    map_bind, map_pure]
  rfl

theorem finishText_behind :
    (b.behind q).finishText = (·.behind q) <$> b.finishText := by
  cases hc : b.pending with
  | none =>
    have hc' : (b.behind q).pending = none := by simp [behind, hc]
    simp only [finishText, hc, hc']
    rfl
  | some c =>
    have hc' : (b.behind q).pending =
        some { c with purpose := c.purpose.behind q.interfaces.length } := by simp [behind, hc]
    obtain ⟨purpose, text⟩ := c
    simp only [finishText, hc, hc', Purpose.element_behind, currentProtocol_behind, bind_map_left]
    cases purpose with
    | copyright =>
      simp only [Purpose.behind, map_bind, map_pure]
      rfl
    | description place summary =>
      simp only [Purpose.behind, map_bind, Protocol.has_behind, Protocol.describe_behind]
      refine congrArg _ (funext fun p => ?_)
      split <;> rfl

theorem close_behind (name : Bytes) :
    (b.behind q).close name = (·.behind q) <$> b.close name := by
  unfold close
  split
  · exact b.finishText_behind q
  · exact b.finishText_behind q
  all_goals rfl

theorem text_behind (s : String) : (b.behind q).text s = (b.text s).behind q := by
  cases hc : b.pending <;> simp [text, behind, hc]

variable {b}

/-- A start tag has the same effect behind another tree, but for that of a second protocol. -/
theorem start_behind (h : b.protocol.isSome) :
    (b.behind q).start tag = (·.behind q) <$> b.start tag := by
  cases he : Element.ofName? (localName (Tag.name tag)) with
  | none =>
    simp only [start, he, map_bind]
    rfl
  | some e =>
    simp only [start, he]
    cases e with
    | protocol =>
      -- A second protocol fails before its tag is looked at.
      obtain ⟨p, hp⟩ := Option.isSome_iff_exists.1 h
      have hp' : (b.behind q).protocol = some (p.behind q) := by simp [behind, hp]
      simp only [startProtocol, hp, hp']
      rfl
    | copyright => rw [startCopyright_behind, Logged.ofExcept_map]
    | interface => exact b.startInterface_behind q tag
    | request => exact b.startMessage_behind q tag .request
    | event => exact b.startMessage_behind q tag .event
    | arg => rw [startArg_behind, Logged.ofExcept_map]
    | enum => rw [startEnum_behind, Logged.ofExcept_map]
    | entry => rw [startEntry_behind, Logged.ofExcept_map]
    | description => rw [startDescription_behind, Logged.ofExcept_map]

theorem perform_behind (h : b.protocol.isSome) (c : Call) :
    (b.behind q).perform c = (·.behind q) <$> b.perform c := by
  cases c with
  | start tag => exact start_behind q tag h
  | close name => rw [perform, perform, close_behind, Logged.ofExcept_map]
  | text s => rw [perform, perform, text_behind, map_pure]

theorem Takes.isSome_protocol {b b' : Builder} {c : Call} (h : b.Takes c b')
    (hp : b.protocol.isSome) : b'.protocol.isSome := by
  cases h with
  | start he hs => cases hs <;> simp_all
  | ignore he => exact hp
  | close name =>
    have hskeleton := congrArg Option.isSome (b.closed_protocol (Element.ofName? name))
    rwa [Option.isSome_map, Option.isSome_map, hp] at hskeleton
  | text s => exact hp

/-- A builder with a protocol goes on behind another tree as it does alone. -/
theorem performAll_behind (hb : b.Grounded) (hp : b.protocol.isSome) (cs : List Call) :
    (b.behind q).performAll cs = (·.behind q) <$> b.performAll cs := by
  induction cs generalizing b with
  | nil => simp
  | cons c cs ih =>
    rw [performAll_cons, performAll_cons, perform_behind q hp, bind_map_left, map_bind]
    refine Logged.bind_congr_of_ok fun b' hb' => ?_
    rw [result_perform, apply_eq_ok hb] at hb'
    exact ih (hb'.grounded hb) (hb'.isSome_protocol hp)

end Builder

end WaylandDoc
