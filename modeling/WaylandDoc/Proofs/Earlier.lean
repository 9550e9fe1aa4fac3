import WaylandDoc.Proofs.Grounded

/-!
# Earlier children

A builder that goes on in an interface with children from before does what it does without them,
with the indices of the messages and enums of the interface moved by theirs
(`Builder.applyAll_after`). Only the notices may differ, by the version that the first message is
compared with.
-/

namespace WaylandDoc

/-- Only what comes after a value counts. -/
theorem bind_congr_of_ok {ε α β : Type} {r : Except ε α} {f g : α → Except ε β}
    (h : ∀ a, r = .ok a → f a = g a) : r >>= f = r >>= g := by
  cases r with
  | error e => rfl
  | ok a => exact h a rfl

/-! ## Trees -/

namespace Interface

/-- The children of `x` and then those of `y`. A description that `y` has is the one that counts,
and so is its last message. -/
def after (y x : Interface) : Interface :=
  { y with
    since := if y.requests.isEmpty && y.events.isEmpty then x.since else y.since
    description := y.description.or x.description
    requests := x.requests ++ y.requests
    events := x.events ++ y.events
    enums := x.enums ++ y.enums }

/-- The interface `j` of a tree whose interface `i` has the children of `x` before its own. -/
def afterAt (y x : Interface) (i j : Nat) : Interface := if j = i then y.after x else y

/-- The messages of `x` that are before those of the interface `j`. -/
def messagesAt (x : Interface) (i j : Nat) (kind : MessageKind) : Nat :=
  if j = i then (x.messages kind).length else 0

/-- The enums of `x` that are before those of the interface `j`. -/
def enumsAt (x : Interface) (i j : Nat) : Nat := if j = i then x.enums.length else 0

section After

variable (y x : Interface) (i j : Nat)

theorem messages_after (kind : MessageKind) :
    (y.after x).messages kind = x.messages kind ++ y.messages kind := by
  cases kind <;> rfl

theorem getElem?_messages_afterAt (kind : MessageKind) (m : Nat) :
    ((y.afterAt x i j).messages kind)[x.messagesAt i j kind + m]? = (y.messages kind)[m]? := by
  unfold afterAt messagesAt
  split
  · rw [messages_after, List.getElem?_append_right (Nat.le_add_right ..), Nat.add_sub_cancel_left]
  · rw [Nat.zero_add]

theorem length_messages_afterAt (kind : MessageKind) :
    ((y.afterAt x i j).messages kind).length =
      x.messagesAt i j kind + (y.messages kind).length := by
  unfold afterAt messagesAt
  split
  · rw [messages_after, List.length_append]
  · rw [Nat.zero_add]

theorem getElem?_enums_afterAt (e : Nat) :
    (y.afterAt x i j).enums[x.enumsAt i j + e]? = y.enums[e]? := by
  unfold afterAt enumsAt
  split
  · rw [after, List.getElem?_append_right (Nat.le_add_right ..), Nat.add_sub_cancel_left]
  · rw [Nat.zero_add]

theorem length_enums_afterAt :
    (y.afterAt x i j).enums.length = x.enumsAt i j + y.enums.length := by
  unfold afterAt enumsAt
  split
  · rw [after, List.length_append]
  · rw [Nat.zero_add]

theorem addMessage_afterAt (kind : MessageKind) (m : Message) :
    (y.afterAt x i j).addMessage kind m = (y.addMessage kind m).afterAt x i j := by
  unfold afterAt
  split
  · cases kind <;> simp [after, addMessage, modifyMessages]
  · rfl

theorem addEnum_afterAt (e : Enum) :
    (y.afterAt x i j).addEnum e = (y.addEnum e).afterAt x i j := by
  unfold afterAt
  split
  · simp [after, addEnum]
  · rfl

theorem describe_afterAt (d : Description) :
    { y.afterAt x i j with description := some d } =
      afterAt { y with description := some d } x i j := by
  unfold afterAt
  split <;> rfl

theorem modifyMessages_afterAt (kind : MessageKind) (m : Nat) (f : Message → Message) :
    (y.afterAt x i j).modifyMessages kind (·.modify (x.messagesAt i j kind + m) f) =
      (y.modifyMessages kind (·.modify m f)).afterAt x i j := by
  unfold afterAt messagesAt
  split
  · cases kind <;> simp [after, modifyMessages, modify_append_right]
  · rw [Nat.zero_add]

theorem modifyEnums_afterAt (e : Nat) (f : Enum → Enum) :
    { y.afterAt x i j with enums := (y.afterAt x i j).enums.modify (x.enumsAt i j + e) f } =
      afterAt { y with enums := y.enums.modify e f } x i j := by
  unfold afterAt enumsAt
  split
  · simp [after, modify_append_right]
  · rw [Nat.zero_add]

end After

end Interface

namespace Place

/-- The place in a tree whose interface `i` has the children of `x` before its own. -/
def after (place : Place) (i : Nat) (x : Interface) : Place :=
  match place with
  | protocol => protocol
  | interface j => interface j
  | message j kind m => message j kind (x.messagesAt i j kind + m)
  | arg j kind m a => arg j kind (x.messagesAt i j kind + m) a
  | enum j e => enum j (x.enumsAt i j + e)
  | entry j e n => entry j (x.enumsAt i j + e) n

end Place

namespace Protocol

/-- The tree with the children of `x` before those of the interface `i`. -/
def after (p : Protocol) (i : Nat) (x : Interface) : Protocol := p.modifyInterface i (·.after x)

section After

variable (p : Protocol) (i : Nat) (x : Interface)

theorem interface?_after (j : Nat) :
    (p.after i x).interface? j = (p.interface? j).map (·.afterAt x i j) := by
  rw [after, interface?_modifyInterface]
  by_cases h : i = j
  · simp [h, Interface.afterAt]
  · simp [h, Ne.symm h, Interface.afterAt]

theorem message?_after (j : Nat) (kind : MessageKind) (m : Nat) :
    (p.after i x).message? j kind (x.messagesAt i j kind + m) = p.message? j kind m := by
  rw [message?, message?, interface?_after, Option.bind_map]
  exact congrArg _ (funext fun y => y.getElem?_messages_afterAt x i j kind m)

theorem enum?_after (j e : Nat) :
    (p.after i x).enum? j (x.enumsAt i j + e) = p.enum? j e := by
  rw [enum?, enum?, interface?_after, Option.bind_map]
  exact congrArg _ (funext fun y => y.getElem?_enums_afterAt x i j e)

theorem has_after (place : Place) : (p.after i x).has (place.after i x) = p.has place := by
  cases place <;>
    simp [has, Place.after, arg?, entry?, interface?_after, message?_after, enum?_after]

/-- What is done to an interface can be done before the children of `x` are there. -/
theorem modifyInterface_after {j : Nat} {f g : Interface → Interface}
    (h : ∀ y : Interface, f (y.afterAt x i j) = (g y).afterAt x i j) :
    (p.after i x).modifyInterface j f = (p.modifyInterface j g).after i x := by
  have hlist : (p.interfaces.modify i (·.after x)).modify j f =
      (p.interfaces.modify j g).modify i (·.after x) := by
    refine List.ext_getElem? fun k => ?_
    simp only [List.getElem?_modify]
    by_cases hj : j = k
    · subst hj
      cases p.interfaces[j]? with
      | none => rfl
      | some y =>
        have hy := h y
        simp only [Interface.afterAt] at hy
        by_cases hi : i = j <;> simp_all [eq_comm]
    · simp [hj]
  simp only [after, modifyInterface, hlist]

theorem addInterface_after (hi : i < p.interfaces.length) (y : Interface) :
    (p.after i x).addInterface y = (p.addInterface y).after i x := by
  simp [after, modifyInterface, addInterface, modify_append_left hi]

theorem addMessage_after (j : Nat) (kind : MessageKind) (m : Message) :
    (p.after i x).modifyInterface j (·.addMessage kind m) =
      (p.modifyInterface j (·.addMessage kind m)).after i x :=
  p.modifyInterface_after i x fun y => y.addMessage_afterAt x i j kind m

theorem addEnum_after (j : Nat) (e : Enum) :
    (p.after i x).modifyInterface j (·.addEnum e) =
      (p.modifyInterface j (·.addEnum e)).after i x :=
  p.modifyInterface_after i x fun y => y.addEnum_afterAt x i j e

theorem modifyMessage_after (j : Nat) (kind : MessageKind) (m : Nat) (f : Message → Message) :
    (p.after i x).modifyMessage j kind (x.messagesAt i j kind + m) f =
      (p.modifyMessage j kind m f).after i x :=
  p.modifyInterface_after i x fun y => y.modifyMessages_afterAt x i j kind m f

theorem modifyEnum_after (j e : Nat) (f : Enum → Enum) :
    (p.after i x).modifyEnum j (x.enumsAt i j + e) f = (p.modifyEnum j e f).after i x :=
  p.modifyInterface_after i x fun y => y.modifyEnums_afterAt x i j e f

theorem describe_after (d : Description) (place : Place) :
    (p.after i x).describe d (place.after i x) = (p.describe d place).after i x := by
  cases place with
  | protocol => rfl
  | interface j => exact p.modifyInterface_after i x fun y => y.describe_afterAt x i j d
  | message j kind m | arg j kind m a => exact p.modifyMessage_after ..
  | enum j e | entry j e n => exact p.modifyEnum_after ..

end After

end Protocol

/-! ## Nodes that stay -/

namespace Builder

variable {b b' : Builder} {place : Place}

theorem Starts.has {tag : Bytes} {e : Element} (h : b.Starts tag e b') (hplace : b.Has place) :
    b'.Has place := by
  cases h with
  | protocol hd hp =>
    obtain ⟨p, hp', -⟩ := hplace
    cases hp.symm.trans hp'
  | copyright | description => exact hplace
  | interface hd hp =>
    exact hplace.mono hp rfl fun _ => (Protocol.Grows.interface (Interface.declaredBy hd).2).has
  | message he hd hp =>
    exact hplace.mono hp rfl fun _ => (Protocol.Grows.message (Message.declaredBy hd).2 _ _).has
  | arg hd hp =>
    exact hplace.mono hp rfl fun _ => (Protocol.Grows.arg (Arg.declaredBy hd).2 _ _ _).has
  | enum hd hp =>
    exact hplace.mono hp rfl fun _ => (Protocol.Grows.enum (Enum.declaredBy hd).2 _).has
  | entry hd hp =>
    exact hplace.mono hp rfl fun _ => (Protocol.Grows.entry (Entry.declaredBy hd).2 _ _).has

theorem Has.stored (h : b.Has place) : b.stored.Has place := by
  unfold Builder.stored
  cases hc : b.pending with
  | none => exact h
  | some c =>
    obtain ⟨p, hp, hplace⟩ := h
    exact ⟨store c p, by simp [modify, hp], by rwa [has_store]⟩

theorem Takes.has {c : Call} (h : b.Takes c b') (hplace : b.Has place) : b'.Has place := by
  cases h with
  | start he hs => exact hs.has hplace
  | ignore he => exact hplace
  | close name =>
    unfold closed
    split
    · exact hplace.stored
    · exact hplace.stored
    all_goals exact hplace
  | text s => exact hplace

end Builder

/-! ## Builders -/

/-- What the text is for, in a tree whose interface `i` has the children of `x` before its own. -/
def Purpose.after (purpose : Purpose) (i : Nat) (x : Interface) : Purpose :=
  match purpose with
  | copyright => copyright
  | description place summary => description (place.after i x) summary

theorem Purpose.element_after (purpose : Purpose) (i : Nat) (x : Interface) :
    (purpose.after i x).element = purpose.element := by
  cases purpose <;> rfl

namespace Builder

/-- The builder with the children of `x` before those of the interface `i`. -/
def after (b : Builder) (i : Nat) (x : Interface) : Builder :=
  { b with
    protocol := b.protocol.map (·.after i x)
    message := b.message.map fun c => (c.1, b.interface.elim 0 (x.messagesAt i · c.1) + c.2)
    enum := b.enum.map (b.interface.elim 0 (x.enumsAt i) + ·)
    pending := b.pending.map fun c => { c with purpose := c.purpose.after i x } }

variable (b : Builder) (i : Nat) (x : Interface)

/-! ### The nodes under the cursors -/

theorem currentProtocol_after (e : Element) :
    (b.after i x).currentProtocol e = (·.after i x) <$> b.currentProtocol e := by
  have hprotocol : (b.after i x).protocol = b.protocol.map (·.after i x) := rfl
  cases hp : b.protocol <;> simp only [currentProtocol, hprotocol, hp] <;> rfl

theorem node_map {α β : Type} (f : α → β) (o : Option α) : node (o.map f) = f <$> node o := by
  cases o <;> rfl

theorem currentInterface_after (e : Element) :
    (b.after i x).currentInterface e =
      (fun y => (y.1, y.2.afterAt x i y.1)) <$> b.currentInterface e := by
  have hinterface : (b.after i x).interface = b.interface := rfl
  cases hi : b.interface with
  | none => simp only [currentInterface, hinterface, hi]; rfl
  | some j =>
    simp only [currentInterface, hinterface, hi, currentProtocol_after, bind_map_left,
      Protocol.interface?_after, node_map, map_bind, map_pure]

theorem currentMessage_after (e : Element) :
    (b.after i x).currentMessage e =
      (fun y => ((y.1.1, y.1.2.1, x.messagesAt i y.1.1 y.1.2.1 + y.1.2.2), y.2)) <$>
        b.currentMessage e := by
  have hmessage : (b.after i x).message =
      b.message.map fun c => (c.1, b.interface.elim 0 (x.messagesAt i · c.1) + c.2) := rfl
  cases hm : b.message with
  | none => simp only [currentMessage, hmessage, hm]; rfl
  | some c =>
    simp only [currentMessage, hmessage, hm, Option.map_some, currentInterface_after,
      bind_map_left, map_bind, map_pure]
    refine bind_congr_of_ok fun y hy => ?_
    obtain ⟨j, y⟩ := y
    obtain ⟨hj, -⟩ := currentInterface_eq_ok.1 hy
    simp only [hj, Option.elim_some, Interface.getElem?_messages_afterAt]

theorem currentEnum_after (e : Element) :
    (b.after i x).currentEnum e =
      (fun y => ((y.1.1, x.enumsAt i y.1.1 + y.1.2), y.2)) <$> b.currentEnum e := by
  have henum : (b.after i x).enum = b.enum.map (b.interface.elim 0 (x.enumsAt i) + ·) := rfl
  cases he : b.enum with
  | none => simp only [currentEnum, henum, he]; rfl
  | some n =>
    simp only [currentEnum, henum, he, Option.map_some, currentInterface_after, bind_map_left,
      map_bind, map_pure]
    refine bind_congr_of_ok fun y hy => ?_
    obtain ⟨j, y⟩ := y
    obtain ⟨hj, -⟩ := currentInterface_eq_ok.1 hy
    simp only [hj, Option.elim_some, Interface.getElem?_enums_afterAt]

theorem checkNotCollecting_after (e : Element) :
    (b.after i x).checkNotCollecting e = b.checkNotCollecting e := by
  cases hc : b.pending <;> simp [checkNotCollecting, after, hc, Purpose.element_after]

theorem descriptionPlace_after :
    (b.after i x).descriptionPlace = (·.after i x) <$> b.descriptionPlace := by
  obtain ⟨protocol, interface, message, arg, enum, entry, pending⟩ := b
  cases protocol with
  | none => rfl
  | some p =>
    cases interface with
    | none => rfl
    | some i => cases message <;> cases arg <;> cases enum <;> cases entry <;> rfl

/-! ### Calls -/

variable (tag : Bytes)

theorem modify_after {f g : Protocol → Protocol}
    (h : ∀ p : Protocol, f (p.after i x) = (g p).after i x) :
    (b.after i x).modify f = (b.modify g).after i x := by
  cases hp : b.protocol <;> simp [modify, after, hp, h]

theorem startCopyright_after :
    (b.after i x).startCopyright = (·.after i x) <$> b.startCopyright := by
  simp only [startCopyright, currentProtocol_after, checkNotCollecting_after, bind_map_left,
    map_bind, map_pure]
  rfl

theorem startMessage_after (kind : MessageKind) :
    ((b.after i x).startMessage kind tag).result =
      (·.after i x) <$> (b.startMessage kind tag).result := by
  simp only [startMessage, Logged.result_bind, Logged.result_monadLift, Logged.result_note,
    Logged.result_pure, currentInterface_after, bind_map_left, map_bind]
  refine bind_congr fun as => bind_congr fun _ => bind_congr fun m => ?_
  refine bind_congr_of_ok fun y hy => ?_
  obtain ⟨j, y⟩ := y
  obtain ⟨hj, -⟩ := currentInterface_eq_ok.1 hy
  rw [modify_after b i x fun p => p.addMessage_after i x j kind m,
    Interface.length_messages_afterAt]
  refine bind_congr fun _ => congrArg Except.ok ?_
  simp [after, modify, hj]

theorem startArg_after : (b.after i x).startArg tag = (·.after i x) <$> b.startArg tag := by
  simp only [startArg, currentMessage_after, bind_map_left, map_bind, map_pure]
  refine bind_congr fun as => bind_congr fun a => bind_congr fun y => ?_
  obtain ⟨⟨j, kind, m⟩, y⟩ := y
  rw [modify_after b i x fun p => p.modifyMessage_after i x j kind m _]
  rfl

theorem startEnum_after : (b.after i x).startEnum tag = (·.after i x) <$> b.startEnum tag := by
  simp only [startEnum, currentInterface_after, bind_map_left, map_bind, map_pure]
  refine bind_congr fun as => bind_congr fun e => bind_congr_of_ok fun y hy => ?_
  obtain ⟨j, y⟩ := y
  obtain ⟨hj, -⟩ := currentInterface_eq_ok.1 hy
  rw [modify_after b i x fun p => p.addEnum_after i x j e, Interface.length_enums_afterAt]
  simp [after, modify, hj]

theorem startEntry_after : (b.after i x).startEntry tag = (·.after i x) <$> b.startEntry tag := by
  simp only [startEntry, currentEnum_after, bind_map_left, map_bind, map_pure]
  refine bind_congr fun as => bind_congr fun n => bind_congr fun y => ?_
  obtain ⟨⟨j, e⟩, y⟩ := y
  rw [modify_after b i x fun p => p.modifyEnum_after i x j e _]
  rfl

theorem startDescription_after :
    (b.after i x).startDescription tag = (·.after i x) <$> b.startDescription tag := by
  simp only [startDescription, checkNotCollecting_after, descriptionPlace_after, bind_map_left,
    map_bind, map_pure]
  rfl

theorem finishText_after : (b.after i x).finishText = (·.after i x) <$> b.finishText := by
  cases hc : b.pending with
  | none =>
    have hc' : (b.after i x).pending = none := by simp [after, hc]
    simp only [finishText, hc, hc']
    rfl
  | some c =>
    have hc' : (b.after i x).pending = some { c with purpose := c.purpose.after i x } := by
      simp [after, hc]
    obtain ⟨purpose, text⟩ := c
    simp only [finishText, hc, hc', Purpose.element_after, currentProtocol_after, bind_map_left]
    cases purpose with
    | copyright =>
      simp only [Purpose.after, map_bind, map_pure]
      rfl
    | description place summary =>
      simp only [Purpose.after, map_bind, Protocol.has_after, Protocol.describe_after]
      refine bind_congr fun p => ?_
      split <;> rfl

theorem close_after (name : Bytes) :
    (b.after i x).close name = (·.after i x) <$> b.close name := by
  unfold close
  split
  · exact b.finishText_after i x
  · exact b.finishText_after i x
  all_goals rfl

theorem text_after (s : String) : (b.after i x).text s = (b.text s).after i x := by
  cases hc : b.pending <;> simp [text, after, hc]

variable {b i}

theorem startInterface_after (hi : b.Has (.interface i)) :
    ((b.after i x).startInterface tag).result =
      (·.after i x) <$> (b.startInterface tag).result := by
  simp only [startInterface, Logged.result_bind, Logged.result_monadLift, Logged.result_note,
    Logged.result_pure, currentProtocol_after, bind_map_left, map_bind]
  refine bind_congr fun as => bind_congr fun y => bind_congr fun _ => ?_
  refine bind_congr_of_ok fun p hp => congrArg Except.ok ?_
  rw [currentProtocol_eq_ok] at hp
  obtain ⟨p', hp', hplace⟩ := hi
  cases hp.symm.trans hp'
  have hlt : i < p.interfaces.length := by
    simpa [Protocol.has, Protocol.interface?] using hplace
  rw [p.addInterface_after i x hlt]
  simp [after, Protocol.after, Protocol.modifyInterface]

/-- A start tag has the same effect, but for that of a second protocol. -/
theorem start_after (hi : b.Has (.interface i)) :
    ((b.after i x).start tag).result = (·.after i x) <$> (b.start tag).result := by
  cases he : Element.ofName? (localName (Tag.name tag)) with
  | none =>
    simp only [start, he, Logged.result_bind]
    rfl
  | some e =>
    simp only [start, he]
    cases e with
    | protocol =>
      -- A second protocol fails before its tag is looked at.
      obtain ⟨p, hp, -⟩ := hi
      have hp' : (b.after i x).protocol = some (p.after i x) := by simp [after, hp]
      simp only [startProtocol, hp, hp']
      rfl
    | copyright => exact b.startCopyright_after i x
    | interface => exact startInterface_after x tag hi
    | request => exact b.startMessage_after i x tag .request
    | event => exact b.startMessage_after i x tag .event
    | arg => exact b.startArg_after i x tag
    | enum => exact b.startEnum_after i x tag
    | entry => exact b.startEntry_after i x tag
    | description => exact b.startDescription_after i x tag

theorem apply_after (hi : b.Has (.interface i)) (c : Call) :
    (b.after i x).apply c = (·.after i x) <$> b.apply c := by
  cases c with
  | start tag => exact start_after x tag hi
  | close name => exact b.close_after i x name
  | text s => exact congrArg Except.ok (b.text_after i x s)

/-- A builder with the interface `i` goes on after the children of `x` as it does without them. -/
theorem applyAll_after (hb : b.Grounded) (hi : b.Has (.interface i)) (cs : List Call) :
    (b.after i x).applyAll cs = (·.after i x) <$> b.applyAll cs := by
  induction cs generalizing b with
  | nil => rfl
  | cons c cs ih =>
    rw [applyAll, applyAll, List.foldlM_cons, List.foldlM_cons, apply_after x hi, bind_map_left,
      map_bind]
    refine bind_congr_of_ok fun b' hb' => ?_
    rw [apply_eq_ok hb] at hb'
    exact ih (hb'.grounded hb) (hb'.has hi)

end Builder

end WaylandDoc
