import WaylandDoc.Proofs.Grounded
import WaylandDoc.Proofs.History
import WaylandDoc.Proofs.Skeleton

/-!
# Builders and histories

A builder that took some calls tracks them: each cursor leads to the node that the history has as
current, by its number in the list it is in, and text is collected as long as an element for it is
open. So the target of a description, which the builder reads off its cursors, is that of the
history.
-/

namespace WaylandDoc

namespace Builder

/-- The lists that the cursors lead to are as long as the history counts. -/
structure Counts (b : Builder) (past : History) : Prop where
  interfaces {p : Protocol} (h : b.protocol = some p) : p.interfaces.length = past.interfaceCount
  messages {p : Protocol} {i : Nat} {x : Interface} (h : b.protocol = some p)
    (hi : b.interface = some i) (hx : p.interface? i = some x) (kind : MessageKind) :
    (x.messages kind).length = past.messageCount kind
  enums {p : Protocol} {i : Nat} {x : Interface} (h : b.protocol = some p)
    (hi : b.interface = some i) (hx : p.interface? i = some x) :
    x.enums.length = past.enumCount
  args {p : Protocol} {i m : Nat} {kind : MessageKind} {x : Message} (h : b.protocol = some p)
    (hi : b.interface = some i) (hm : b.message = some (kind, m))
    (hx : p.message? i kind m = some x) : x.args.length = past.argCount
  entries {p : Protocol} {i e : Nat} {x : Enum} (h : b.protocol = some p)
    (hi : b.interface = some i) (he : b.enum = some e) (hx : p.enum? i e = some x) :
    x.entries.length = past.entryCount

structure Tracks (b : Builder) (past : History) : Prop where
  protocol : b.protocol.isSome = past.hasProtocol
  interface : b.interface = if past.hasInterface then some (past.interfaceCount - 1) else none
  message : b.message = if past.hasMessage
    then some (past.latestKind, past.messageCount past.latestKind - 1) else none
  arg : b.arg = if past.hasArg then some (past.argCount - 1) else none
  enum : b.enum = if past.hasEnum then some (past.enumCount - 1) else none
  entry : b.entry = if past.hasEntry then some (past.entryCount - 1) else none
  pending : past.openNames.countP isCollected = b.pending.isSome.toNat
  counts : b.Counts past

theorem tracks_empty : Tracks {} [] :=
  ⟨rfl, rfl, rfl, rfl, rfl, rfl, rfl, nofun, nofun, nofun, nofun, nofun⟩

variable {b b' : Builder} {past : History}

/-- Counts stay as they are if a call adds no node and the skeleton of the tree is the same. -/
theorem Counts.of_skeleton {c : Call} (h : b.Counts past)
    (hadds : ∀ e, e ≠ .protocol → e ≠ .copyright → e ≠ .description → c.starts e = false)
    (hp : b'.protocol.map Protocol.skeleton = b.protocol.map Protocol.skeleton)
    (hi : b'.interface = b.interface) (hm : ∀ m, b'.message = some m → b.message = some m)
    (he : ∀ e, b'.enum = some e → b.enum = some e) : b'.Counts (c :: past) := by
  have hprotocol {p' : Protocol} (h' : b'.protocol = some p') :
      ∃ p, b.protocol = some p ∧ p.skeleton = p'.skeleton := by
    rw [h', Option.map_some] at hp
    exact Option.map_eq_some_iff.1 hp.symm
  have hinterface {p' : Protocol} {i : Nat} {x' : Interface} (h' : b'.protocol = some p')
      (hx' : p'.interface? i = some x') :
      ∃ p x, b.protocol = some p ∧ p.interface? i = some x ∧ x.skeleton = x'.skeleton := by
    obtain ⟨p, hp, hs⟩ := hprotocol h'
    have hx := congrArg (·.interface? i) hs
    simp only [Protocol.interface?_skeleton, hx', Option.map_some] at hx
    obtain ⟨x, hx, hs⟩ := Option.map_eq_some_iff.1 hx
    exact ⟨p, x, hp, hx, hs⟩
  have hcount : c.starts .interface = false ∧ c.starts .request = false ∧
      c.starts .event = false ∧ c.starts .enum = false ∧ c.starts .arg = false ∧
      c.starts .entry = false :=
    ⟨hadds _ nofun nofun nofun, hadds _ nofun nofun nofun, hadds _ nofun nofun nofun,
      hadds _ nofun nofun nofun, hadds _ nofun nofun nofun, hadds _ nofun nofun nofun⟩
  constructor
  · intro p' h'
    obtain ⟨p, hp, hs⟩ := hprotocol h'
    have hlength := congrArg (·.interfaces.length) hs
    simp only [Protocol.skeleton, List.length_map] at hlength
    simp [← hlength, h.interfaces hp, hcount]
  · intro p' i x' h' hi' hx' kind
    obtain ⟨p, x, hp, hx, hs⟩ := hinterface h' hx'
    have hlength := congrArg (fun x => (Interface.messages x kind).length) hs
    simp only [Interface.messages_skeleton, List.length_map] at hlength
    rw [← hlength, h.messages hp (hi ▸ hi') hx]
    cases kind <;> simp [hcount, MessageKind.element]
  · intro p' i x' h' hi' hx'
    obtain ⟨p, x, hp, hx, hs⟩ := hinterface h' hx'
    have hlength := congrArg (·.enums.length) hs
    simp only [Interface.skeleton, List.length_map] at hlength
    rw [← hlength, h.enums hp (hi ▸ hi') hx]
    simp [hcount]
  · intro p' i m kind x' h' hi' hm' hx'
    obtain ⟨p, hp, hs⟩ := hprotocol h'
    have hx := congrArg (·.message? i kind m) hs
    simp only [Protocol.message?_skeleton, hx', Option.map_some] at hx
    obtain ⟨x, hx, hs⟩ := Option.map_eq_some_iff.1 hx
    have hlength := congrArg (·.args.length) hs
    simp only [Message.skeleton, List.length_map] at hlength
    rw [← hlength, h.args hp (hi ▸ hi') (hm _ hm') hx]
    simp [hcount, Call.startsMessage]
  · intro p' i e x' h' hi' he' hx'
    obtain ⟨p, hp, hs⟩ := hprotocol h'
    have hx := congrArg (·.enum? i e) hs
    simp only [Protocol.enum?_skeleton, hx', Option.map_some] at hx
    obtain ⟨x, hx, hs⟩ := Option.map_eq_some_iff.1 hx
    have hlength := congrArg (·.entries.length) hs
    simp only [Enum.skeleton, List.length_map] at hlength
    rw [← hlength, h.entries hp (hi ▸ hi') (he _ he') hx]
    simp [hcount]

theorem Tracks.text (h : b.Tracks past) (s : String) : (b.text s).Tracks (.text s :: past) := by
  have hcounts : (b.text s).Counts (.text s :: past) :=
    h.counts.of_skeleton (fun _ _ _ _ => rfl) rfl rfl (fun _ => id) (fun _ => id)
  obtain ⟨hp, hi, hm, ha, he, hn, hc, -⟩ := h
  refine ⟨?_, ?_, ?_, ?_, ?_, ?_, ?_, hcounts⟩ <;>
    simp [Builder.text, Call.startsMessage, Call.closesMessage, History.openNames, *]

/-! ## End tags -/

@[simp] theorem skeleton_store (c : Pending) (p : Protocol) :
    (store c p).skeleton = p.skeleton := by
  unfold store
  split
  · rfl
  · exact p.skeleton_describe _ _

theorem stored_protocol (b : Builder) :
    b.stored.protocol.map Protocol.skeleton = b.protocol.map Protocol.skeleton := by
  unfold stored
  split
  · rfl
  · cases h : b.protocol <;> simp [modify, h]

theorem stored_eq (b : Builder) :
    b.stored = { b with protocol := b.stored.protocol, pending := none } := by
  unfold stored
  split
  · rename_i h
    rw [← h]
  · rfl

theorem closed_protocol (b : Builder) (e : Option Element) :
    (b.closed e).protocol.map Protocol.skeleton = b.protocol.map Protocol.skeleton := by
  unfold closed
  split
  · exact b.stored_protocol
  · exact b.stored_protocol
  all_goals rfl

/-- An end tag changes no more of the tree than its texts. -/
theorem exists_of_closed {e : Option Element} {p' : Protocol}
    (h : (b.closed e).protocol = some p') :
    ∃ p, b.protocol = some p ∧ p.skeleton = p'.skeleton := by
  have hskeleton := b.closed_protocol e
  rw [h, Option.map_some, eq_comm, Option.map_eq_some_iff] at hskeleton
  exact hskeleton

/-- The end tag of an element with a text stores it. -/
theorem closed_of_isCollected (b : Builder) {name : Bytes} (hc : isCollected name) :
    b.closed (Element.ofName? name) = b.stored := by
  simp only [isCollected, Bool.or_eq_true, beq_iff_eq] at hc
  rcases hc with hc | hc <;> rw [hc] <;> rfl

/-- The element that ends is the one whose text is collected, if it has one. -/
theorem Tracks.stored (h : b.Tracks past) {name : Bytes} (hc : isCollected name)
    (hopen : past.openNames.head? = some name) : b.stored.Tracks (.close name :: past) := by
  have hprotocol := congrArg Option.isSome b.stored_protocol
  simp only [Option.isSome_map] at hprotocol
  have hcounts : b.stored.Counts (.close name :: past) := by
    rw [stored_eq]
    refine h.counts.of_skeleton (fun _ _ _ _ => rfl) b.stored_protocol rfl (fun _ => id) fun _ => id
  obtain ⟨hp, hi, hm, ha, he, hn, hpending, -⟩ := h
  have hclose (e : Element) (hcopyright : e ≠ .copyright) (hdescription : e ≠ .description) :
      (Call.close name).closes e = false := by
    simp only [isCollected, Bool.or_eq_true, beq_iff_eq] at hc
    rcases hc with hc | hc <;> simp [Call.closes_close, hc, hcopyright.symm, hdescription.symm]
  rw [stored_eq] at hcounts ⊢
  refine ⟨?_, ?_, ?_, ?_, ?_, ?_, ?_, hcounts⟩
  · simp [hprotocol, hp]
  · simp [hi]
  · simp [hm, hclose, Call.startsMessage, Call.closesMessage]
  · simp [ha, hclose, Call.startsMessage, Call.closesMessage]
  · simp [he, hclose]
  · simp [hn, hclose]
  · cases hnames : past.openNames with
    | nil => simp [hnames] at hopen
    | cons name' names =>
      rw [hnames, List.head?_cons, Option.some.injEq] at hopen
      subst hopen
      rw [hnames, List.countP_cons_of_pos hc] at hpending
      have hle := Bool.toNat_le b.pending.isSome
      simp only [History.openNames, hnames, List.tail_cons, Option.isSome_none, Bool.toNat_false]
      omega

theorem Tracks.closed (h : b.Tracks past) {name : Bytes}
    (hopen : past.openNames.head? = some name) :
    (b.closed (Element.ofName? name)).Tracks (.close name :: past) := by
  by_cases hc : isCollected name
  · rw [b.closed_of_isCollected hc]
    exact h.stored hc hopen
  · have hnames : past.openNames.tail.countP isCollected = past.openNames.countP isCollected := by
      obtain ⟨names, hnames⟩ := List.head?_eq_some_iff.1 hopen
      rw [hnames, List.countP_cons_of_neg hc, List.tail_cons]
    have hcounts : (b.closed (Element.ofName? name)).Counts (.close name :: past) := by
      refine h.counts.of_skeleton (fun _ _ _ _ => rfl) (b.closed_protocol _) ?_ ?_ ?_
      all_goals
        simp only [isCollected, Bool.or_eq_true, beq_iff_eq, not_or] at hc
        unfold Builder.closed
        split <;> simp_all
    obtain ⟨hp, hi, hm, ha, he, hn, hpending, -⟩ := h
    simp only [isCollected, Bool.or_eq_true, beq_iff_eq, not_or] at hc
    refine ⟨?_, ?_, ?_, ?_, ?_, ?_, ?_, hcounts⟩ <;>
      cases hname : Element.ofName? name with
      | none => simp [Builder.closed, Call.closes_close, Call.startsMessage, Call.closesMessage,
          History.openNames, *]
      | some e => cases e <;> simp_all [Builder.closed, Call.closes_close, Call.startsMessage, 
          Call.closesMessage, History.openNames]

/-! ## Start tags

For each element that adds a node: the lists of the new tree, then the cursors. -/

section Start

variable {tag : Bytes} {e : Element}

/-- A start tag that adds no node. -/
theorem Counts.start_of_skeleton (h : b.Counts past)
    (he : Element.ofName? (localName (Tag.name tag)) = some e)
    (hadds : e = .protocol ∨ e = .copyright ∨ e = .description)
    (hp : b'.protocol.map Protocol.skeleton = b.protocol.map Protocol.skeleton)
    (hi : b'.interface = b.interface) (hm : ∀ m, b'.message = some m → b.message = some m)
    (hn : ∀ e, b'.enum = some e → b.enum = some e) : b'.Counts (.start tag :: past) := by
  refine h.of_skeleton (fun e' h₁ h₂ h₃ => ?_) hp hi hm hn
  rw [Call.starts_start he]
  rcases hadds with rfl | rfl | rfl <;> simp [h₁.symm, h₂.symm, h₃.symm]

theorem Counts.startInterface {x : Interface} {p : Protocol} (h : b.Counts past)
    (hp : b.protocol = some p) (hx : x.Fresh)
    (he : Element.ofName? (localName (Tag.name tag)) = some .interface) :
    Counts { b with
      protocol := some (p.addInterface x), interface := some p.interfaces.length
      message := none, arg := none, enum := none, entry := none } (.start tag :: past) := by
  have hx' (p' : Protocol) (i : Nat) (y : Interface) (hp' : some (p.addInterface x) = some p')
      (hi : some p.interfaces.length = some i) (hy : p'.interface? i = some y) : y = x := by
    cases hp'
    cases hi
    simpa [Protocol.interface?, Protocol.addInterface, eq_comm] using hy
  constructor
  · intro p' hp'
    cases hp'
    simp [Protocol.addInterface, h.interfaces hp, Call.starts_start he]
  · intro p' i y hp' hi hy kind
    cases hx' p' i y hp' hi hy
    simp [hx.messages, Call.starts_start he]
  · intro p' i y hp' hi hy
    cases hx' p' i y hp' hi hy
    simp [hx.enums, Call.starts_start he]
  · intro p' i m kind y hp' hi hm
    cases hm
  · intro p' i e y hp' hi he
    cases he

theorem Counts.startMessage {kind : MessageKind} {m : Message} {p : Protocol} {i : Nat}
    {x : Interface} (h : b.Counts past) (hp : b.protocol = some p) (hi : b.interface = some i)
    (hx : p.interface? i = some x) (hm : m.Fresh)
    (he : Element.ofName? (localName (Tag.name tag)) = some kind.element) :
    Counts { b with
      protocol := some (p.modifyInterface i (·.addMessage kind m))
      message := some (kind, (x.messages kind).length), arg := none } (.start tag :: past) := by
  constructor
  · intro p' hp'
    cases hp'
    have := h.interfaces hp
    cases kind <;>
      simp [Protocol.modifyInterface, this, Call.starts_start he, MessageKind.element]
  · intro p' j y hp' hj hy kind'
    cases hp'
    cases hi.symm.trans hj
    rw [Protocol.interface?_modifyInterface, if_pos rfl, hx, Option.map_some] at hy
    cases hy
    rw [Interface.messages_addMessage]
    have := h.messages hp hi hx kind'
    cases kind <;> cases kind' <;> simpa [Call.starts_start he, MessageKind.element] using this
  · intro p' j y hp' hj hy
    cases hp'
    cases hi.symm.trans hj
    rw [Protocol.interface?_modifyInterface, if_pos rfl, hx, Option.map_some] at hy
    cases hy
    have := h.enums hp hi hx
    cases kind <;> simp [this, Call.starts_start he, MessageKind.element]
  · intro p' j n kind' y hp' hj hn hy
    cases hp'
    cases hi.symm.trans hj
    cases hn
    simp [Protocol.message?, Protocol.interface?_modifyInterface, hx,
      Interface.messages_addMessage] at hy
    subst hy
    cases kind <;> simp [hm.args, Call.starts_start he, MessageKind.element, Call.startsMessage]
  · intro p' j n y hp' hj hn hy
    cases hp'
    cases hi.symm.trans hj
    simp only [Protocol.enum?_modifyInterface, Interface.enums_addMessage, implies_true] at hy
    have := h.entries hp hi hn hy
    cases kind <;> simp [this, Call.starts_start he, MessageKind.element]

theorem Counts.startArg {a : Arg} {p : Protocol} {i m : Nat} {kind : MessageKind} {x : Message}
    (h : b.Counts past) (hp : b.protocol = some p) (hi : b.interface = some i)
    (hm : b.message = some (kind, m)) (hx : p.message? i kind m = some x)
    (he : Element.ofName? (localName (Tag.name tag)) = some .arg) :
    Counts { b with
      protocol := some (p.modifyMessage i kind m (·.addArg a)), arg := some x.args.length }
      (.start tag :: past) := by
  have hchildren (j : Nat) (y : Interface)
      (hy : (p.modifyMessage i kind m (·.addArg a)).interface? j = some y) :
      ∃ z, p.interface? j = some z ∧ y.enums = z.enums ∧
        ∀ kind', (y.messages kind').length = (z.messages kind').length := by
    rw [Protocol.modifyMessage, Protocol.interface?_modifyInterface] at hy
    split at hy
    · obtain ⟨z, hz, rfl⟩ := Option.map_eq_some_iff.1 hy
      refine ⟨z, hz, z.enums_modifyMessages kind _, fun kind' => ?_⟩
      rw [Interface.messages_modifyMessages]
      split
      · exact List.length_modify ..
      · rfl
    · exact ⟨y, hy, rfl, fun _ => rfl⟩
  constructor
  · intro p' hp'
    cases hp'
    simp [Protocol.modifyMessage, Protocol.modifyInterface, h.interfaces hp,
      Call.starts_start he]
  · intro p' j y hp' hj hy kind'
    cases hp'
    obtain ⟨z, hz, -, hlength⟩ := hchildren j y hy
    rw [hlength, h.messages hp hj hz]
    cases kind' <;> simp [Call.starts_start he, MessageKind.element]
  · intro p' j y hp' hj hy
    cases hp'
    obtain ⟨z, hz, henums, -⟩ := hchildren j y hy
    rw [henums, h.enums hp hj hz]
    simp [Call.starts_start he]
  · intro p' j n kind' y hp' hj hn hy
    cases hp'
    cases hi.symm.trans hj
    cases hm.symm.trans hn
    rw [Protocol.message?_modifyMessage, if_pos ⟨rfl, rfl, rfl⟩, hx, Option.map_some] at hy
    cases hy
    simp [Message.addArg, h.args hp hi hm hx, Call.starts_start he, Call.startsMessage]
  · intro p' j n y hp' hj hn hy
    cases hp'
    rw [Protocol.enum?_modifyMessage] at hy
    rw [h.entries hp hj hn hy]
    simp [Call.starts_start he]

theorem Counts.startEnum {n : Enum} {p : Protocol} {i : Nat} {x : Interface} (h : b.Counts past)
    (hp : b.protocol = some p) (hi : b.interface = some i) (hx : p.interface? i = some x)
    (hn : n.Fresh) (he : Element.ofName? (localName (Tag.name tag)) = some .enum) :
    Counts { b with
      protocol := some (p.modifyInterface i (·.addEnum n)), enum := some x.enums.length
      entry := none } (.start tag :: past) := by
  constructor
  · intro p' hp'
    cases hp'
    simp [Protocol.modifyInterface, h.interfaces hp, Call.starts_start he]
  · intro p' j y hp' hj hy kind
    cases hp'
    cases hi.symm.trans hj
    rw [Protocol.interface?_modifyInterface, if_pos rfl, hx, Option.map_some] at hy
    cases hy
    rw [Interface.messages_addEnum, h.messages hp hi hx]
    cases kind <;> simp [Call.starts_start he, MessageKind.element]
  · intro p' j y hp' hj hy
    cases hp'
    cases hi.symm.trans hj
    rw [Protocol.interface?_modifyInterface, if_pos rfl, hx, Option.map_some] at hy
    cases hy
    simp [Interface.addEnum, h.enums hp hi hx, Call.starts_start he]
  · intro p' j m kind y hp' hj hm hy
    cases hp'
    simp only [Protocol.message?_modifyInterface, Interface.messages_addEnum, implies_true] at hy
    rw [h.args hp hj hm hy]
    simp [Call.starts_start he, Call.startsMessage]
  · intro p' j k y hp' hj hk hy
    cases hp'
    cases hi.symm.trans hj
    cases hk
    simp [Protocol.enum?, Protocol.interface?_modifyInterface, hx, Interface.addEnum] at hy
    subst hy
    simp [hn.entries, Call.starts_start he]

theorem Counts.startEntry {n : Entry} {p : Protocol} {i k : Nat} {x : Enum} (h : b.Counts past)
    (hp : b.protocol = some p) (hi : b.interface = some i) (hk : b.enum = some k)
    (hx : p.enum? i k = some x) (he : Element.ofName? (localName (Tag.name tag)) = some .entry) :
    Counts { b with
      protocol := some (p.modifyEnum i k (·.addEntry n)), entry := some x.entries.length }
      (.start tag :: past) := by
  have hchildren (j : Nat) (y : Interface)
      (hy : (p.modifyEnum i k (·.addEntry n)).interface? j = some y) :
      ∃ z, p.interface? j = some z ∧ y.enums.length = z.enums.length ∧
        ∀ kind, y.messages kind = z.messages kind := by
    rw [Protocol.modifyEnum, Protocol.interface?_modifyInterface] at hy
    split at hy
    · obtain ⟨z, hz, rfl⟩ := Option.map_eq_some_iff.1 hy
      exact ⟨z, hz, List.length_modify .., fun kind => by cases kind <;> rfl⟩
    · exact ⟨y, hy, rfl, fun _ => rfl⟩
  constructor
  · intro p' hp'
    cases hp'
    simp [Protocol.modifyEnum, Protocol.modifyInterface, h.interfaces hp, Call.starts_start he]
  · intro p' j y hp' hj hy kind
    cases hp'
    obtain ⟨z, hz, -, hmessages⟩ := hchildren j y hy
    rw [hmessages, h.messages hp hj hz]
    cases kind <;> simp [Call.starts_start he, MessageKind.element]
  · intro p' j y hp' hj hy
    cases hp'
    obtain ⟨z, hz, hlength, -⟩ := hchildren j y hy
    rw [hlength, h.enums hp hj hz]
    simp [Call.starts_start he]
  · intro p' j m kind y hp' hj hm hy
    cases hp'
    rw [Protocol.message?_modifyEnum] at hy
    rw [h.args hp hj hm hy]
    simp [Call.starts_start he, Call.startsMessage]
  · intro p' j l y hp' hj hl hy
    cases hp'
    cases hi.symm.trans hj
    cases hk.symm.trans hl
    rw [Protocol.enum?_modifyEnum, if_pos ⟨rfl, rfl⟩, hx, Option.map_some] at hy
    cases hy
    simp [Enum.addEntry, h.entries hp hi hk hx, Call.starts_start he]

theorem Tracks.interfaceCount_eq_zero (h : b.Tracks past) (hi : b.interface = none) :
    past.interfaceCount = 0 := by
  have hnone : past.hasInterface = false := by
    rw [h.interface] at hi
    cases hh : past.hasInterface with
    | false => rfl
    | true => simp [hh] at hi
  rw [History.interfaceCount, List.countP_eq_zero]
  simpa [History.hasInterface] using hnone

theorem Grounded.interface_eq_none (hb : b.Grounded) (hp : b.protocol = none) :
    b.interface = none := by
  cases hi : b.interface with
  | none => rfl
  | some i =>
    obtain ⟨q, hq, -⟩ := hb.interface hi
    simp [hp] at hq

theorem Counts.startProtocol {p : Protocol} (h : b.Tracks past) (hb : b.Grounded)
    (hp : b.protocol = none) (hd : Declares Protocol.declare tag p)
    (he : Element.ofName? (localName (Tag.name tag)) = some .protocol) :
    Counts { b with protocol := some p } (.start tag :: past) := by
  have hi := hb.interface_eq_none hp
  constructor
  · intro p' hp'
    cases hp'
    simp [Protocol.interfaces_of_declares hd, h.interfaceCount_eq_zero hi, Call.starts_start he]
  all_goals
    intros
    simp_all

/-- A start tag that the builder takes. -/
theorem Tracks.start (h : b.Tracks past) (hb : b.Grounded)
    (he : Element.ofName? (localName (Tag.name tag)) = some e) (hs : b.Starts tag e b') :
    b'.Tracks (.start tag :: past) := by
  have hstarts := Call.starts_start he
  have hmessage := Call.startsMessage_start he
  have hkind := Call.messageKind?_start he
  have hnames : (History.openNames (.start tag :: past)).countP isCollected =
      past.openNames.countP isCollected + if isCollected (localName (Tag.name tag)) then 1 else 0 :=
    List.countP_cons
  simp only [isCollected, he] at hnames
  have hprotocol {p : Protocol} (hp : b.protocol = some p) : past.hasProtocol = true := by
    rw [← h.protocol, hp]
    rfl
  cases hs with
  | protocol hd hp =>
    have hcounts := Counts.startProtocol h hb hp hd he
    obtain ⟨-, hi, hm, ha, hn, hk, hc, -⟩ := h
    refine ⟨?_, ?_, ?_, ?_, ?_, ?_, ?_, hcounts⟩ <;>
      simp [Element.messageKind?, Element.beq_element, *]
  | copyright hp hpending =>
    have hcounts : Counts { b with pending := some { purpose := .copyright } }
        (.start tag :: past) :=
      h.counts.start_of_skeleton he (by simp) rfl rfl (fun _ => id) fun _ => id
    obtain ⟨-, hi, hm, ha, hn, hk, hc, -⟩ := h
    have hprotocol := hprotocol hp
    refine ⟨?_, ?_, ?_, ?_, ?_, ?_, ?_, hcounts⟩ <;>
      simp [Element.messageKind?, Element.beq_element, *]
  | @description s place hd hpending hplace =>
    have hcounts : Counts { b with pending := some { purpose := .description place s } }
        (.start tag :: past) :=
      h.counts.start_of_skeleton he (by simp) rfl rfl (fun _ => id) fun _ => id
    obtain ⟨hp, hi, hm, ha, hn, hk, hc, -⟩ := h
    refine ⟨?_, ?_, ?_, ?_, ?_, ?_, ?_, hcounts⟩ <;>
      simp [Element.messageKind?, Element.beq_element, *]
  | @interface x p hd hp =>
    have hcounts := h.counts.startInterface hp (Interface.declaredBy hd).2 he
    have hlength := h.counts.interfaces hp
    have hprotocol := hprotocol hp
    obtain ⟨-, hi, hm, ha, hn, hk, hc, -⟩ := h
    refine ⟨?_, ?_, ?_, ?_, ?_, ?_, ?_, hcounts⟩ <;>
      simp [Element.messageKind?, *]
  | @message e kind m p i x hel hd hp hi hx =>
    subst hel
    have hcounts := h.counts.startMessage hp hi hx (Message.declaredBy hd).2 he
    have hprotocol := hprotocol hp
    rw [h.counts.messages hp hi hx kind] at hcounts ⊢
    clear hp hi hx
    obtain ⟨-, hi, hm, ha, hn, hk, hc, -⟩ := h
    refine ⟨?_, ?_, ?_, ?_, ?_, ?_, ?_, hcounts⟩ <;>
      cases kind <;> simp_all [MessageKind.element, Element.messageKind?]
  | @arg a p i kind m x hd hp hi hm hx =>
    have hcounts := h.counts.startArg (a := a) hp hi hm hx he
    have hprotocol := hprotocol hp
    rw [h.counts.args hp hi hm hx] at hcounts ⊢
    clear hp hi hm hx
    obtain ⟨-, hi, hm, ha, hn, hk, hc, -⟩ := h
    refine ⟨?_, ?_, ?_, ?_, ?_, ?_, ?_, hcounts⟩ <;>
      simp [Element.messageKind?, Element.beq_element, *]
  | @enum n p i x hd hp hi hx =>
    have hcounts := h.counts.startEnum hp hi hx (Enum.declaredBy hd).2 he
    have hprotocol := hprotocol hp
    rw [h.counts.enums hp hi hx] at hcounts ⊢
    clear hp hi hx
    obtain ⟨-, hi, hm, ha, hn, hk, hc, -⟩ := h
    refine ⟨?_, ?_, ?_, ?_, ?_, ?_, ?_, hcounts⟩ <;>
      simp [Element.messageKind?, Element.beq_element, *]
  | @entry n p i k x hd hp hi hk hx =>
    have hcounts := h.counts.startEntry (n := n) hp hi hk hx he
    have hprotocol := hprotocol hp
    rw [h.counts.entries hp hi hk hx] at hcounts ⊢
    clear hp hi hk hx
    obtain ⟨-, hi, hm, ha, hn, hk, hc, -⟩ := h
    refine ⟨?_, ?_, ?_, ?_, ?_, ?_, ?_, hcounts⟩ <;>
      simp [Element.messageKind?, Element.beq_element, *]

end Start

/-! ## Runs -/

/-- The start tag of an element that is not in the schema. -/
theorem Tracks.ignore (h : b.Tracks past) {tag : Bytes}
    (he : Element.ofName? (localName (Tag.name tag)) = none) : b.Tracks (.start tag :: past) := by
  have hstarted : (Call.start tag).started? = none := he
  have hstarts (e : Element) : (Call.start tag).starts e = false := by simp [Call.starts, hstarted]
  have hkind : (Call.start tag).messageKind? = none := by simp [Call.messageKind?, hstarted]
  have hmessage : (Call.start tag).startsMessage = false := by simp [Call.startsMessage, hstarts]
  have hnames : (History.openNames (.start tag :: past)).countP isCollected =
      past.openNames.countP isCollected :=
    List.countP_cons_of_neg (by simp [isCollected, he])
  have hcounts : b.Counts (.start tag :: past) :=
    h.counts.of_skeleton (fun e _ _ _ => hstarts e) rfl rfl (fun _ => id) fun _ => id
  obtain ⟨hp, hi, hm, ha, hn, hk, hc, -⟩ := h
  refine ⟨?_, ?_, ?_, ?_, ?_, ?_, ?_, hcounts⟩ <;> simp [*]

theorem Takes.tracks {c : Call} (h : b.Takes c b') (hb : b.Grounded) (ht : b.Tracks past)
    (hn : History.Nested (c :: past)) : b'.Tracks (c :: past) := by
  cases h with
  | start he hs => exact ht.start hb he hs
  | ignore he => exact ht.ignore he
  | close name => exact ht.closed hn.1
  | text s => exact ht.text s

/-- What every call of a nested run keeps holds at the end of the run. -/
theorem applyAll_induction {P : Builder → History → Prop}
    (hstep : ∀ {b b' : Builder} {c : Call} {past : History}, b.Grounded → b.Tracks past →
      History.Nested (c :: past) → b.Takes c b' → P b past → P b' (c :: past))
    {cs : List Call} (h : P b past) (hb : b.Grounded) (ht : b.Tracks past)
    (hn : History.Nested (cs.reverse ++ past)) (hcs : b.applyAll cs = .ok b') :
    P b' (cs.reverse ++ past) := by
  induction cs generalizing b past with
  | nil =>
    cases hcs
    exact h
  | cons c cs ih =>
    obtain ⟨b₁, hc, hcs⟩ := applyAll_cons_eq_ok.1 hcs
    rw [List.reverse_cons, List.append_assoc] at hn ⊢
    have htakes := (apply_eq_ok hb).1 hc
    have hn₁ := hn.of_append
    exact ih (hstep hb ht hn₁ htakes h) (htakes.grounded hb) (htakes.tracks hb ht hn₁) hn hcs

/-- A builder that took nested calls tracks them. -/
theorem Tracks.applyAll {cs : List Call} (hb : b.Grounded) (ht : b.Tracks past)
    (hn : History.Nested (cs.reverse ++ past)) (h : b.applyAll cs = .ok b') :
    b'.Tracks (cs.reverse ++ past) :=
  applyAll_induction (fun hb ht hn hc _ => hc.tracks hb ht hn) ht hb ht hn h

/-- A description that starts now is for the target of the history. -/
theorem Tracks.descriptionPlace (ht : b.Tracks past) (hb : b.Grounded)
    (hp : past.hasProtocol = true) : b.descriptionPlace = .ok past.target := by
  obtain ⟨p, hprotocol⟩ := Option.isSome_iff_exists.1 (ht.protocol.trans hp)
  have hentry {n : Nat} (h : b.entry = some n) :
      past.hasEnum = true ∧ past.hasInterface = true := by
    obtain ⟨i, e, hi, he, -⟩ := hb.entry h
    rw [ht.enum] at he
    rw [ht.interface] at hi
    grind
  have harg {a : Nat} (h : b.arg = some a) :
      past.hasMessage = true ∧ past.hasInterface = true := by
    obtain ⟨i, kind, m, hi, hm, -⟩ := hb.arg h
    rw [ht.message] at hm
    rw [ht.interface] at hi
    grind
  have hmessage {kind : MessageKind} {m : Nat} (h : b.message = some (kind, m)) :
      past.hasInterface = true := by
    obtain ⟨i, hi, -⟩ := hb.message h
    rw [ht.interface] at hi
    grind
  have henum {e : Nat} (h : b.enum = some e) : past.hasInterface = true := by
    obtain ⟨i, hi, -⟩ := hb.enum h
    rw [ht.interface] at hi
    grind
  obtain ⟨-, hi, hm, ha, he, hn, -, -⟩ := ht
  unfold History.target Builder.descriptionPlace
  simp only [hprotocol]
  split <;> grind

end Builder

end WaylandDoc
