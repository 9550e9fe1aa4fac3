import WaylandDoc.Proofs.CharacterData
import WaylandDoc.Proofs.Earlier
import WaylandDoc.Proofs.Growth
import WaylandDoc.Proofs.RoundTrip

/-!
# Children side by side

An item is a child of an interface, or what stands between two. It adds to one part of the interface
and leaves the cursors as it found them, so it has the same effect wherever it stands
(`Builder.applyAll_item`).
-/

namespace WaylandDoc

/-! ## Parts of an interface -/

/-- What the children of an interface add to. -/
inductive Part where
  | messages (kind : MessageKind)
  | enums
  | description
  deriving DecidableEq, Repr

/-- The part that a child with the element is for. -/
def Element.part? : Element → Option Part
  | request => some (.messages .request)
  | event => some (.messages .event)
  | enum => some .enums
  | description => some .description
  | protocol | copyright | interface | arg | entry => none

/-- The elements of the schema that may be inside of a child for the part. -/
def Part.allows : Option Part → Element → Bool
  | some (messages _), .arg => true
  | some (messages _), .description => true
  | some enums, .entry => true
  | some enums, .description => true
  | _, _ => false

/-- The nodes that a child for the part adds to the interface `i`, and those below them. -/
def Part.Owns (i : Nat) : Option Part → Place → Prop
  | some (messages kind), .message j kind' _ => j = i ∧ kind' = kind
  | some (messages kind), .arg j kind' _ _ => j = i ∧ kind' = kind
  | some enums, .enum j _ => j = i
  | some enums, .entry j _ _ => j = i
  | some description, .interface j => j = i
  | _, _ => False

theorem Part.allows_cases {part : Option Part} {e : Element} (h : allows part e) :
    (e = .arg ∧ ∃ kind, part = some (messages kind)) ∨ (e = .entry ∧ part = some enums) ∨
      (e = .description ∧ part ≠ none) := by
  unfold allows at h
  split at h <;> simp_all

theorem Part.not_owns_protocol {i : Nat} {part : Option Part} : ¬ Owns i part .protocol := by
  unfold Owns
  split <;> simp_all

/-- The interface without the part. -/
def Interface.without (x : Interface) : Option Part → Interface
  | some (.messages kind) => { x.modifyMessages kind fun _ => [] with since := 1 }
  | some .enums => { x with enums := [] }
  | some .description => { x with description := none }
  | none => x

/-- A child of an interface with its part, or what stands between two. -/
inductive IsItem : Option Part → List Token → Prop where
  | element {e : Element} {part : Part} {tag : Bytes} {inner tokens : List Token}
      (he : Element.ofName? (localName (Tag.name tag)) = some e) (hpart : e.part? = some part)
      (hspans : Token.Spans tag inner tokens)
      (hinner : ∀ c ∈ inner.flatMap Token.calls, ∀ e ∈ c.started?, Part.allows part e) :
      IsItem (some part) tokens
  | other {tokens : List Token} (hbalanced : Token.Balanced tokens)
      (hknown : ∀ c ∈ tokens.flatMap Token.calls, c.started? = none) : IsItem none tokens

structure Item where
  part? : Option Part
  tokens : List Token
  isItem : IsItem part? tokens

namespace Item

variable (item : Item)

def calls : List Call := item.tokens.flatMap Token.calls

theorem openAfter_tokens (names : List Bytes) :
    Token.openAfter names item.tokens = some names := by
  obtain ⟨part?, tokens, h⟩ := item
  cases h with
  | element he hpart hspans hinner => exact hspans.openAfter_eq names
  | other hbalanced hknown => exact Token.openAfter_append_right hbalanced names

end Item

/-! ## End tags -/

namespace History

variable {past : History} {name : Bytes}

theorem exists_start_of_mem_openNames (h : name ∈ past.openNames) :
    ∃ tag, .start tag ∈ past ∧ localName (Tag.name tag) = name := by
  induction past with
  | nil => cases h
  | cons c past ih =>
    cases c with
    | start tag =>
      rcases List.mem_cons.1 h with rfl | h
      · exact ⟨tag, List.mem_cons_self, rfl⟩
      · obtain ⟨tag', htag', hname⟩ := ih h
        exact ⟨tag', List.mem_cons_of_mem _ htag', hname⟩
    | close name' =>
      obtain ⟨tag', htag', hname⟩ := ih (List.mem_of_mem_tail h)
      exact ⟨tag', List.mem_cons_of_mem _ htag', hname⟩
    | text s =>
      obtain ⟨tag', htag', hname⟩ := ih h
      exact ⟨tag', List.mem_cons_of_mem _ htag', hname⟩

/-- Only what was started ends. -/
theorem Nested.exists_start (h : past.Nested) (hclose : .close name ∈ past) :
    ∃ tag, .start tag ∈ past ∧ localName (Tag.name tag) = name := by
  induction past with
  | nil => cases hclose
  | cons c past ih =>
    have hlater (h : Nested past) (hclose : .close name ∈ past) :
        ∃ tag, .start tag ∈ c :: past ∧ localName (Tag.name tag) = name := by
      obtain ⟨tag, htag, hname⟩ := ih h hclose
      exact ⟨tag, List.mem_cons_of_mem _ htag, hname⟩
    cases c with
    | start tag => exact hlater h (by simpa using hclose)
    | text s => exact hlater h (by simpa using hclose)
    | close name' =>
      rcases List.mem_cons.1 hclose with hname | hclose
      · cases hname
        obtain ⟨tag, htag, hname⟩ := exists_start_of_mem_openNames (List.mem_of_mem_head? h.1)
        exact ⟨tag, List.mem_cons_of_mem _ htag, hname⟩
      · exact hlater h.2 hclose

end History

/-- Balanced tokens end the elements that they start. -/
theorem Token.Balanced.exists_started {ts : List Token} (h : Token.Balanced ts) {c : Call}
    (hc : c ∈ ts.flatMap Token.calls) {e : Element} (he : c.closed? = some e) :
    ∃ c' ∈ ts.flatMap Token.calls, c'.started? = some e := by
  cases c with
  | close name =>
    obtain ⟨hnested, -⟩ := History.nested_of_balanced h
    obtain ⟨tag, htag, rfl⟩ := hnested.exists_start (List.mem_reverse.2 hc)
    exact ⟨.start tag, List.mem_reverse.1 htag, he⟩
  | start tag | text s => cases he

/-! ## Trees without a part -/

namespace Interface

variable (x : Interface) (kind : MessageKind)

theorem head_without (part : Option Part) : (x.without part).head = x.head := by
  rcases part with _ | kind | _ | _
  · rfl
  · cases kind <;> rfl
  · rfl
  · rfl

theorem without_head (part : Option Part) : x.head.without part = x.head := by
  rcases part with _ | kind | _ | _
  · rfl
  · cases kind <;> rfl
  · rfl
  · rfl

theorem messages_head : x.head.messages kind = [] := by
  cases kind <;> rfl

section Frame

variable {part : Option Part}

theorem messages_without (h : part ≠ some (.messages kind)) :
    (x.without part).messages kind = x.messages kind := by
  rcases part with _ | kind' | _ | _
  · rfl
  · cases kind <;> cases kind' <;> first | rfl | exact absurd rfl h
  · cases kind <;> rfl
  · cases kind <;> rfl

theorem enums_without (h : part ≠ some .enums) : (x.without part).enums = x.enums := by
  rcases part with _ | kind | _ | _
  · rfl
  · cases kind <;> rfl
  · exact absurd rfl h
  · rfl

theorem description_without (h : part ≠ some .description) :
    (x.without part).description = x.description := by
  rcases part with _ | kind | _ | _
  · rfl
  · cases kind <;> rfl
  · rfl
  · exact absurd rfl h

end Frame

theorem without_addMessage (m : Message) :
    (x.addMessage kind m).without (some (.messages kind)) =
      x.without (some (.messages kind)) := by
  cases kind <;> rfl

theorem without_modifyMessages (f : List Message → List Message) :
    (x.modifyMessages kind f).without (some (.messages kind)) =
      x.without (some (.messages kind)) := by
  cases kind <;> rfl

end Interface

namespace Protocol

variable (p : Protocol) {i : Nat} {part : Option Part}

theorem modifyInterface_without {f : Interface → Interface}
    (h : ∀ y : Interface, (f y).without part = y.without part) :
    (p.modifyInterface i f).modifyInterface i (·.without part) =
      p.modifyInterface i (·.without part) := by
  simp only [modifyInterface, List.modify_modify_eq]
  exact congrArg (fun f => { p with interfaces := p.interfaces.modify i f }) (funext h)

/-- A description of a node that is for the part is away with it. -/
theorem describe_without {place : Place} (h : Part.Owns i part place) (d : Description) :
    (p.describe d place).modifyInterface i (·.without part) =
      p.modifyInterface i (·.without part) := by
  unfold Part.Owns at h
  split at h
  · obtain ⟨rfl, rfl⟩ := h
    exact p.modifyInterface_without fun y => y.without_modifyMessages _ _
  · obtain ⟨rfl, rfl⟩ := h
    exact p.modifyInterface_without fun y => y.without_modifyMessages _ _
  · subst h
    exact p.modifyInterface_without fun _ => rfl
  · subst h
    exact p.modifyInterface_without fun _ => rfl
  · subst h
    exact p.modifyInterface_without fun _ => rfl
  · cases h

end Protocol

/-! ## Builders inside of a child -/

namespace Builder

variable {b b' : Builder} {i : Nat} {t : Protocol} {part : Option Part}

/-- The cursors lead to a child for the part, and none does without one. -/
def Points (b : Builder) : Option Part → Prop
  | some (.messages kind) => (∃ m, b.message = some (kind, m)) ∧ b.enum = none ∧ b.entry = none
  | some .enums => b.message = none ∧ b.arg = none ∧ ∃ e, b.enum = some e
  | _ => b.message = none ∧ b.arg = none ∧ b.enum = none ∧ b.entry = none

/-- The builder is in a child for the part of the interface `i`, and the tree without that part is
`t`. -/
structure Within (b : Builder) (i : Nat) (t : Protocol) (part : Option Part) : Prop where
  tree : b.protocol.map (·.modifyInterface i (·.without part)) = some t
  interface : b.interface = some i
  cursors : b.Points part
  pending {c : Pending} (h : b.pending = some c) : Part.Owns i part c.purpose.place

theorem owns_descriptionPlace {place : Place} (hpart : part ≠ none) (hi : b.interface = some i)
    (hb : b.Points part) (h : b.descriptionPlace = .ok place) : Part.Owns i part place := by
  obtain ⟨protocol, interface, message, arg, enum, entry, pending⟩ := b
  cases hi
  cases protocol with
  | none => cases h
  | some p =>
    cases part with
    | none => cases hpart rfl
    | some part =>
      cases part with
      | messages kind =>
        obtain ⟨⟨m, hm⟩, he, hn⟩ := hb
        cases hm
        cases he
        cases hn
        cases arg <;> cases h <;> exact ⟨rfl, rfl⟩
      | enums =>
        obtain ⟨hm, ha, e, he⟩ := hb
        cases hm
        cases ha
        cases he
        cases entry <;> cases h <;> rfl
      | description =>
        obtain ⟨hm, ha, he, hn⟩ := hb
        cases hm
        cases ha
        cases he
        cases hn
        cases h
        rfl

namespace Within

theorem stored (h : b.Within i t part) : b.stored.Within i t part := by
  unfold Builder.stored
  cases hc : b.pending with
  | none => exact h
  | some c =>
    have howns := h.pending hc
    obtain ⟨purpose, text⟩ := c
    cases purpose with
    | copyright => cases Part.not_owns_protocol howns
    | description place summary =>
      refine ⟨?_, h.interface, h.cursors, nofun⟩
      have hstore : ∀ p : Protocol,
          (store ⟨.description place summary, text⟩ p).modifyInterface i (·.without part) =
            p.modifyInterface i (·.without part) := fun p => p.describe_without howns _
      simpa [modify, Function.comp_def, hstore] using h.tree

theorem start (h : b.Within i t part) {tag : Bytes} {e : Element} (hs : b.Starts tag e b')
    (he : Part.allows part e) : b'.Within i t part := by
  rcases Part.allows_cases he with ⟨rfl, kind, rfl⟩ | ⟨rfl, rfl⟩ | ⟨rfl, hpart⟩
  · cases hs with
    | @message e kind m p j x hkind => cases kind <;> cases hkind
    | @arg a p j kind' m x hd hp hi hm hx =>
      obtain ⟨⟨m', hm'⟩, hcursors⟩ := h.cursors
      cases hm'.symm.trans hm
      cases h.interface.symm.trans hi
      refine ⟨?_, hi, ⟨⟨m, hm⟩, hcursors⟩, h.pending⟩
      rw [← h.tree, hp]
      exact congrArg some (p.modifyInterface_without fun y => y.without_modifyMessages _ _)
  · cases hs with
    | @message e kind m p j x hkind => cases kind <;> cases hkind
    | @entry n p j k x hd hp hi hk hx =>
      cases h.interface.symm.trans hi
      refine ⟨?_, hi, h.cursors, h.pending⟩
      rw [← h.tree, hp]
      exact congrArg some (p.modifyInterface_without fun _ => rfl)
  · cases hs with
    | @message e kind m p j x hkind => cases kind <;> cases hkind
    | description hd hc hplace =>
      refine ⟨h.tree, h.interface, h.cursors, fun hc => ?_⟩
      cases hc
      exact owns_descriptionPlace hpart h.interface h.cursors hplace

theorem closed (h : b.Within i t part) {e : Option Element}
    (he : ∀ e', e = some e' → Part.allows part e') : (b.closed e).Within i t part := by
  cases e with
  | none => exact h
  | some e =>
    rcases Part.allows_cases (he e rfl) with ⟨rfl, kind, rfl⟩ | ⟨rfl, rfl⟩ | ⟨rfl, hpart⟩
    · exact ⟨h.tree, h.interface, h.cursors, h.pending⟩
    · exact ⟨h.tree, h.interface, h.cursors, h.pending⟩
    · exact h.stored

theorem text (h : b.Within i t part) (s : String) : (b.text s).Within i t part := by
  refine ⟨h.tree, h.interface, h.cursors, fun htext => ?_⟩
  obtain ⟨c, hc, rfl⟩ := Option.map_eq_some_iff.1 htext
  exact h.pending (c := c) hc

theorem takes {c : Call} (h : b.Within i t part) (hc : b.Takes c b')
    (hstarted : ∀ e ∈ c.started?, Part.allows part e)
    (hclosed : ∀ e ∈ c.closed?, Part.allows part e) : b'.Within i t part := by
  cases hc with
  | start he hs => exact h.start hs (hstarted _ he)
  | ignore he => exact h
  | close name => exact h.closed hclosed
  | text s => exact h.text s

theorem applyAll {cs : List Call} (h : b.Within i t part) (hb : b.Grounded)
    (hstarted : ∀ c ∈ cs, ∀ e ∈ c.started?, Part.allows part e)
    (hclosed : ∀ c ∈ cs, ∀ e ∈ c.closed?, Part.allows part e)
    (hcs : b.applyAll cs = .ok b') : b'.Within i t part := by
  induction cs generalizing b with
  | nil =>
    cases hcs
    exact h
  | cons c cs ih =>
    obtain ⟨b₁, hc, hcs⟩ := applyAll_cons_eq_ok.1 hcs
    rw [List.forall_mem_cons] at hstarted hclosed
    have htakes := (apply_eq_ok hb).1 hc
    exact ih (h.takes htakes hstarted.1 hclosed.1) (htakes.grounded hb) hstarted.2 hclosed.2 hcs

/-- What is inside of a child does not leave it. -/
theorem tokens {ts : List Token} (h : b.Within i t part) (hb : b.Grounded)
    (hbalanced : Token.Balanced ts)
    (hstarted : ∀ c ∈ ts.flatMap Token.calls, ∀ e ∈ c.started?, Part.allows part e)
    (hts : b.applyAll (ts.flatMap Token.calls) = .ok b') : b'.Within i t part := by
  refine h.applyAll hb hstarted (fun c hc e he => ?_) hts
  obtain ⟨c', hc', he'⟩ := hbalanced.exists_started hc he
  exact hstarted c' hc' e he'

end Within

/-! ## Builders around a child -/

variable {q : Protocol} {x y : Interface}

theorem grounded_inInterface (q : Protocol) (x : Interface) : (inInterface q x).Grounded := by
  refine ⟨fun h => ?_, nofun, nofun, nofun, nofun, nofun⟩
  cases h
  exact ⟨_, rfl, by simp [Protocol.has]⟩

theorem after_inInterface (q : Protocol) (x y : Interface) :
    (inInterface q y).after q.interfaces.length x = inInterface q (y.after x) := by
  simp [inInterface, after, Protocol.after]

/-- A builder in an interface does what it does in one without children. -/
theorem applyAll_inInterface (q : Protocol) (x : Interface) (cs : List Call) :
    (inInterface q x).applyAll cs =
      (·.after q.interfaces.length x) <$> (inInterface q x.head).applyAll cs := by
  have hhead : x.head.after x = x := by simp [Interface.head, Interface.after]
  have hb := grounded_inInterface q x.head
  rw [← applyAll_after x hb (hb.interface rfl), after_inInterface, hhead]

/-- Only the last interface, and in it only the part, can be another. -/
theorem eq_inInterface (htree : b.protocol.map
      (·.modifyInterface q.interfaces.length (·.without part)) = some (q.addInterface x))
    (hi : b.interface = some q.interfaces.length) (hcursors : b.Points none)
    (hpending : b.pending = none) : ∃ y, y.without part = x ∧ b = inInterface q y := by
  obtain ⟨protocol, interface, message, arg, enum, entry, pending⟩ := b
  obtain ⟨p, rfl, hp⟩ := Option.map_eq_some_iff.1 htree
  obtain ⟨hm, ha, he, hn⟩ := hcursors
  cases hi
  cases hm
  cases ha
  cases he
  cases hn
  cases hpending
  obtain ⟨name, uppercaseName, copyright, description, interfaces⟩ := p
  simp only [Protocol.modifyInterface, Protocol.addInterface, Protocol.mk.injEq] at hp
  obtain ⟨rfl, rfl, rfl, rfl, hp⟩ := hp
  -- Leaving the part out changes no other interface, so these are those of `q`.
  rcases List.eq_nil_or_concat' interfaces with rfl | ⟨l, y, rfl⟩
  · simp at hp
  · have hlength : l.length = q.interfaces.length := by simpa using congrArg List.length hp
    rw [← hlength, modify_concat] at hp
    obtain ⟨rfl, hy⟩ := List.append_inj' hp rfl
    exact ⟨y, List.singleton_injective hy, rfl⟩

/-- What a child does to its part is away with it. -/
theorem tree_without {f : Interface → Interface} (hf : ∀ y, (f y).without part = y.without part) :
    (some ((q.addInterface x).modifyInterface q.interfaces.length f)).map
      (·.modifyInterface q.interfaces.length (·.without part)) =
        some (q.addInterface (x.without part)) := by
  rw [Option.map_some, Protocol.modifyInterface_without _ hf, Protocol.modifyInterface_last]

/-- The start tag of a child. -/
theorem Starts.within {tag : Bytes} {e : Element} {part : Part}
    (hs : (inInterface q x).Starts tag e b) (hpart : e.part? = some part) :
    b.Within q.interfaces.length (q.addInterface (x.without part)) part := by
  cases hs with
  | protocol | copyright | interface | arg | entry => cases hpart
  | @message e kind m p i y he hd hp hi hy =>
    cases hp
    cases hi
    obtain rfl : part = .messages kind := by cases kind <;> cases he <;> cases hpart <;> rfl
    exact ⟨tree_without fun z => z.without_addMessage kind m, rfl, ⟨⟨_, rfl⟩, rfl, rfl⟩, nofun⟩
  | enum hd hp hi hy =>
    cases hp
    cases hi
    cases hpart
    exact ⟨tree_without fun _ => rfl, rfl, ⟨rfl, rfl, _, rfl⟩, nofun⟩
  | description hd hc hp =>
    cases hpart
    cases hp
    refine ⟨by simp [inInterface], rfl, ⟨rfl, rfl, rfl, rfl⟩, fun hc => ?_⟩
    cases hc
    rfl

/-- The end tag of a child. -/
theorem Within.leave {e : Element} {part : Part} (h : b.Within i t part)
    (hpart : e.part? = some part) :
    (b.closed e).protocol.map (·.modifyInterface i (·.without part)) = some t ∧
      (b.closed e).interface = some i ∧ (b.closed e).Points none := by
  cases e with
  | protocol | copyright | interface | arg | entry => cases hpart
  | request | event =>
    cases hpart
    obtain ⟨-, he, hn⟩ := h.cursors
    exact ⟨h.tree, h.interface, rfl, rfl, he, hn⟩
  | enum =>
    cases hpart
    obtain ⟨hm, ha, -⟩ := h.cursors
    exact ⟨h.tree, h.interface, hm, ha, rfl, rfl⟩
  | description =>
    cases hpart
    exact ⟨h.stored.tree, h.stored.interface, h.stored.cursors⟩

/-- A child adds to its part, and what is none adds nothing. -/
theorem exists_inInterface_of_item (item : Item)
    (h : (inInterface q x).applyAll item.calls = .ok b) (hpending : b.pending = none) :
    ∃ y, y.without item.part? = x.without item.part? ∧ b = inInterface q y := by
  have hb := grounded_inInterface q x
  obtain ⟨part?, tokens, hitem⟩ := item
  cases hitem with
  | @element e part tag inner tokens he hpart hspans hinner =>
    rw [Item.calls, hspans.calls_eq, applyAll_cons_eq_ok] at h
    obtain ⟨b₁, hstart, h⟩ := h
    obtain ⟨b₂, hcalls, hclose⟩ := applyAll_append_eq_ok.1 h
    have hstarts := starts_of_start he hstart
    have hwithin :=
      (hstarts.within hpart).tokens (hb.start hstarts) hspans.balanced hinner hcalls
    have hb₂ := (hb.start hstarts).applyAll hcalls
    obtain ⟨b₃, hclose, hnil⟩ := applyAll_cons_eq_ok.1 hclose
    cases hnil
    rw [apply, close_eq hb₂, he] at hclose
    cases hclose
    obtain ⟨htree, hi, hcursors⟩ := hwithin.leave hpart
    exact eq_inInterface htree hi hcursors hpending
  | other hbalanced hknown =>
    have hwithin : (inInterface q x).Within q.interfaces.length (q.addInterface x) none :=
      ⟨by simp [inInterface, Interface.without], rfl, ⟨rfl, rfl, rfl, rfl⟩, fun h => by cases h⟩
    have hafter := hwithin.tokens hb hbalanced
      (fun c hc e he => by cases (hknown c hc).symm.trans he) h
    exact eq_inInterface hafter.tree hafter.interface hafter.cursors hpending

/-- An item has the effect that it has on its own, wherever it stands. -/
theorem applyAll_item (item : Item)
    (h : (inInterface q x).applyAll item.calls = .ok b) (hpending : b.pending = none) :
    ∃ y, y.without item.part? = x.head ∧
      (inInterface q x.head).applyAll item.calls = .ok (inInterface q y) ∧
      b = inInterface q (y.after x) := by
  rw [applyAll_inInterface, map_eq_ok] at h
  obtain ⟨b, h, rfl⟩ := h
  have hpending : b.pending = none := by simpa [after] using hpending
  obtain ⟨y, hy, rfl⟩ := exists_inInterface_of_item item h hpending
  exact ⟨y, hy.trans (x.without_head _), h, after_inInterface ..⟩

end Builder

end WaylandDoc
