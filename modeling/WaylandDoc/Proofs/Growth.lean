import WaylandDoc.Proofs.Validity

/-!
# Trees that grow

A tree begins another if it is an initial part of it: the nodes that both have were declared by the
same tags, and every list of children is the beginning of that in the larger tree. A builder only
ever adds nodes at the end of a list, so the tree after some calls begins the trees after more of
them (`Builder.Begins.applyAll`).
-/

namespace WaylandDoc

/-- The first list matches a beginning of the second, element by element. -/
inductive Begins {α : Type} (R : α → α → Prop) : List α → List α → Prop where
  | nil (l : List α) : Begins R [] l
  | cons {a b : α} {l l' : List α} (h : R a b) (hl : Begins R l l') : Begins R (a :: l) (b :: l')

namespace Begins

variable {α : Type} {R : α → α → Prop} {l l' l'' : List α}

theorem append_right (h : Begins R l l') (m : List α) : Begins R l (l' ++ m) := by
  induction h with
  | nil => exact .nil _
  | cons h _ ih => exact .cons h ih

theorem trans (hR : ∀ {a b c}, R a b → R b c → R a c) (h : Begins R l l') (h' : Begins R l' l'') :
    Begins R l l'' := by
  induction h generalizing l'' with
  | nil => exact .nil _
  | cons h _ ih =>
    cases h' with
    | cons h' hl' => exact .cons (hR h h') (ih hl')

/-- Elements that `g` cannot tell apart match. -/
theorem of_map_eq {β : Type} {g : α → β} (hg : ∀ a ∈ l, ∀ b, g a = g b → R a b)
    (h : l.map g = l'.map g) : Begins R l l' := by
  induction l generalizing l' with
  | nil => exact .nil _
  | cons a l ih =>
    obtain ⟨b, m, rfl, hb, hm⟩ := List.map_eq_cons_iff.1 h.symm
    rw [List.forall_mem_cons] at hg
    exact .cons (hg.1 b hb.symm) (ih hg.2 hm.symm)

theorem refl (hR : ∀ a ∈ l, R a a) : Begins R l l :=
  of_map_eq (fun a ha b hab => (show a = b from hab) ▸ hR a ha) (Eq.refl (l.map id))

theorem modify {f : α → α} (hR : ∀ a ∈ l, R a a ∧ R a (f a)) (i : Nat) :
    Begins R l (l.modify i f) := by
  induction l generalizing i with
  | nil => exact .nil _
  | cons a l ih =>
    rw [List.forall_mem_cons] at hR
    cases i with
    | zero => exact .cons hR.1.2 (.refl fun b hb => (hR.2 b hb).1)
    | succ i => exact .cons hR.1.1 (ih hR.2 i)

/-- A matching beginning has no more elements of a kind. -/
theorem countP_le {P : α → Bool} (hP : ∀ {a b}, R a b → P a = P b) (h : Begins R l l') :
    l.countP P ≤ l'.countP P := by
  induction h with
  | nil => exact Nat.zero_le _
  | cons h _ ih => simpa only [List.countP_cons, hP h] using Nat.add_le_add_right ih _

end Begins

/-! ## Initial parts of trees -/

/-- The message as its tag declares it, without what comes later. -/
def Message.head (m : Message) : Message :=
  { m with args := [], newIdCount := 0, description := none }

def Enum.head (e : Enum) : Enum := { e with description := none, entries := [] }

/-- The `since` of an interface is that of its last message. -/
def Interface.head (x : Interface) : Interface :=
  { x with since := 1, description := none, requests := [], events := [], enums := [] }

/-- Descriptions do not count, and counters that wrapped around cannot be compared. -/
structure Message.Begins (m m' : Message) : Prop where
  head : m.head = m'.head
  args : WaylandDoc.Begins (fun a a' => a.skeleton = a'.skeleton) m.args m'.args
  newIdCount : m'.newIds < UInt32.size → m.newIdCount ≤ m'.newIdCount

structure Enum.Begins (e e' : Enum) : Prop where
  head : e.head = e'.head
  entries : WaylandDoc.Begins (fun n n' => n.skeleton = n'.skeleton) e.entries e'.entries

structure Interface.Begins (x x' : Interface) : Prop where
  head : x.head = x'.head
  messages (kind : MessageKind) :
    WaylandDoc.Begins Message.Begins (x.messages kind) (x'.messages kind)
  enums : WaylandDoc.Begins Enum.Begins x.enums x'.enums

/-- The tree is an initial part of the other one. -/
structure Protocol.Begins (p p' : Protocol) : Prop where
  name : p.name = p'.name
  uppercaseName : p.uppercaseName = p'.uppercaseName
  interfaces : WaylandDoc.Begins Interface.Begins p.interfaces p'.interfaces

section Trans

theorem Message.Begins.newIds_le {m m' : Message} (h : m.Begins m') : m.newIds ≤ m'.newIds := by
  refine h.args.countP_le fun {a b} hab => ?_
  have htype : a.type = b.type := congrArg (·.type) hab
  rw [htype]

theorem Message.Begins.trans {m m' m'' : Message} (h : m.Begins m') (h' : m'.Begins m'') :
    m.Begins m'' := by
  refine ⟨h.head.trans h'.head, h.args.trans Eq.trans h'.args, fun hlt => ?_⟩
  have hle := h'.newIds_le
  exact UInt32.le_trans (h.newIdCount (by omega)) (h'.newIdCount hlt)

theorem Enum.Begins.trans {e e' e'' : Enum} (h : e.Begins e') (h' : e'.Begins e'') :
    e.Begins e'' :=
  ⟨h.head.trans h'.head, h.entries.trans Eq.trans h'.entries⟩

theorem Interface.Begins.trans {x x' x'' : Interface} (h : x.Begins x') (h' : x'.Begins x'') :
    x.Begins x'' :=
  ⟨h.head.trans h'.head,
    fun kind => (h.messages kind).trans Message.Begins.trans (h'.messages kind),
    h.enums.trans Enum.Begins.trans h'.enums⟩

theorem Protocol.Begins.trans {p p' p'' : Protocol} (h : p.Begins p') (h' : p'.Begins p'') :
    p.Begins p'' :=
  ⟨h.name.trans h'.name, h.uppercaseName.trans h'.uppercaseName,
    h.interfaces.trans Interface.Begins.trans h'.interfaces⟩

end Trans

/-! ## Copyrights and descriptions

Trees with one skeleton begin each other. -/

section Skeleton

theorem Message.begins_of_skeleton {m m' : Message} (h : m.skeleton = m'.skeleton) :
    m.Begins m' := by
  have hhead : m.skeleton.head = m'.skeleton.head := congrArg head h
  have hcount : m.newIdCount = m'.newIdCount := congrArg (·.newIdCount) h
  refine ⟨hhead, .of_map_eq (fun _ _ _ => id) (congrArg (·.args) h), fun _ => ?_⟩
  rw [hcount]
  exact UInt32.le_refl _

theorem Enum.begins_of_skeleton {e e' : Enum} (h : e.skeleton = e'.skeleton) : e.Begins e' := by
  have hhead : e.skeleton.head = e'.skeleton.head := congrArg head h
  exact ⟨hhead, .of_map_eq (fun _ _ _ => id) (congrArg (·.entries) h)⟩

theorem Interface.begins_of_skeleton {x x' : Interface} (h : x.skeleton = x'.skeleton) :
    x.Begins x' := by
  have hhead : x.skeleton.head = x'.skeleton.head := congrArg head h
  refine ⟨hhead, fun kind => ?_, ?_⟩
  · refine .of_map_eq (fun _ _ _ => Message.begins_of_skeleton) ?_
    rw [← messages_skeleton, h, messages_skeleton]
  · exact .of_map_eq (fun _ _ _ => Enum.begins_of_skeleton) (congrArg (·.enums) h)

theorem Protocol.begins_of_skeleton {p p' : Protocol} (h : p.skeleton = p'.skeleton) :
    p.Begins p' :=
  ⟨congrArg (·.name) h, congrArg (·.uppercaseName) h,
    .of_map_eq (fun _ _ _ => Interface.begins_of_skeleton) (congrArg (·.interfaces) h)⟩

end Skeleton

/-! ## One more node -/

/-- The counter of a consistent message goes up, if it does not wrap around. -/
theorem Message.Consistent.begins_addArg {m : Message} (h : m.Consistent) {a : Arg}
    (ha : a.Valid) : m.Begins (m.addArg a) := by
  have hargs : WaylandDoc.Begins (fun a a' => a.skeleton = a'.skeleton) m.args m.args :=
    .refl fun _ _ => rfl
  refine ⟨rfl, hargs.append_right [a], fun hlt => ?_⟩
  have hle : m.newIds ≤ (m.addArg a).newIds := by
    rw [newIds, newIds, Message.addArg, List.countP_append]
    exact Nat.le_add_right ..
  rw [UInt32.le_iff_toNat_le, h.newIdCount (Nat.lt_of_le_of_lt hle hlt),
    (h.addArg ha).newIdCount hlt]
  exact hle

theorem Enum.begins_addEntry (e : Enum) (n : Entry) : e.Begins (e.addEntry n) := by
  have hentries : WaylandDoc.Begins (fun n n' => n.skeleton = n'.skeleton) e.entries e.entries :=
    .refl fun _ _ => rfl
  exact ⟨rfl, hentries.append_right [n]⟩

namespace Interface

variable {x : Interface}

theorem head_modifyMessages (x : Interface) (kind : MessageKind)
    (f : List Message → List Message) : (x.modifyMessages kind f).head = x.head := by
  cases kind <;> rfl

theorem begins_modifyMessages {kind : MessageKind} {f : List Message → List Message}
    (h : WaylandDoc.Begins Message.Begins (x.messages kind) (f (x.messages kind))) :
    x.Begins (x.modifyMessages kind f) := by
  refine ⟨(x.head_modifyMessages kind f).symm, fun kind' => ?_, ?_⟩
  · rw [messages_modifyMessages]
    split
    · rename_i hkind
      exact hkind ▸ h
    · exact .refl fun _ _ => Message.begins_of_skeleton rfl
  · rw [enums_modifyMessages]
    exact .refl fun _ _ => Enum.begins_of_skeleton rfl

theorem begins_addMessage (x : Interface) (kind : MessageKind) (m : Message) :
    x.Begins (x.addMessage kind m) := by
  have h : x.Begins (x.modifyMessages kind (· ++ [m])) :=
    begins_modifyMessages (.append_right (.refl fun _ _ => Message.begins_of_skeleton rfl) [m])
  refine ⟨h.head, fun kind' => ?_, h.enums⟩
  have hkind' := h.messages kind'
  cases kind' <;> exact hkind'

theorem Consistent.begins_addArg (h : x.Consistent) (kind : MessageKind) (m : Nat) {a : Arg}
    (ha : a.Valid) : x.Begins (x.modifyMessages kind (·.modify m (·.addArg a))) :=
  begins_modifyMessages (.modify (fun y hy =>
    ⟨Message.begins_of_skeleton rfl, (h.messages kind y hy).begins_addArg ha⟩) m)

theorem begins_enums {enums : List Enum} (h : WaylandDoc.Begins Enum.Begins x.enums enums) :
    x.Begins { x with enums } := by
  refine ⟨rfl, fun kind => ?_, h⟩
  cases kind <;> exact .refl fun _ _ => Message.begins_of_skeleton rfl

theorem begins_addEnum (x : Interface) (e : Enum) : x.Begins (x.addEnum e) :=
  begins_enums (.append_right (.refl fun _ _ => Enum.begins_of_skeleton rfl) [e])

theorem begins_addEntry (x : Interface) (e : Nat) (n : Entry) :
    x.Begins { x with enums := x.enums.modify e (·.addEntry n) } :=
  begins_enums (.modify (fun y _ => ⟨Enum.begins_of_skeleton rfl, y.begins_addEntry n⟩) e)

end Interface

namespace Protocol

theorem begins_addInterface (p : Protocol) (x : Interface) : p.Begins (p.addInterface x) :=
  ⟨rfl, rfl, .append_right (.refl fun _ _ => Interface.begins_of_skeleton rfl) [x]⟩

theorem begins_modifyInterface (p : Protocol) {f : Interface → Interface}
    (hf : ∀ x ∈ p.interfaces, x.Begins (f x)) (i : Nat) : p.Begins (p.modifyInterface i f) :=
  ⟨rfl, rfl, .modify (fun x hx => ⟨Interface.begins_of_skeleton rfl, hf x hx⟩) i⟩

end Protocol

/-! ## Runs -/

namespace Builder

variable {b b' : Builder}

/-- The tree of the builder, if there is one, begins that of the other. -/
def Begins (b b' : Builder) : Prop :=
  ∀ p, b.protocol = some p → ∃ p', b'.protocol = some p' ∧ p.Begins p'

theorem begins_of_skeleton
    (h : b'.protocol.map Protocol.skeleton = b.protocol.map Protocol.skeleton) : b.Begins b' := by
  intro p hp
  rw [hp, Option.map_some] at h
  obtain ⟨p', hp', hskeleton⟩ := Option.map_eq_some_iff.1 h
  exact ⟨p', hp', Protocol.begins_of_skeleton hskeleton.symm⟩

theorem Begins.trans {b'' : Builder} (h : b.Begins b') (h' : b'.Begins b'') : b.Begins b'' := by
  intro p hp
  obtain ⟨p', hp', hbegins⟩ := h p hp
  obtain ⟨p'', hp'', hbegins'⟩ := h' p' hp'
  exact ⟨p'', hp'', hbegins.trans hbegins'⟩

/-- A start tag adds at most one node, at the end of a list. -/
theorem Starts.begins {tag : Bytes} {e : Element} (hs : b.Starts tag e b') (h : b.Consistent) :
    b.Begins b' := by
  cases hs with
  | protocol hd hp =>
    intro p' hp'
    cases hp.symm.trans hp'
  | copyright hp hc => exact begins_of_skeleton rfl
  | description hd hc hplace => exact begins_of_skeleton rfl
  | @interface x p hd hp =>
    intro p' hp'
    cases hp.symm.trans hp'
    exact ⟨_, rfl, p.begins_addInterface x⟩
  | @message e kind m p i x he hd hp hi hx =>
    intro p' hp'
    cases hp.symm.trans hp'
    exact ⟨_, rfl, p.begins_modifyInterface (fun y _ => y.begins_addMessage kind m) i⟩
  | @arg a p i kind m x hd hp hi hm hx =>
    intro p' hp'
    cases hp.symm.trans hp'
    have ha := Arg.valid_of_declares hd
    exact ⟨_, rfl, p.begins_modifyInterface
      (fun y hy => ((h p hp).interfaces y hy).begins_addArg kind m ha) i⟩
  | @enum e p i x hd hp hi hx =>
    intro p' hp'
    cases hp.symm.trans hp'
    exact ⟨_, rfl, p.begins_modifyInterface (fun y _ => y.begins_addEnum e) i⟩
  | @entry n p i e x hd hp hi he hx =>
    intro p' hp'
    cases hp.symm.trans hp'
    exact ⟨_, rfl, p.begins_modifyInterface (fun y _ => y.begins_addEntry e n) i⟩

theorem Takes.begins {c : Call} (hc : b.Takes c b') (h : b.Consistent) : b.Begins b' := by
  cases hc with
  | start he hs => exact hs.begins h
  | ignore he => exact begins_of_skeleton rfl
  | close name => exact begins_of_skeleton (b.closed_protocol _)
  | text s => exact begins_of_skeleton rfl

/-- Whatever the calls are, the tree before them begins the tree after them. -/
theorem Begins.applyAll {cs : List Call} (hb : b.Grounded) (h : b.Consistent)
    (hcs : b.applyAll cs = .ok b') : b.Begins b' := by
  induction cs generalizing b with
  | nil =>
    cases hcs
    exact begins_of_skeleton rfl
  | cons c cs ih =>
    obtain ⟨b₁, hc, hcs⟩ := applyAll_cons_eq_ok.1 hcs
    have hstep := (apply_eq_ok hb).1 hc
    exact (hstep.begins h).trans (ih (hstep.grounded hb) (hstep.consistent h) hcs)

end Builder

end WaylandDoc
