import WaylandDoc.Proofs.Acceptance
import WaylandDoc.Proofs.Outline

/-!
# Valid trees

A valid tree is one that a document can say. Every tree that a builder makes is valid but for
counters that wrapped around, whatever its calls are (`Builder.Consistent.applyAll`). The `since` of
an interface is about the document, since a tree does not tell which of its requests and events came
last: in nested documents it is that of the last one among the tags of the interface
(`Interface.SinceLast`).
-/

namespace WaylandDoc

open Opening (segments nodes)

/-! ## Valid trees -/

structure Arg.Valid (a : Arg) : Prop where
  nullable :
    a.nullable → a.type = .string ∨ a.type = .object ∨ a.type = .newId ∨ a.type = .array
  interface : a.interface.isSome → a.type = .object ∨ a.type = .newId

structure Message.Valid (m : Message) : Prop where
  uppercaseName : IsUpperCase m.name m.uppercaseName
  destroy : m.name = "destroy" → m.destructor
  newIdCount : m.newIdCount.toNat = m.args.countP (·.type = .newId)
  args : ∀ a ∈ m.args, a.Valid

structure Entry.Valid (n : Entry) : Prop where
  uppercaseName : IsUpperCase n.name n.uppercaseName

structure Enum.Valid (e : Enum) : Prop where
  uppercaseName : IsUpperCase e.name e.uppercaseName
  entries : ∀ n ∈ e.entries, n.Valid

structure Interface.Valid (x : Interface) : Prop where
  uppercaseName : IsUpperCase x.name x.uppercaseName
  version : 1 ≤ x.version
  messages (kind : MessageKind) : ∀ m ∈ x.messages kind, m.Valid
  enums : ∀ e ∈ x.enums, e.Valid

/-- What documents can say and the fields that follow from others. -/
structure Protocol.Valid (p : Protocol) : Prop where
  uppercaseName : IsUpperCase p.name p.uppercaseName
  interfaces : ∀ x ∈ p.interfaces, x.Valid

/-! ## Consistent trees -/

/-- The number of arguments that create an object. -/
def Message.newIds (m : Message) : Nat := m.args.countP (·.type = .newId)

/-- As a valid message, but its counter may have wrapped around. -/
structure Message.Consistent (m : Message) : Prop where
  uppercaseName : IsUpperCase m.name m.uppercaseName
  destroy : m.name = "destroy" → m.destructor
  newIdCount : m.newIds < UInt32.size → m.newIdCount.toNat = m.newIds
  args : ∀ a ∈ m.args, a.Valid

structure Interface.Consistent (x : Interface) : Prop where
  uppercaseName : IsUpperCase x.name x.uppercaseName
  version : 1 ≤ x.version
  messages (kind : MessageKind) : ∀ m ∈ x.messages kind, m.Consistent
  enums : ∀ e ∈ x.enums, e.Valid

structure Protocol.Consistent (p : Protocol) : Prop where
  uppercaseName : IsUpperCase p.name p.uppercaseName
  interfaces : ∀ x ∈ p.interfaces, x.Consistent

/-- A consistent tree is valid if no message has too many new objects to count. -/
theorem Protocol.Consistent.valid {p : Protocol} (h : p.Consistent)
    (hcount : ∀ x ∈ p.interfaces, ∀ kind, ∀ m ∈ x.messages kind, m.newIds < UInt32.size) :
    p.Valid := by
  refine ⟨h.uppercaseName, fun x hx => ?_⟩
  have hconsistent := h.interfaces x hx
  refine ⟨hconsistent.uppercaseName, hconsistent.version, fun kind m hm => ?_, hconsistent.enums⟩
  have hmessage := hconsistent.messages kind m hm
  exact ⟨hmessage.uppercaseName, hmessage.destroy, hmessage.newIdCount (hcount x hx kind m hm),
    hmessage.args⟩

/-! ## Declared nodes -/

section Declared

variable {tag : Bytes}

theorem Arg.valid_of_declares {a : Arg} (h : Declares Arg.declare tag a) : a.Valid := by
  obtain ⟨as, -, h⟩ := h
  obtain ⟨name, type, nullable, -, -, hinterface, hbool, hnullable, rfl⟩ := Arg.declare_eq_ok.1 h
  rw [ArgType.hasInterface_iff] at hinterface
  rw [ArgType.isNullable_iff] at hnullable
  refine ⟨fun htrue => hnullable ?_, hinterface⟩
  cases hfind : Attribute.find? as "allow-null" with
  | none =>
    rw [hfind, IsBool] at hbool
    exact absurd htrue (by simp [hbool])
  | some text => rfl

theorem Message.consistent_of_declares {kind : MessageKind} {m : Message}
    (h : Declares (Message.declare kind) tag m) : m.Consistent := by
  obtain ⟨as, -, h⟩ := h
  obtain ⟨name, since, deprecatedSince, -, hdestroy, -, -, rfl⟩ := Message.declare_eq_ok.1 h
  exact ⟨isUpperCase_upperCase name, hdestroy, fun _ => rfl, by simp⟩

theorem Entry.valid_of_declares {n : Entry} (h : Declares Entry.declare tag n) : n.Valid :=
  ⟨(Entry.declaredBy h).1.uppercaseName⟩

theorem Enum.valid_of_declares {e : Enum} (h : Declares Enum.declare tag e) : e.Valid := by
  obtain ⟨hd, hfresh⟩ := Enum.declaredBy h
  exact ⟨hd.uppercaseName, by simp [hfresh.entries]⟩

theorem Interface.consistent_of_declares {x : Interface} (h : Declares Interface.declare tag x) :
    x.Consistent := by
  obtain ⟨hd, hfresh⟩ := Interface.declaredBy h
  obtain ⟨as, -, h⟩ := h
  obtain ⟨name, text, version, -, -, -, hzero, rfl⟩ := Interface.declare_eq_ok.1 h
  refine ⟨isUpperCase_upperCase name, ?_, fun kind => by simp [hfresh.messages], by simp⟩
  rw [UInt32.le_iff_toNat_le]
  have : version.toNat ≠ 0 := fun h => hzero (UInt32.toNat_inj.1 h)
  exact Nat.one_le_iff_ne_zero.2 this

theorem Protocol.consistent_of_declares {p : Protocol} (h : Declares Protocol.declare tag p) :
    p.Consistent :=
  ⟨(Protocol.declaredBy h).uppercaseName, by simp [Protocol.interfaces_of_declares h]⟩

end Declared

/-! ## One more node -/

theorem forall_mem_concat {α : Type} {P : α → Prop} {l : List α} {a : α} (h : ∀ x ∈ l, P x)
    (ha : P a) : ∀ x ∈ l ++ [a], P x := by
  simpa [or_imp, forall_and] using ⟨h, ha⟩

theorem forall_mem_modify {α : Type} {P : α → Prop} {f : α → α} {l : List α}
    (h : ∀ x ∈ l, P x) (hf : ∀ x, P x → P (f x)) (i : Nat) : ∀ x ∈ l.modify i f, P x := by
  intro x hx
  obtain ⟨j, hj⟩ := List.mem_iff_getElem?.1 hx
  rw [List.getElem?_modify, Option.map_eq_map, Option.map_eq_some_iff] at hj
  obtain ⟨y, hy, rfl⟩ := hj
  have hP := h y (List.mem_of_getElem? hy)
  split
  · exact hf y hP
  · exact hP

theorem Message.Consistent.addArg {m : Message} (h : m.Consistent) {a : Arg} (ha : a.Valid) :
    (m.addArg a).Consistent := by
  refine { h with newIdCount := ?_, args := forall_mem_concat h.args ha }
  have hcount := h.newIdCount
  simp only [newIds, UInt32.size] at hcount
  by_cases htype : a.type = .newId
  · simp only [newIds, Message.addArg, htype, List.countP_append, List.countP_singleton, if_true,
      decide_true, UInt32.toNat_add, UInt32.toNat_one, UInt32.size]
    omega
  · simpa [newIds, Message.addArg, htype] using hcount

theorem Enum.Valid.addEntry {e : Enum} (h : e.Valid) {n : Entry} (hn : n.Valid) :
    (e.addEntry n).Valid :=
  { h with entries := forall_mem_concat h.entries hn }

namespace Interface

variable {x : Interface}

theorem Consistent.modifyMessages (h : x.Consistent) (kind : MessageKind)
    {f : List Message → List Message} (hf : ∀ m ∈ f (x.messages kind), m.Consistent) :
    (x.modifyMessages kind f).Consistent := by
  cases kind
  all_goals
    refine ⟨h.uppercaseName, h.version, fun kind' => ?_, h.enums⟩
    cases kind'
  · exact hf
  · exact h.messages .event
  · exact h.messages .request
  · exact hf

theorem Consistent.addMessage (h : x.Consistent) (kind : MessageKind) {m : Message}
    (hm : m.Consistent) : (x.addMessage kind m).Consistent := by
  have hadd : (x.modifyMessages kind (· ++ [m])).Consistent :=
    h.modifyMessages kind (forall_mem_concat (h.messages kind) hm)
  refine { hadd with messages := fun kind' => ?_ }
  have hkind' := hadd.messages kind'
  cases kind' <;> exact hkind'

theorem Consistent.addArg (h : x.Consistent) (kind : MessageKind) (m : Nat) {a : Arg}
    (ha : a.Valid) : (x.modifyMessages kind (·.modify m (·.addArg a))).Consistent :=
  h.modifyMessages kind (forall_mem_modify (h.messages kind) (fun _ hm => hm.addArg ha) m)

theorem Consistent.addEnum (h : x.Consistent) {e : Enum} (he : e.Valid) :
    (x.addEnum e).Consistent :=
  { h with
    messages := fun kind => by simpa using h.messages kind
    enums := forall_mem_concat h.enums he }

theorem Consistent.addEntry (h : x.Consistent) (e : Nat) {n : Entry} (hn : n.Valid) :
    Consistent { x with enums := x.enums.modify e (·.addEntry n) } := by
  refine { h with
    messages := fun kind => ?_
    enums := forall_mem_modify h.enums (fun _ he => he.addEntry hn) e }
  have hkind := h.messages kind
  cases kind <;> exact hkind

end Interface

namespace Protocol

variable {p : Protocol}

theorem Consistent.addInterface (h : p.Consistent) {x : Interface} (hx : x.Consistent) :
    (p.addInterface x).Consistent :=
  { h with interfaces := forall_mem_concat h.interfaces hx }

theorem Consistent.modifyInterface (h : p.Consistent) {f : Interface → Interface}
    (hf : ∀ x, x.Consistent → (f x).Consistent) (i : Nat) : (p.modifyInterface i f).Consistent :=
  { h with interfaces := forall_mem_modify h.interfaces hf i }

end Protocol

/-! ## Skeletons

Copyrights and descriptions do not matter. -/

section Skeleton

@[simp] theorem Arg.valid_skeleton {a : Arg} : a.skeleton.Valid ↔ a.Valid :=
  ⟨fun h => { h with }, fun h => { h with }⟩

@[simp] theorem Message.consistent_skeleton {m : Message} :
    m.skeleton.Consistent ↔ m.Consistent := by
  have hargs : (∀ a ∈ m.skeleton.args, a.Valid) ↔ ∀ a ∈ m.args, a.Valid := by
    simp [skeleton]
  have hcount : m.skeleton.newIds = m.newIds := by
    rw [newIds, skeleton, List.countP_map]
    rfl
  constructor
  · rintro ⟨hname, hdestructor, hids, h⟩
    exact ⟨hname, hdestructor, hcount ▸ hids, hargs.1 h⟩
  · rintro ⟨hname, hdestructor, hids, h⟩
    exact ⟨hname, hdestructor, hcount.symm ▸ hids, hargs.2 h⟩

@[simp] theorem Entry.valid_skeleton {n : Entry} : n.skeleton.Valid ↔ n.Valid :=
  ⟨fun h => { h with }, fun h => { h with }⟩

@[simp] theorem Enum.valid_skeleton {e : Enum} : e.skeleton.Valid ↔ e.Valid := by
  have hentries : (∀ n ∈ e.skeleton.entries, n.Valid) ↔ ∀ n ∈ e.entries, n.Valid := by
    simp [skeleton]
  exact ⟨fun h => ⟨h.uppercaseName, hentries.1 h.entries⟩,
    fun h => ⟨h.uppercaseName, hentries.2 h.entries⟩⟩

@[simp] theorem Interface.consistent_skeleton {x : Interface} :
    x.skeleton.Consistent ↔ x.Consistent := by
  have hmessages (kind : MessageKind) :
      (∀ m ∈ x.skeleton.messages kind, m.Consistent) ↔ ∀ m ∈ x.messages kind, m.Consistent := by
    simp [messages_skeleton]
  have henums : (∀ e ∈ x.skeleton.enums, e.Valid) ↔ ∀ e ∈ x.enums, e.Valid := by
    simp [skeleton]
  exact ⟨fun h => ⟨h.uppercaseName, h.version, fun kind => (hmessages kind).1 (h.messages kind),
      henums.1 h.enums⟩,
    fun h => ⟨h.uppercaseName, h.version, fun kind => (hmessages kind).2 (h.messages kind),
      henums.2 h.enums⟩⟩

@[simp] theorem Protocol.consistent_skeleton {p : Protocol} :
    p.skeleton.Consistent ↔ p.Consistent := by
  have hinterfaces :
      (∀ x ∈ p.skeleton.interfaces, x.Consistent) ↔ ∀ x ∈ p.interfaces, x.Consistent := by
    simp [skeleton]
  exact ⟨fun h => ⟨h.uppercaseName, hinterfaces.1 h.interfaces⟩,
    fun h => ⟨h.uppercaseName, hinterfaces.2 h.interfaces⟩⟩

end Skeleton

/-! ## Runs -/

namespace Builder

variable {b b' : Builder} {past : History}

/-- The tree so far is consistent. -/
def Consistent (b : Builder) : Prop := ∀ p, b.protocol = some p → p.Consistent

theorem consistent_empty : Consistent {} := by
  intro p hp
  cases hp

theorem Starts.consistent {tag : Bytes} {e : Element} (hs : b.Starts tag e b') (h : b.Consistent) :
    b'.Consistent := by
  intro p' hp'
  cases hs with
  | protocol hd hp =>
    cases hp'
    exact Protocol.consistent_of_declares hd
  | copyright hp hc => exact h p' hp'
  | description hd hc hplace => exact h p' hp'
  | @interface x p hd hp =>
    cases hp'
    exact (h p hp).addInterface (Interface.consistent_of_declares hd)
  | @message e kind m p i x he hd hp hi hx =>
    cases hp'
    have hm := Message.consistent_of_declares hd
    exact (h p hp).modifyInterface (fun _ hx => hx.addMessage kind hm) i
  | @arg a p i kind m x hd hp hi hm hx =>
    cases hp'
    have ha := Arg.valid_of_declares hd
    exact (h p hp).modifyInterface (fun _ hx => hx.addArg kind m ha) i
  | @enum e p i x hd hp hi hx =>
    cases hp'
    have he := Enum.valid_of_declares hd
    exact (h p hp).modifyInterface (fun _ hx => hx.addEnum he) i
  | @entry n p i e x hd hp hi he hx =>
    cases hp'
    have hn := Entry.valid_of_declares hd
    exact (h p hp).modifyInterface (fun _ hx => hx.addEntry e hn) i

theorem Consistent.closed (h : b.Consistent) (e : Option Element) : (b.closed e).Consistent := by
  intro p' hp'
  obtain ⟨p, hp, hskeleton⟩ := exists_of_closed hp'
  rw [← Protocol.consistent_skeleton, ← hskeleton, Protocol.consistent_skeleton]
  exact h p hp

theorem Takes.consistent {c : Call} (hc : b.Takes c b') (h : b.Consistent) : b'.Consistent := by
  cases hc with
  | start he hs => exact hs.consistent h
  | ignore he => exact h
  | close name => exact h.closed _
  | text s => exact h

/-- Whatever the calls are, the tree stays consistent. -/
theorem Consistent.applyAll {cs : List Call} (h : b.Consistent) (hb : b.Grounded)
    (hcs : b.applyAll cs = .ok b') : b'.Consistent := by
  induction cs generalizing b with
  | nil =>
    cases hcs
    exact h
  | cons c cs ih =>
    obtain ⟨b₁, hc, hcs⟩ := applyAll_cons_eq_ok.1 hcs
    have hstep := (apply_eq_ok hb).1 hc
    exact ih (hstep.consistent h) (hstep.grounded hb) hcs

end Builder

/-! ## The version of the last message -/

namespace Opening

/-- The last request or event. -/
def lastMessage? (os : List Opening) : Option Opening := (os.filter isMessage).getLast?

theorem lastMessage?_concat (os : List Opening) (o : Opening) :
    lastMessage? (os ++ [o]) = if o.isMessage then some o else lastMessage? os := by
  rw [lastMessage?, List.filter_append]
  cases h : o.isMessage <;> simp [h, lastMessage?]

end Opening

open Opening (lastMessage? lastMessage?_concat)

/-- The `since` of the interface is that of the last request or event among its tags, which is the
last of its kind in the interface, and one if there is none. -/
def Interface.SinceLast (x : Interface) (s : Opening × List Opening) : Prop :=
  match lastMessage? s.2 with
  | none => x.since = 1
  | some o => ∃ kind m, o.element = kind.element ∧ (x.messages kind).getLast? = some m ∧
      m.DeclaredBy o.tag ∧ x.since = m.since

def Protocol.SinceLast (p : Protocol) (os : List Opening) : Prop :=
  List.Forall₂ Interface.SinceLast p.interfaces (nodes Opening.isInterface .interface os)

namespace Interface

variable {x x' : Interface} {s : Opening × List Opening} {y : Opening} {body : List Opening}

theorem SinceLast.concat (h : x.SinceLast (y, body)) {o : Opening} (ho : o.isMessage = false) :
    x.SinceLast (y, body ++ [o]) := by
  rw [SinceLast, lastMessage?_concat, ho]
  exact h

/-- A change of the interface that leaves its `since` and that of its last messages. -/
theorem SinceLast.of_last (h : x.SinceLast s) (hsince : x'.since = x.since)
    (hlast : ∀ kind m, (x.messages kind).getLast? = some m →
      ∃ m', (x'.messages kind).getLast? = some m' ∧ m'.since = m.since ∧
        ∀ tag, m.DeclaredBy tag → m'.DeclaredBy tag) : x'.SinceLast s := by
  unfold SinceLast at h ⊢
  split at h
  · exact hsince.trans h
  · obtain ⟨kind, m, he, hm, hd, h⟩ := h
    obtain ⟨m', hm', hsince', hd'⟩ := hlast kind m hm
    exact ⟨kind, m', he, hm', hd' _ hd, hsince.trans (h.trans hsince'.symm)⟩

theorem SinceLast.of_messages_eq (h : x.SinceLast s) (hsince : x'.since = x.since)
    (hmessages : ∀ kind, x'.messages kind = x.messages kind) : x'.SinceLast s :=
  h.of_last hsince fun kind m hm => ⟨m, (hmessages kind).symm ▸ hm, rfl, fun _ => id⟩

theorem SinceLast.addMessage {kind : MessageKind} {m : Message} {tag : Bytes}
    (hm : m.DeclaredBy tag) :
    (x.addMessage kind m).SinceLast (y, body ++ [⟨kind.element, tag⟩]) := by
  have hmessage : Opening.isMessage ⟨kind.element, tag⟩ := by cases kind <;> rfl
  rw [SinceLast, lastMessage?_concat, hmessage, if_pos rfl]
  exact ⟨kind, m, rfl, by simp [messages_addMessage], hm, rfl⟩

theorem SinceLast.addArg (h : x.SinceLast s) (kind : MessageKind) (i : Nat) (a : Arg) :
    (x.modifyMessages kind (·.modify i (·.addArg a))).SinceLast s := by
  refine h.of_last (by cases kind <;> rfl) fun kind' m hm => ?_
  rw [messages_modifyMessages]
  split
  · rename_i hkind
    subst hkind
    rw [List.getLast?_eq_getElem?] at hm ⊢
    rw [List.length_modify, List.getElem?_modify, hm]
    split
    · exact ⟨_, rfl, rfl, fun _ hd => { hd with }⟩
    · exact ⟨m, rfl, rfl, fun _ => id⟩
  · exact ⟨m, hm, rfl, fun _ => id⟩

theorem sinceLast_of_declares {tag : Bytes} (h : Declares Interface.declare tag x) :
    x.SinceLast (y, []) := by
  obtain ⟨as, -, h⟩ := h
  obtain ⟨name, text, version, -, -, -, -, rfl⟩ := Interface.declare_eq_ok.1 h
  rfl

@[simp] theorem sinceLast_skeleton : x.skeleton.SinceLast s ↔ x.SinceLast s := by
  constructor
  · refine fun h => h.of_last rfl fun kind m' hm' => ?_
    rw [messages_skeleton, List.getLast?_map, Option.map_eq_some_iff] at hm'
    obtain ⟨m, hm, rfl⟩ := hm'
    exact ⟨m, hm, rfl, fun _ hd => { hd with }⟩
  · refine fun h => h.of_last rfl fun kind m hm => ?_
    rw [messages_skeleton, List.getLast?_map, hm]
    exact ⟨_, rfl, rfl, fun _ hd => { hd with }⟩

end Interface

@[simp] theorem Protocol.sinceLast_skeleton {p : Protocol} {os : List Opening} :
    p.skeleton.SinceLast os ↔ p.SinceLast os := by
  simp [SinceLast, skeleton]

namespace Builder

open Opening (forall₂_concat forall₂_nodes_concat forall₂_modify_last nodes_concat_head)

variable {b b' : Builder} {past : History}

def SinceLast (b : Builder) (past : History) : Prop :=
  ∀ p, b.protocol = some p → p.SinceLast past.tags

/-- A tag in the current interface. -/
theorem Tracks.sinceLast_modify (ht : b.Tracks past) {p : Protocol} (hp : b.protocol = some p)
    {i : Nat} (hi : b.interface = some i) {f : Interface → Interface} {o : Opening}
    (ho : o.isInterface = false)
    (hf : ∀ x y body, x.SinceLast (y, body) → (f x).SinceLast (y, body ++ [o]))
    (h : p.SinceLast past.tags) : (p.modifyInterface i f).SinceLast (past.tags ++ [o]) := by
  obtain ⟨rfl, s, y, hs⟩ := ht.lastInterface hp hi
  have hmem : (y, past.interfaceTags) ∈ segments Opening.isInterface past.tags := by simp [hs]
  have hy := Opening.head_of_mem_segments hmem
  exact forall₂_modify_last ho hs (beq_iff_eq.1 hy) (fun x _ hx => hf x _ _ hx) h

theorem SinceLast.start (h : b.SinceLast past) (hb : b.Grounded) (ht : b.Tracks past) {tag : Bytes}
    {e : Element} (he : Element.ofName? (localName (Tag.name tag)) = some e)
    (hs : b.Starts tag e b') : b'.SinceLast (.start tag :: past) := by
  have hopening : (Call.start tag).opening? = some ⟨e, tag⟩ := by simp [Call.opening?, he]
  intro p' hp'
  rw [History.tags_cons, hopening, Option.toList_some]
  cases hs with
  | protocol hd hp =>
    cases hp'
    have hnodes := (ht.outlines_protocol hb hp hd).interfaces
    rw [Protocol.interfaces_of_declares hd, List.forall₂_nil_left_iff] at hnodes
    rw [Protocol.SinceLast, Protocol.interfaces_of_declares hd, hnodes]
    exact .nil
  | copyright hp hc => exact forall₂_nodes_concat rfl (fun _ _ _ hx => hx.concat rfl) (h p' hp')
  | description hd hc hplace =>
    exact forall₂_nodes_concat rfl (fun _ _ _ hx => hx.concat rfl) (h p' hp')
  | @interface x p hd hp =>
    cases hp'
    rw [Protocol.SinceLast, nodes_concat_head rfl]
    exact forall₂_concat (h p hp) (Interface.sinceLast_of_declares hd)
  | @message e kind m p i x hel hd hp hi hx =>
    cases hp'
    subst hel
    have hm := (Message.declaredBy hd).1
    exact ht.sinceLast_modify hp hi (by cases kind <;> rfl) (fun _ _ _ _ => .addMessage hm) (h p hp)
  | @arg a p i kind m x hd hp hi hm hx =>
    cases hp'
    refine ht.sinceLast_modify hp hi rfl (fun x y body hx => ?_) (h p hp)
    exact (hx.concat rfl).addArg kind m a
  | @enum n p i x hd hp hi hx =>
    cases hp'
    refine ht.sinceLast_modify hp hi rfl (fun x y body hx => ?_) (h p hp)
    exact (hx.concat rfl).of_messages_eq rfl fun kind => by simp
  | @entry n p i k x hd hp hi hk hx =>
    cases hp'
    refine ht.sinceLast_modify hp hi rfl (fun x y body hx => ?_) (h p hp)
    exact (hx.concat rfl).of_messages_eq rfl fun kind => by cases kind <;> rfl

theorem Takes.sinceLast {c : Call} (hc : b.Takes c b') (h : b.SinceLast past) (hb : b.Grounded)
    (ht : b.Tracks past) : b'.SinceLast (c :: past) := by
  cases hc with
  | start he hs => exact h.start hb ht he hs
  | @ignore tag he =>
    intro p hp
    rw [History.tags_cons_of_none (by simp [Call.opening?, he])]
    exact h p hp
  | close name =>
    intro p' hp'
    obtain ⟨p, hp, hskeleton⟩ := exists_of_closed hp'
    rw [History.tags_cons_of_none rfl, ← Protocol.sinceLast_skeleton, ← hskeleton,
      Protocol.sinceLast_skeleton]
    exact h p hp
  | text s =>
    intro p hp
    rw [History.tags_cons_of_none rfl]
    exact h p hp

theorem SinceLast.applyAll {cs : List Call} (h : b.SinceLast past) (hb : b.Grounded)
    (ht : b.Tracks past) (hn : History.Nested (cs.reverse ++ past)) (hcs : b.applyAll cs = .ok b') :
    b'.SinceLast (cs.reverse ++ past) :=
  applyAll_induction (fun hb ht _ hc h => hc.sinceLast h hb ht) h hb ht hn hcs

end Builder

/-! ## Accepted documents -/

/-- The tree of an accepted document is consistent, and every interface has the `since` of the last
request or event that starts in it. -/
theorem consistent_of_parse {input : Bytes} {p : Protocol} (h : (parse input).result = .ok p) :
    p.Consistent ∧ p.SinceLast (openings (calls input)) := by
  obtain ⟨ts, hts, hbalanced, -, b, hb, hp⟩ := parse_eq_ok_iff.1 h
  have hcalls : calls input = ts.flatMap Token.calls := by rw [calls, hts]
  obtain ⟨hn, -⟩ := History.nested_of_balanced hbalanced
  rw [← hcalls] at hb hn
  rw [← List.append_nil (calls input).reverse] at hn
  have hconsistent : Builder.Consistent {} := fun p hp => by cases hp
  have hsince : Builder.SinceLast {} [] := fun p hp => by cases hp
  have hlast := hsince.applyAll Builder.grounded_empty Builder.tracks_empty hn hb
  refine ⟨hconsistent.applyAll Builder.grounded_empty hb p hp, ?_⟩
  simpa [History.tags] using hlast p hp

/-- A destructor with a new object, an event that is younger, an entry with a letter that has no
other case in ASCII, and an interface without messages. -/
theorem consistent_of_late_event :
    let input := ascii ("<protocol name='p'><interface name='i' version='4'>" ++
      "<request name='destroy' type='destructor' since='2'>" ++
      "<arg name='x' type='new_id'/></request><enum name='axis_2'>" ++
      "<entry name='&#228;Bz' value='0'/></enum><event name='v' since='3'/></interface>" ++
      "<interface name='k' version='1'/></protocol>")
    ∃ p, (parse input).result = .ok p ∧ p.Consistent ∧ p.SinceLast (openings (calls input)) ∧
      p.interfaces.map Interface.since = [3, 1] ∧
      p.interfaces.map (·.requests.map Message.newIdCount) = [[1], []] ∧
      p.uppercaseName = "P" ∧ p.interfaces.map Interface.uppercaseName = ["I", "K"] ∧
      p.interfaces.map (·.requests.map Message.uppercaseName) = [["DESTROY"], []] ∧
      p.interfaces.map (·.events.map Message.uppercaseName) = [["V"], []] ∧
      p.interfaces.map (·.enums.map Enum.uppercaseName) = [["AXIS_2"], []] ∧
      p.interfaces.map (·.enums.map (·.entries.map Entry.uppercaseName)) =
        [[["\u00e4BZ"]], []] := by
  intro input
  have hresult : (parse input).result = .ok {
      name := "p", uppercaseName := "P"
      interfaces := [{
        name := "i", uppercaseName := "I", version := 4, since := 3
        requests := [{
          name := "destroy", uppercaseName := "DESTROY", since := 2, destructor := true
          newIdCount := 1
          args := [{ name := "x", type := .newId }] }]
        events := [{ name := "v", uppercaseName := "V", since := 3 }]
        enums := [{
          name := "axis_2", uppercaseName := "AXIS_2"
          entries := [{
            name := "\u00e4Bz", uppercaseName := "\u00e4BZ", value := "0" }] }] }, {
        name := "k", uppercaseName := "K", version := 1 }] } := by decide +kernel
  obtain ⟨hconsistent, hsince⟩ := consistent_of_parse hresult
  exact ⟨_, hresult, hconsistent, hsince, rfl, rfl, rfl, rfl, rfl, rfl, rfl, rfl⟩

end WaylandDoc
