import WaylandDoc.Protocol.Place

/-!
# Looking up places

What is found at a place after the tree was changed at another place or at the same. A node that
is added with nothing below it (`Fresh`) hides no place and brings no description.
-/

namespace WaylandDoc

/-! ## Lists in two parts -/

section Append

variable {α : Type} {l : List α} {n : Nat}

theorem modify_append_left (h : n < l.length) (l' : List α) (f : α → α) :
    (l ++ l').modify n f = l.modify n f ++ l' := by
  induction l generalizing n with
  | nil => cases h
  | cons a l ih =>
    cases n with
    | zero => rfl
    | succ n => exact congrArg (a :: ·) (ih (Nat.lt_of_succ_lt_succ h))

theorem modify_append_right (l l' : List α) (n : Nat) (f : α → α) :
    (l ++ l').modify (l.length + n) f = l ++ l'.modify n f := by
  induction l with
  | nil => simp
  | cons a l ih =>
    rw [List.cons_append, List.length_cons, Nat.add_right_comm]
    exact congrArg (a :: ·) ih

end Append

/-! ## Messages of an interface -/

namespace Interface

variable (i : Interface)

@[simp] theorem messages_request : i.messages .request = i.requests := rfl

@[simp] theorem messages_event : i.messages .event = i.events := rfl

theorem messages_modifyMessages (kind kind' : MessageKind) (f : List Message → List Message) :
    (i.modifyMessages kind f).messages kind' =
      if kind = kind' then f (i.messages kind') else i.messages kind' := by
  cases kind <;> cases kind' <;> rfl

@[simp] theorem enums_modifyMessages (kind : MessageKind) (f : List Message → List Message) :
    (i.modifyMessages kind f).enums = i.enums := by
  cases kind <;> rfl

@[simp] theorem description_modifyMessages (kind : MessageKind) (f : List Message → List Message) :
    (i.modifyMessages kind f).description = i.description := by
  cases kind <;> rfl

theorem messages_addMessage (kind kind' : MessageKind) (m : Message) :
    (i.addMessage kind m).messages kind' =
      if kind = kind' then i.messages kind' ++ [m] else i.messages kind' := by
  cases kind <;> cases kind' <;> rfl

@[simp] theorem enums_addMessage (kind : MessageKind) (m : Message) :
    (i.addMessage kind m).enums = i.enums := by
  cases kind <;> rfl

@[simp] theorem description_addMessage (kind : MessageKind) (m : Message) :
    (i.addMessage kind m).description = i.description := by
  cases kind <;> rfl

@[simp] theorem messages_addEnum (kind : MessageKind) (e : Enum) :
    (i.addEnum e).messages kind = i.messages kind := by
  cases kind <;> rfl

end Interface

namespace Protocol

variable (p : Protocol)

/-! ## Lookups after a change -/

theorem interface?_modifyInterface (i j : Nat) (f : Interface → Interface) :
    (p.modifyInterface i f).interface? j =
      if i = j then (p.interface? j).map f else p.interface? j := by
  simp only [interface?, modifyInterface, List.getElem?_modify]
  split <;> simp

theorem message?_modifyMessage (i j m n : Nat) (kind kind' : MessageKind)
    (f : Message → Message) :
    (p.modifyMessage i kind m f).message? j kind' n =
      if i = j ∧ kind = kind' ∧ m = n then (p.message? j kind' n).map f
      else p.message? j kind' n := by
  simp only [message?, modifyMessage, interface?_modifyInterface]
  cases p.interface? j with
  | none => simp
  | some x =>
    by_cases hi : i = j
    · by_cases hk : kind = kind'
      · simp [hi, hk, Interface.messages_modifyMessages, List.getElem?_modify]
        split <;> simp
      · simp [hi, hk, Interface.messages_modifyMessages]
    · simp [hi]

theorem enum?_modifyEnum (i j e n : Nat) (f : Enum → Enum) :
    (p.modifyEnum i e f).enum? j n =
      if i = j ∧ e = n then (p.enum? j n).map f else p.enum? j n := by
  simp only [enum?, modifyEnum, interface?_modifyInterface]
  by_cases hi : i = j <;> cases p.interface? j <;> grind

/-! ## What a change does not touch -/

variable {β : Type}

theorem interface?_bind_modifyInterface {f : Interface → Interface} {g : Interface → Option β}
    (hg : ∀ i, g (f i) = g i) (i j : Nat) :
    ((p.modifyInterface i f).interface? j).bind g = (p.interface? j).bind g := by
  rw [interface?_modifyInterface]
  split <;> cases p.interface? j <;> simp [hg]

theorem message?_modifyInterface {f : Interface → Interface}
    (hf : ∀ i kind, (f i).messages kind = i.messages kind) (i j m : Nat) (kind : MessageKind) :
    (p.modifyInterface i f).message? j kind m = p.message? j kind m :=
  p.interface?_bind_modifyInterface (fun x => by rw [hf x kind]) i j

theorem enum?_modifyInterface {f : Interface → Interface} (hf : ∀ i, (f i).enums = i.enums)
    (i j e : Nat) : (p.modifyInterface i f).enum? j e = p.enum? j e :=
  p.interface?_bind_modifyInterface (fun x => by rw [hf x]) i j

theorem message?_bind_modifyMessage {f : Message → Message} {g : Message → Option β}
    (hg : ∀ m, g (f m) = g m) (i j m n : Nat) (kind kind' : MessageKind) :
    ((p.modifyMessage i kind m f).message? j kind' n).bind g = (p.message? j kind' n).bind g := by
  rw [message?_modifyMessage]
  split <;> cases p.message? j kind' n <;> simp [hg]

theorem enum?_bind_modifyEnum {f : Enum → Enum} {g : Enum → Option β} (hg : ∀ e, g (f e) = g e)
    (i j e n : Nat) : ((p.modifyEnum i e f).enum? j n).bind g = (p.enum? j n).bind g := by
  rw [enum?_modifyEnum]
  split <;> cases p.enum? j n <;> simp [hg]

theorem enum?_modifyMessage (i j m e : Nat) (kind : MessageKind) (f : Message → Message) :
    (p.modifyMessage i kind m f).enum? j e = p.enum? j e :=
  p.enum?_modifyInterface (fun x => x.enums_modifyMessages kind _) i j e

theorem message?_modifyEnum (i j e m : Nat) (kind : MessageKind) (f : Enum → Enum) :
    (p.modifyEnum i e f).message? j kind m = p.message? j kind m :=
  p.message?_modifyInterface (fun _ kind => by cases kind <;> rfl) i j m kind

/-! ## Lookups after a node was added

Either nothing has changed, or there was nothing and the new node is found. -/

theorem getElem?_concat_or {α : Type} (l : List α) (x : α) (j : Nat) :
    (l ++ [x])[j]? = l[j]? ∨ l[j]? = none ∧ (l ++ [x])[j]? = some x := by
  rcases Nat.lt_trichotomy j l.length with h | rfl | h
  · exact .inl (List.getElem?_append_left h)
  · exact .inr ⟨List.getElem?_eq_none (Nat.le_refl _), List.getElem?_concat_length⟩
  · have hlength : (l ++ [x]).length ≤ j := by
      rw [List.length_append, List.length_singleton]
      exact h
    rw [List.getElem?_eq_none hlength, List.getElem?_eq_none (Nat.le_of_lt h)]
    exact .inl rfl

theorem interface?_addInterface (i : Interface) (j : Nat) :
    (p.addInterface i).interface? j = p.interface? j ∨
      p.interface? j = none ∧ (p.addInterface i).interface? j = some i :=
  getElem?_concat_or p.interfaces i j

theorem message?_addMessage (i j n : Nat) (kind kind' : MessageKind) (m : Message) :
    (p.modifyInterface i (·.addMessage kind m)).message? j kind' n = p.message? j kind' n ∨
      p.message? j kind' n = none ∧
        (p.modifyInterface i (·.addMessage kind m)).message? j kind' n = some m := by
  simp only [message?, interface?_modifyInterface]
  cases p.interface? j with
  | none => simp
  | some x =>
    by_cases hi : i = j
    · simp only [hi, if_true, Option.map_some, Option.bind_some, Interface.messages_addMessage]
      split
      · exact getElem?_concat_or ..
      · exact .inl rfl
    · simp [hi]

theorem enum?_addEnum (i j n : Nat) (e : Enum) :
    (p.modifyInterface i (·.addEnum e)).enum? j n = p.enum? j n ∨
      p.enum? j n = none ∧ (p.modifyInterface i (·.addEnum e)).enum? j n = some e := by
  simp only [enum?, interface?_modifyInterface]
  cases p.interface? j with
  | none => simp
  | some x =>
    by_cases hi : i = j
    · simpa [hi, Interface.addEnum] using getElem?_concat_or x.enums e n
    · simp [hi]

theorem arg?_addArg (i j m n b : Nat) (kind kind' : MessageKind) (a : Arg) :
    (p.modifyMessage i kind m (·.addArg a)).arg? j kind' n b = p.arg? j kind' n b ∨
      p.arg? j kind' n b = none ∧
        (p.modifyMessage i kind m (·.addArg a)).arg? j kind' n b = some a := by
  simp only [arg?, message?_modifyMessage]
  cases p.message? j kind' n with
  | none => simp
  | some x =>
    by_cases hm : i = j ∧ kind = kind' ∧ m = n
    · simpa [hm, Message.addArg] using getElem?_concat_or x.args a b
    · simp [hm]

theorem entry?_addEntry (i j e n k : Nat) (x : Entry) :
    entry? (p.modifyEnum i e (·.addEntry x)) j n k = p.entry? j n k ∨
      p.entry? j n k = none ∧ entry? (p.modifyEnum i e (·.addEntry x)) j n k = some x := by
  simp only [enum?_modifyEnum, entry?]
  cases p.enum? j n with
  | none => simp
  | some y =>
    by_cases he : i = j ∧ e = n
    · simpa [he, Enum.addEntry] using getElem?_concat_or y.entries x k
    · simp [he]

/-! ## Descriptions -/

/-- The description of the node at the place, if there is such a node. -/
def slot? : Place → Option (Option Description)
  | .protocol => some p.description
  | .interface i => (p.interface? i).map Interface.description
  | .message i kind m => (p.message? i kind m).map Message.description
  | .arg i kind m a => (p.arg? i kind m a).map Arg.description
  | .enum i e => (p.enum? i e).map Enum.description
  | .entry i e n => (p.entry? i e n).map Entry.description

theorem has_eq (q : Place) : p.has q = (p.slot? q).isSome := by
  cases q <;> simp [has, slot?]

theorem messages_describe (i : Interface) (d : Description) (kind : MessageKind) :
    ({ i with description := some d } : Interface).messages kind = i.messages kind := by
  cases kind <;> rfl

theorem arg?_modifyArg (i j m n a b : Nat) (kind kind' : MessageKind) (f : Arg → Arg) :
    (p.modifyArg i kind m a f).arg? j kind' n b =
      if i = j ∧ kind = kind' ∧ m = n ∧ a = b then (p.arg? j kind' n b).map f
      else p.arg? j kind' n b := by
  simp only [arg?, modifyArg, message?_modifyMessage]
  cases p.message? j kind' n <;> grind

theorem entry?_modifyEntry (i j e n k l : Nat) (f : Entry → Entry) :
    entry? (p.modifyEntry i e k f) j n l =
      if i = j ∧ e = n ∧ k = l then (p.entry? j n l).map f else p.entry? j n l := by
  simp only [modifyEntry, enum?_modifyEnum, entry?]
  cases p.enum? j n <;> grind

section Describe

variable (d : Description)

theorem slot?_describe_interface (i : Nat) (r : Place) :
    (p.describe d (.interface i)).slot? r =
      if r = .interface i then (p.slot? r).map fun _ => some d else p.slot? r := by
  cases r with
  | protocol => rfl
  | interface j =>
    simp only [describe, slot?, interface?_modifyInterface]
    cases p.interface? j <;> grind
  | message j kind m => simp [describe, slot?, message?_modifyInterface, messages_describe]
  | arg j kind m a => simp [describe, slot?, arg?, message?_modifyInterface, messages_describe]
  | enum j e => simp [describe, slot?, enum?_modifyInterface]
  | entry j e n => simp [describe, slot?, entry?, enum?_modifyInterface]

theorem slot?_describe_message (i m : Nat) (kind : MessageKind) (r : Place) :
    (p.describe d (.message i kind m)).slot? r =
      if r = .message i kind m then (p.slot? r).map fun _ => some d else p.slot? r := by
  cases r with
  | protocol => rfl
  | interface j =>
    simp [describe, slot?, modifyMessage, Option.map_eq_bind, interface?_bind_modifyInterface]
  | message j kind' n =>
    simp only [describe, slot?, message?_modifyMessage]
    cases p.message? j kind' n <;> grind
  | arg j kind' n a => simp [describe, slot?, arg?, message?_bind_modifyMessage]
  | enum j e => simp [describe, slot?, enum?_modifyMessage]
  | entry j e n => simp [describe, slot?, entry?, enum?_modifyMessage]

theorem slot?_describe_arg (i m a : Nat) (kind : MessageKind) (r : Place) :
    (p.describe d (.arg i kind m a)).slot? r =
      if r = .arg i kind m a then (p.slot? r).map fun _ => some d else p.slot? r := by
  cases r with
  | protocol => rfl
  | interface j =>
    simp [describe, slot?, modifyArg, modifyMessage, Option.map_eq_bind,
      interface?_bind_modifyInterface]
  | message j kind' n =>
    simp [describe, slot?, modifyArg, Option.map_eq_bind, message?_bind_modifyMessage]
  | arg j kind' n b =>
    simp only [describe, slot?, arg?_modifyArg]
    cases p.arg? j kind' n b <;> grind
  | enum j e => simp [describe, slot?, modifyArg, enum?_modifyMessage]
  | entry j e n => simp [describe, slot?, modifyArg, entry?, enum?_modifyMessage]

theorem slot?_describe_enum (i e : Nat) (r : Place) :
    (p.describe d (.enum i e)).slot? r =
      if r = .enum i e then (p.slot? r).map fun _ => some d else p.slot? r := by
  cases r with
  | protocol => rfl
  | interface j =>
    simp [describe, slot?, modifyEnum, Option.map_eq_bind, interface?_bind_modifyInterface]
  | message j kind m => simp [describe, slot?, message?_modifyEnum]
  | arg j kind m a => simp [describe, slot?, arg?, message?_modifyEnum]
  | enum j n =>
    simp only [describe, slot?, enum?_modifyEnum]
    cases p.enum? j n <;> grind
  | entry j n k => simp [describe, slot?, entry?, enum?_bind_modifyEnum]

theorem slot?_describe_entry (i e n : Nat) (r : Place) :
    (p.describe d (.entry i e n)).slot? r =
      if r = .entry i e n then (p.slot? r).map fun _ => some d else p.slot? r := by
  cases r with
  | protocol => rfl
  | interface j =>
    simp [describe, slot?, modifyEntry, modifyEnum, Option.map_eq_bind,
      interface?_bind_modifyInterface]
  | message j kind m => simp [describe, slot?, modifyEntry, message?_modifyEnum]
  | arg j kind m a => simp [describe, slot?, arg?, modifyEntry, message?_modifyEnum]
  | enum j k => simp [describe, slot?, modifyEntry, Option.map_eq_bind, enum?_bind_modifyEnum]
  | entry j k l =>
    simp only [describe, slot?, entry?_modifyEntry]
    cases p.entry? j k l <;> grind

/-- A description changes no node but that it is for. -/
theorem slot?_describe (q r : Place) :
    (p.describe d q).slot? r = if r = q then (p.slot? r).map fun _ => some d else p.slot? r := by
  cases q with
  | protocol => cases r <;> rfl
  | interface i => exact p.slot?_describe_interface d i r
  | message i kind m => exact p.slot?_describe_message d i m kind r
  | arg i kind m a => exact p.slot?_describe_arg d i m a kind r
  | enum i e => exact p.slot?_describe_enum d i e r
  | entry i e n => exact p.slot?_describe_entry d i e n r

@[simp] theorem has_describe (q r : Place) : (p.describe d q).has r = p.has r := by
  rw [has_eq, has_eq, slot?_describe]
  split <;> simp

end Describe

end Protocol

/-! ## Growing -/

structure Interface.Fresh (i : Interface) : Prop where
  description : i.description = none
  messages : ∀ kind, i.messages kind = []
  enums : i.enums = []

structure Message.Fresh (m : Message) : Prop where
  description : m.description = none
  args : m.args = []

structure Enum.Fresh (e : Enum) : Prop where
  description : e.description = none
  entries : e.entries = []

namespace Protocol

/-- One node is added to the tree, with nothing below it. -/
inductive Grows (p : Protocol) : Protocol → Prop where
  | interface {x : Interface} (h : x.Fresh) : Grows p (p.addInterface x)
  | message {m : Message} (h : m.Fresh) (i : Nat) (kind : MessageKind) :
      Grows p (p.modifyInterface i (·.addMessage kind m))
  | arg {a : Arg} (h : a.description = none) (i : Nat) (kind : MessageKind) (m : Nat) :
      Grows p (p.modifyMessage i kind m (·.addArg a))
  | enum {e : Enum} (h : e.Fresh) (i : Nat) : Grows p (p.modifyInterface i (·.addEnum e))
  | entry {x : Entry} (h : x.description = none) (i e : Nat) :
      Grows p (p.modifyEnum i e (·.addEntry x))

section Fresh

variable {β : Type} (p : Protocol)

theorem message?_addInterface {x : Interface} (h : x.Fresh) (j m : Nat) (kind : MessageKind) :
    (p.addInterface x).message? j kind m = p.message? j kind m := by
  simp only [message?]
  rcases p.interface?_addInterface x j with hj | ⟨hj, hj'⟩
  · rw [hj]
  · simp [hj, hj', h.messages]

theorem enum?_addInterface {x : Interface} (h : x.Fresh) (j e : Nat) :
    (p.addInterface x).enum? j e = p.enum? j e := by
  simp only [enum?]
  rcases p.interface?_addInterface x j with hj | ⟨hj, hj'⟩
  · rw [hj]
  · simp [hj, hj', h.enums]

theorem arg?_addMessage {x : Message} (h : x.Fresh) (i j m a : Nat) (kind kind' : MessageKind) :
    (p.modifyInterface i (·.addMessage kind x)).arg? j kind' m a = p.arg? j kind' m a := by
  simp only [arg?]
  rcases p.message?_addMessage i j m kind kind' x with hj | ⟨hj, hj'⟩
  · rw [hj]
  · simp [hj, hj', h.args]

theorem entry?_addEnum {x : Enum} (h : x.Fresh) (i j e n : Nat) :
    entry? (p.modifyInterface i (·.addEnum x)) j e n = p.entry? j e n := by
  unfold entry?
  rcases p.enum?_addEnum i j e x with hj | ⟨hj, hj'⟩
  · rw [hj]
  · simp [hj, hj', h.entries]

/-- A lookup that has not changed or finds a node without a description. -/
theorem map_eq_or {found found' : Option β} {x : β} {g : β → Option Description}
    (h : found' = found ∨ found = none ∧ found' = some x) (hx : g x = none) :
    found'.map g = found.map g ∨ found.map g = none ∧ found'.map g = some none := by
  rcases h with rfl | ⟨rfl, rfl⟩
  · exact .inl rfl
  · exact .inr ⟨rfl, by rw [Option.map_some, hx]⟩

end Fresh

/-- Growth keeps the nodes with their descriptions, and a new node has none. -/
theorem Grows.slot? {p p' : Protocol} (h : p.Grows p') (q : Place) :
    p'.slot? q = p.slot? q ∨ p.slot? q = none ∧ p'.slot? q = some none := by
  cases h with
  | @interface x h =>
    cases q with
    | protocol => exact .inl rfl
    | interface j => exact map_eq_or (p.interface?_addInterface x j) h.description
    | message j kind m => exact .inl (by simp [Protocol.slot?, message?_addInterface, h])
    | arg j kind m a => exact .inl (by simp [Protocol.slot?, arg?, message?_addInterface, h])
    | enum j e => exact .inl (by simp [Protocol.slot?, enum?_addInterface, h])
    | entry j e n => exact .inl (by simp [Protocol.slot?, entry?, enum?_addInterface, h])
  | @message m h i kind =>
    cases q with
    | protocol => exact .inl rfl
    | interface j =>
      exact .inl (by simp [Protocol.slot?, Option.map_eq_bind, interface?_bind_modifyInterface])
    | message j kind' n => exact map_eq_or (p.message?_addMessage i j n kind kind' m) h.description
    | arg j kind' n a => exact .inl (by simp [Protocol.slot?, arg?_addMessage, h])
    | enum j e => exact .inl (by simp [Protocol.slot?, enum?_modifyInterface])
    | entry j e n => exact .inl (by simp [Protocol.slot?, entry?, enum?_modifyInterface])
  | @arg a h i kind m =>
    cases q with
    | protocol => exact .inl rfl
    | interface j =>
      exact .inl (by simp [Protocol.slot?, modifyMessage, Option.map_eq_bind,
        interface?_bind_modifyInterface])
    | message j kind' n =>
      exact .inl (by simp [Protocol.slot?, Option.map_eq_bind, message?_bind_modifyMessage,
        Message.addArg])
    | arg j kind' n b => exact map_eq_or (p.arg?_addArg i j m n b kind kind' a) h
    | enum j e => exact .inl (by simp [Protocol.slot?, enum?_modifyMessage])
    | entry j e n => exact .inl (by simp [Protocol.slot?, entry?, enum?_modifyMessage])
  | @enum e h i =>
    cases q with
    | protocol => exact .inl rfl
    | interface j =>
      exact .inl (by simp [Protocol.slot?, Option.map_eq_bind, interface?_bind_modifyInterface,
        Interface.addEnum])
    | message j kind m => exact .inl (by simp [Protocol.slot?, message?_modifyInterface])
    | arg j kind m a => exact .inl (by simp [Protocol.slot?, arg?, message?_modifyInterface])
    | enum j n => exact map_eq_or (p.enum?_addEnum i j n e) h.description
    | entry j n k => exact .inl (by simp [Protocol.slot?, entry?_addEnum, h])
  | @entry x h i e =>
    cases q with
    | protocol => exact .inl rfl
    | interface j =>
      exact .inl (by simp [Protocol.slot?, modifyEnum, Option.map_eq_bind,
        interface?_bind_modifyInterface])
    | message j kind m => exact .inl (by simp [Protocol.slot?, message?_modifyEnum])
    | arg j kind m a => exact .inl (by simp [Protocol.slot?, arg?, message?_modifyEnum])
    | enum j n =>
      exact .inl (by simp [Protocol.slot?, Option.map_eq_bind, enum?_bind_modifyEnum,
        Enum.addEntry])
    | entry j n k => exact map_eq_or (p.entry?_addEntry i j e n k x) h

theorem Grows.has {p p' : Protocol} (h : p.Grows p') {q : Place} (hq : p.has q) : p'.has q := by
  rw [has_eq] at hq ⊢
  rcases h.slot? q with hs | ⟨-, hs⟩
  · rwa [hs]
  · simp [hs]

end Protocol

end WaylandDoc
