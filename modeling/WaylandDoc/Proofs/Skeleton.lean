import WaylandDoc.Protocol.Place

/-!
# Skeletons

The tree without its copyright and its descriptions. Describing a node leaves the skeleton as it
is, so whatever is said of the skeleton alone holds of every later tree until a node is added.
-/

namespace WaylandDoc

def Arg.skeleton (a : Arg) : Arg := { a with description := none }

def Message.skeleton (m : Message) : Message :=
  { m with description := none, args := m.args.map Arg.skeleton }

def Entry.skeleton (n : Entry) : Entry := { n with description := none }

def Enum.skeleton (e : Enum) : Enum :=
  { e with description := none, entries := e.entries.map Entry.skeleton }

def Interface.skeleton (i : Interface) : Interface :=
  { i with
    description := none
    requests := i.requests.map Message.skeleton
    events := i.events.map Message.skeleton
    enums := i.enums.map Enum.skeleton }

def Protocol.skeleton (p : Protocol) : Protocol :=
  { p with
    copyright := none, description := none, interfaces := p.interfaces.map Interface.skeleton }

/-- A change of one element that `g` does not see. -/
theorem map_modify_of_eq {α β : Type} {f : α → α} {g : α → β} (h : ∀ a, g (f a) = g a)
    (l : List α) (i : Nat) : (l.modify i f).map g = l.map g := by
  refine List.ext_getElem? fun j => ?_
  rw [List.getElem?_map, List.getElem?_map, List.getElem?_modify]
  split <;> cases l[j]? <;> simp [h]

/-! ## Changes that skeletons do not see -/

theorem Interface.skeleton_modifyMessages {f : List Message → List Message}
    (h : ∀ l, (f l).map Message.skeleton = l.map Message.skeleton) (i : Interface)
    (kind : MessageKind) : (i.modifyMessages kind f).skeleton = i.skeleton := by
  cases kind <;> simp [modifyMessages, skeleton, h]

theorem Interface.messages_skeleton (i : Interface) (kind : MessageKind) :
    i.skeleton.messages kind = (i.messages kind).map Message.skeleton := by
  cases kind <;> rfl

namespace Protocol

variable (p : Protocol)

theorem skeleton_modifyInterface {f : Interface → Interface}
    (h : ∀ i, (f i).skeleton = i.skeleton) (i : Nat) :
    (p.modifyInterface i f).skeleton = p.skeleton := by
  simp [modifyInterface, skeleton, map_modify_of_eq h]

theorem skeleton_modifyMessage {f : Message → Message} (h : ∀ m, (f m).skeleton = m.skeleton)
    (i m : Nat) (kind : MessageKind) : (p.modifyMessage i kind m f).skeleton = p.skeleton :=
  p.skeleton_modifyInterface
    (fun x => x.skeleton_modifyMessages (fun l => map_modify_of_eq h l m) kind) i

theorem skeleton_modifyEnum {f : Enum → Enum} (h : ∀ e, (f e).skeleton = e.skeleton) (i e : Nat) :
    (p.modifyEnum i e f).skeleton = p.skeleton :=
  p.skeleton_modifyInterface (fun x => by simp [Interface.skeleton, map_modify_of_eq h]) i

@[simp] theorem skeleton_describe (d : Description) (q : Place) :
    (p.describe d q).skeleton = p.skeleton := by
  cases q with
  | protocol => rfl
  | interface i =>
    refine p.skeleton_modifyInterface ?_ i
    exact fun _ => rfl
  | message i kind m =>
    refine p.skeleton_modifyMessage ?_ i m kind
    exact fun _ => rfl
  | arg i kind m a =>
    refine p.skeleton_modifyMessage (fun x => ?_) i m kind
    have h := map_modify_of_eq (l := x.args) (i := a) (g := Arg.skeleton)
      (f := fun y => { y with description := some d }) fun _ => rfl
    simp [Message.skeleton, h]
  | enum i e =>
    refine p.skeleton_modifyEnum ?_ i e
    exact fun _ => rfl
  | entry i e n =>
    refine p.skeleton_modifyEnum (fun x => ?_) i e
    have h := map_modify_of_eq (l := x.entries) (i := n) (g := Entry.skeleton)
      (f := fun y => { y with description := some d }) fun _ => rfl
    simp [Enum.skeleton, h]

/-! ## Lookups in skeletons -/

theorem interface?_skeleton (i : Nat) :
    p.skeleton.interface? i = (p.interface? i).map Interface.skeleton := by
  simp [interface?, skeleton]

theorem message?_skeleton (i m : Nat) (kind : MessageKind) :
    p.skeleton.message? i kind m = (p.message? i kind m).map Message.skeleton := by
  simp only [message?, interface?_skeleton]
  cases p.interface? i <;> simp [Interface.messages_skeleton]

theorem enum?_skeleton (i e : Nat) :
    p.skeleton.enum? i e = (p.enum? i e).map Enum.skeleton := by
  simp only [enum?, interface?_skeleton]
  cases p.interface? i <;> simp [Interface.skeleton]

end Protocol

end WaylandDoc
