import WaylandDoc.Protocol.Builder

/-!
# Attributes that agree

A builder does not see more of the attributes of a tag than what is found under the names that the
schema gives its element (`Builder.start_congr`). So the order of the attributes and those that the
element does not know make no difference.
-/

namespace WaylandDoc

open Attribute (find?)

namespace Element

/-- The names of the attributes that the schema gives the element. -/
def attributeNames : Element → List String
  | protocol => ["name"]
  | copyright => []
  | interface => ["name", "version"]
  | request | event => ["name", "type", "since", "deprecated-since"]
  | arg => ["name", "type", "summary", "interface", "allow-null", "enum"]
  | enum => ["name", "since", "bitfield"]
  | entry => ["name", "value", "summary", "since"]
  | description => ["summary"]

/-- Under the names that the element knows the attributes have the same values. -/
def Agrees (e : Element) (as as' : List Attribute) : Prop :=
  ∀ name ∈ e.attributeNames, find? as' name = find? as name

end Element

section Agrees

variable {as as' : List Attribute}

theorem required_congr {name : String} (h : find? as' name = find? as name) :
    required as' name = required as name := by
  funext missing
  rw [required, required, h]

theorem version?_congr {name : String} (h : find? as' name = find? as name) :
    version? as' name = version? as name := by
  funext invalid
  rw [version?, version?, h]

theorem Protocol.declare_congr (h : Element.protocol.Agrees as as') :
    Protocol.declare as' = Protocol.declare as := by
  rw [declare, declare, required_congr (h "name" (by decide))]

theorem Interface.declare_congr (h : Element.interface.Agrees as as') :
    Interface.declare as' = Interface.declare as := by
  rw [declare, declare, required_congr (h "name" (by decide)),
    required_congr (h "version" (by decide))]

theorem Message.declare_congr (kind : MessageKind) (h : kind.element.Agrees as as') :
    declare kind as' = declare kind as ∧ typeNotices kind as' = typeNotices kind as := by
  have hnames : kind.element.attributeNames = ["name", "type", "since", "deprecated-since"] := by
    cases kind <;> rfl
  rw [Element.Agrees, hnames] at h
  have hname := h "name" (by decide)
  have htype := h "type" (by decide)
  have hdestructor : isDestructor as' = isDestructor as := by
    rw [isDestructor, isDestructor, htype]
  constructor
  · rw [declare, declare, required_congr hname, hdestructor,
      version?_congr (h "since" (by decide)), version?_congr (h "deprecated-since" (by decide))]
  · rw [typeNotices, typeNotices, hname, htype, hdestructor]

theorem Arg.declare_congr (h : Element.arg.Agrees as as') : Arg.declare as' = Arg.declare as := by
  have hnullable (name : String) (type : ArgType) :
      nullable? name type as' = nullable? name type as := by
    rw [nullable?, nullable?, h "allow-null" (by decide)]
  simp only [declare, required_congr (h "name" (by decide)), required_congr (h "type" (by decide)),
    h "interface" (by decide), h "enum" (by decide), h "summary" (by decide), hnullable]

theorem Enum.declare_congr (h : Element.enum.Agrees as as') :
    Enum.declare as' = Enum.declare as := by
  have hbitfield (name : String) : bitfield? name as' = bitfield? name as := by
    rw [bitfield?, bitfield?, h "bitfield" (by decide)]
  simp only [declare, required_congr (h "name" (by decide)), version?_congr (h "since" (by decide)),
    hbitfield]

theorem Entry.declare_congr (h : Element.entry.Agrees as as') :
    Entry.declare as' = Entry.declare as := by
  rw [declare, declare, required_congr (h "name" (by decide)),
    version?_congr (h "since" (by decide)), h "value" (by decide), h "summary" (by decide)]

end Agrees

theorem ok_bind {ε α β : Type} (a : α) (f : α → Except ε β) : (Except.ok a >>= f) = f a := rfl

theorem Logged.liftM_ok_bind {ν ε α β : Type} (a : α) (f : α → Logged ν ε β) :
    ((liftM (Except.ok a : Except ε α) : Logged ν ε α) >>= f) = f a := rfl

namespace Builder

variable {tag tag' : Bytes} {as as' : List Attribute}

theorem start_congr (has : attributes tag = .ok as) (has' : attributes tag' = .ok as')
    (hname : localName (Tag.name tag') = localName (Tag.name tag))
    (h : ∀ e, Element.ofName? (localName (Tag.name tag)) = some e → e.Agrees as as')
    (b : Builder) : b.start tag' = b.start tag := by
  rw [start, start, hname]
  cases he : Element.ofName? (localName (Tag.name tag)) with
  | none => rfl
  | some e =>
    have hagrees := h e he
    cases e with
    | protocol =>
      have hdeclare := Protocol.declare_congr hagrees
      simp only [startProtocol, has, has', Logged.liftM_ok_bind, hdeclare]
    | copyright => rfl
    | interface =>
      have hdeclare := Interface.declare_congr hagrees
      simp only [startInterface, has, has', Logged.liftM_ok_bind, hdeclare]
    | request =>
      have hdeclare := Message.declare_congr .request hagrees
      simp only [startMessage, has, has', Logged.liftM_ok_bind, hdeclare]
    | event =>
      have hdeclare := Message.declare_congr .event hagrees
      simp only [startMessage, has, has', Logged.liftM_ok_bind, hdeclare]
    | arg =>
      have hdeclare := Arg.declare_congr hagrees
      simp only [startArg, has, has', ok_bind, hdeclare]
    | enum =>
      have hdeclare := Enum.declare_congr hagrees
      simp only [startEnum, has, has', ok_bind, hdeclare]
    | entry =>
      have hdeclare := Entry.declare_congr hagrees
      simp only [startEntry, has, has', ok_bind, hdeclare]
    | description =>
      have hsummary := required_congr (hagrees "summary" (by decide))
      simp only [startDescription, has, has', ok_bind, hsummary]

end Builder
end WaylandDoc
