import WaylandDoc.Protocol.Basic
import WaylandDoc.Text.Bytes

/-!
# Elements

The nine elements of a protocol description. All other elements are ignored.
-/

namespace WaylandDoc

inductive Element where
  | protocol
  | copyright
  | interface
  | request
  | event
  | arg
  | enum
  | entry
  | description
  deriving DecidableEq, Repr

namespace Element

def all : List Element :=
  [protocol, copyright, interface, request, event, arg, enum, entry, description]

def name : Element → String
  | protocol => "protocol"
  | copyright => "copyright"
  | interface => "interface"
  | request => "request"
  | event => "event"
  | arg => "arg"
  | enum => "enum"
  | entry => "entry"
  | description => "description"

def ofName? (name : Bytes) : Option Element := all.find? (ascii ·.name == name)

theorem ofName?_eq_some {name : Bytes} {e : Element} :
    ofName? name = some e ↔ name = ascii e.name := by
  constructor
  · intro h
    have := List.find?_some h
    exact (beq_iff_eq.1 this).symm
  · rintro rfl
    cases e <;> decide

theorem ofName?_name (e : Element) : ofName? (ascii e.name) = some e :=
  ofName?_eq_some.2 rfl

end Element

/-- The element that declares messages of the kind. -/
def MessageKind.element : MessageKind → Element
  | request => .request
  | event => .event

end WaylandDoc
