import WaylandDoc.Log
import WaylandDoc.Protocol.Element

/-!
# Notices

What reading a protocol description tells about the document on the way.
-/

namespace WaylandDoc

inductive Notice where
  | protocol (name : String)
  | interface (name : String) (version : UInt32)
  | message (kind : MessageKind) (interface name : String)
  | unknownElement (name : String)
  /-- Messages have no type but `destructor`. -/
  | unknownType (type : String) (kind : MessageKind) (name : String)
  /-- A message is older than the one before it in its interface. -/
  | sinceDecreased (kind : MessageKind) (interface name : String) (since previous : UInt32)
  deriving DecidableEq, Repr

namespace Notice

def level : Notice → Level
  | protocol .. | interface .. | message .. => .trace
  | unknownElement .. => .info
  | unknownType .. | sinceDecreased .. => .warn

def text : Notice → String
  | protocol name => s!"Parsing protocol {name}"
  | interface name version => s!"Parsing interface {name} version {version}"
  | message kind parent name => s!"Parsing {kind.element.name} {parent}.{name}"
  | unknownElement name => s!"Ignoring unknown element <{name}>"
  | unknownType type kind name => s!"Unknown type `{type}` of {kind.element.name} {name}"
  | sinceDecreased kind parent name since previous =>
    s!"since version not increasing: {kind.element.name} {parent}.{name} " ++
      s!"has since {since} after {previous}"

end Notice

/-- What is told of a message that is added to the interface. -/
def Interface.messageNotices (i : Interface) (kind : MessageKind) (m : Message) : List Notice :=
  (if m.since < i.since then [.sinceDecreased kind i.name m.name m.since i.since] else []) ++
    [.message kind i.name m.name]

end WaylandDoc
