import WaylandDoc.Markup.Attribute
import WaylandDoc.Protocol.Element

/-!
# Schema errors

Why a document in which every tag is well formed is not a protocol description.
-/

namespace WaylandDoc

/-- What an element has to be inside of. -/
inductive Container where
  | protocol
  | interface
  | message
  | enum
  deriving DecidableEq, Repr

def Container.name : Container → String
  | protocol => "protocol"
  | interface => "interface"
  | message => "request or event"
  | enum => "enum"

inductive SchemaError where
  | badAttribute (fault : Attribute.Fault)
  | missingProtocolName
  | duplicateProtocol
  | noProtocol
  | missingName (element : Element)
  | missingVersion (interface : String)
  | invalidVersion (interface version : String) (fault : Numeral.Fault)
  | zeroVersion (interface : String)
  | invalidSince (name since : String) (fault : Numeral.Fault)
  | invalidDeprecatedSince (name since : String) (fault : Numeral.Fault)
  | destroyNotDestructor (kind : MessageKind) (name : String)
  | missingArgType (arg : String)
  | unknownArgType (arg type : String)
  | interfaceNotAllowed (arg : String) (type : ArgType)
  | allowNullNotAllowed (arg : String) (type : ArgType)
  | invalidAllowNull (arg value : String)
  | invalidBitfield (enum value : String)
  | missingSummary
  | misplaced (element : Element) (container : Container)
  | nested (element inner : Element)
  /-- A cursor leads to no node of the tree. No document causes this. -/
  | danglingCursor
  deriving DecidableEq, Repr

namespace SchemaError

def message : SchemaError → String
  | badAttribute _ => "Could not parse an attribute"
  | missingProtocolName => "no protocol name given"
  | duplicateProtocol => "The document contains more than one protocol element"
  | noProtocol => "The document contains no protocol element"
  | missingName element => s!"no {element.name} name given"
  | missingVersion interface => s!"no interface version given for interface {interface}"
  | invalidVersion interface version _ => s!"invalid version `{version}` for interface {interface}"
  | zeroVersion interface => s!"interface {interface} has version 0"
  | invalidSince name since _ => s!"invalid integer `{since}` in since attribute of {name}"
  | invalidDeprecatedSince name since _ =>
    s!"invalid integer `{since}` in deprecated-since attribute of {name}"
  | destroyNotDestructor kind name => s!"{kind.element.name} {name} must be of type destructor"
  | missingArgType arg => s!"no type given for argument {arg}"
  | unknownArgType arg type => s!"unknown type `{type}` for argument {arg}"
  | interfaceNotAllowed arg type =>
    s!"interface attribute not allowed for argument {arg} of type {type.name}"
  | allowNullNotAllowed arg type =>
    "allow-null is only valid for objects, strings, and arrays, " ++
      s!"not for argument {arg} of type {type.name}"
  | invalidAllowNull arg value =>
    s!"invalid value `{value}` for allow-null attribute of argument {arg}"
  | invalidBitfield enum value => s!"invalid value `{value}` for bitfield attribute of enum {enum}"
  | missingSummary => "description without summary"
  | misplaced element container => s!"<{element.name}> element outside of <{container.name}>"
  | nested element inner => s!"<{element.name}> element inside <{inner.name}>"
  | danglingCursor => "a cursor leads to no node of the tree"

/-- The text of the error and those of its causes. -/
def chain (e : SchemaError) : List String :=
  e.message :: match e with
    | badAttribute fault => fault.chain
    | invalidVersion _ _ fault | invalidSince _ _ fault | invalidDeprecatedSince _ _ fault =>
      [fault.message]
    | _ => []

end SchemaError

end WaylandDoc
