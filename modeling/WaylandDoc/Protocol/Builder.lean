import WaylandDoc.Protocol.Declaration
import WaylandDoc.Protocol.Place

/-!
# Building the tree

A builder is told of every start tag, end tag and piece of character data in document order. Its
cursors say which node a new child goes to; they are indices into the tree, and a node started
inside of another moves only the cursors below its own. Character data counts only while it is
collected for a copyright or a description, whose place is fixed at its start tag.
-/

namespace WaylandDoc

/-- What character data is collected for. -/
inductive Purpose where
  | copyright
  | description (place : Place) (summary : String)
  deriving DecidableEq, Repr

def Purpose.element : Purpose → Element
  | copyright => .copyright
  | description .. => .description

structure Pending where
  purpose : Purpose
  text : String := ""
  deriving DecidableEq, Repr

/-- The tree so far and the cursors: the current interface, the current message and enum in it,
the current argument of the message and the current entry of the enum. -/
structure Builder where
  protocol : Option Protocol := none
  interface : Option Nat := none
  message : Option (MessageKind × Nat) := none
  arg : Option Nat := none
  enum : Option Nat := none
  entry : Option Nat := none
  pending : Option Pending := none
  deriving DecidableEq, Repr

namespace Builder

/-! ## The nodes under the cursors -/

/-- The protocol, as `element` needs it around itself. -/
def currentProtocol (b : Builder) (element : Element) : Except SchemaError Protocol :=
  match b.protocol with
  | some p => .ok p
  | none => .error (.misplaced element .protocol)

def node {α : Type} : Option α → Except SchemaError α
  | some x => .ok x
  | none => .error .danglingCursor

/-- The current interface and its index. -/
def currentInterface (b : Builder) (element : Element) : Except SchemaError (Nat × Interface) :=
  match b.interface with
  | none => .error (.misplaced element .interface)
  | some i => do
    let p ← b.currentProtocol element
    return (i, ← node (p.interface? i))

/-- The current message and its indices. -/
def currentMessage (b : Builder) (element : Element) :
    Except SchemaError ((Nat × MessageKind × Nat) × Message) :=
  match b.message with
  | none => .error (.misplaced element .message)
  | some (kind, m) => do
    let (i, interface) ← b.currentInterface element
    return ((i, kind, m), ← node (interface.messages kind)[m]?)

/-- The current enum and its indices. -/
def currentEnum (b : Builder) (element : Element) :
    Except SchemaError ((Nat × Nat) × Enum) :=
  match b.enum with
  | none => .error (.misplaced element .enum)
  | some e => do
    let (i, interface) ← b.currentInterface element
    return ((i, e), ← node interface.enums[e]?)

def modify (b : Builder) (f : Protocol → Protocol) : Builder :=
  { b with protocol := b.protocol.map f }

/-! ## Start tags -/

/-- The attributes of a tag. -/
def attributes (tag : Bytes) : Except SchemaError (List Attribute) :=
  (Attribute.ofTag tag).mapError .badAttribute

/-- Character data is collected for one element at a time. -/
def checkNotCollecting (b : Builder) (element : Element) : Except SchemaError Unit :=
  match b.pending with
  | some pending => .error (.nested element pending.purpose.element)
  | none => .ok ()

def startProtocol (b : Builder) (tag : Bytes) : Logged Notice SchemaError Builder :=
  match b.protocol with
  | some _ => .fail .duplicateProtocol
  | none => do
    let p ← Protocol.declare (← attributes tag)
    Logged.note [.protocol p.name]
    return { b with protocol := some p }

def startCopyright (b : Builder) : Except SchemaError Builder := do
  let _ ← b.currentProtocol .copyright
  b.checkNotCollecting .copyright
  return { b with pending := some { purpose := .copyright } }

def startInterface (b : Builder) (tag : Bytes) : Logged Notice SchemaError Builder := do
  let interface ← Interface.declare (← attributes tag)
  Logged.note [.interface interface.name interface.version]
  let p ← b.currentProtocol .interface
  return { b with
    protocol := some (p.addInterface interface)
    interface := some p.interfaces.length
    message := none, arg := none, enum := none, entry := none }

def startMessage (b : Builder) (kind : MessageKind) (tag : Bytes) :
    Logged Notice SchemaError Builder := do
  let attributes ← attributes tag
  Logged.note (Message.typeNotices kind attributes)
  let message ← Message.declare kind attributes
  let (i, interface) ← b.currentInterface kind.element
  Logged.note (interface.messageNotices kind message)
  return { b.modify (·.modifyInterface i (·.addMessage kind message)) with
    message := some (kind, (interface.messages kind).length), arg := none }

def startArg (b : Builder) (tag : Bytes) : Except SchemaError Builder := do
  let arg ← Arg.declare (← attributes tag)
  let ((i, kind, m), message) ← b.currentMessage .arg
  return { b.modify (·.modifyMessage i kind m (·.addArg arg)) with
    arg := some message.args.length }

def startEnum (b : Builder) (tag : Bytes) : Except SchemaError Builder := do
  let enum ← Enum.declare (← attributes tag)
  let (i, interface) ← b.currentInterface .enum
  return { b.modify (·.modifyInterface i (·.addEnum enum)) with
    enum := some interface.enums.length, entry := none }

def startEntry (b : Builder) (tag : Bytes) : Except SchemaError Builder := do
  let entry ← Entry.declare (← attributes tag)
  let ((i, e), enum) ← b.currentEnum .entry
  return { b.modify (·.modifyEnum i e (·.addEntry entry)) with
    entry := some enum.entries.length }

/-- A description belongs to the innermost node under the cursors. An entry comes before an
argument, and a message before an enum. -/
def descriptionPlace (b : Builder) : Except SchemaError Place :=
  match b.protocol, b.interface with
  | none, _ => .error (.misplaced .description .protocol)
  | some _, none => .ok .protocol
  | some _, some i =>
    match b.message, b.arg, b.enum, b.entry with
    | _, _, some e, some n => .ok (.entry i e n)
    | some (kind, m), some a, _, _ => .ok (.arg i kind m a)
    | some (kind, m), none, _, _ => .ok (.message i kind m)
    | none, _, some e, none => .ok (.enum i e)
    | none, _, none, _ => .ok (.interface i)

def startDescription (b : Builder) (tag : Bytes) : Except SchemaError Builder := do
  let summary ← required (← attributes tag) "summary" .missingSummary
  b.checkNotCollecting .description
  let place ← b.descriptionPlace
  return { b with pending := some { purpose := .description place summary } }

/-- A start tag. The attributes of a copyright and of an unknown element are not read. -/
def start (b : Builder) (tag : Bytes) : Logged Notice SchemaError Builder :=
  let name := localName (Tag.name tag)
  match Element.ofName? name with
  | some .protocol => b.startProtocol tag
  | some .copyright => .ofExcept b.startCopyright
  | some .interface => b.startInterface tag
  | some .request => b.startMessage .request tag
  | some .event => b.startMessage .event tag
  | some .arg => .ofExcept (b.startArg tag)
  | some .enum => .ofExcept (b.startEnum tag)
  | some .entry => .ofExcept (b.startEntry tag)
  | some .description => .ofExcept (b.startDescription tag)
  | none => do
    Logged.note [.unknownElement (Utf8.decodeLossy name)]
    return b

/-! ## Character data and end tags -/

def text (b : Builder) (s : String) : Builder :=
  { b with pending := b.pending.map fun pending => { pending with text := pending.text ++ s } }

/-- Stores the text that was collected. -/
def finishText (b : Builder) : Except SchemaError Builder :=
  match b.pending with
  | none => .ok b
  | some pending => do
    let p ← b.currentProtocol pending.purpose.element
    match pending.purpose with
    | .copyright =>
      return { b with protocol := some { p with copyright := some pending.text }, pending := none }
    | .description place summary =>
      if p.has place then
        return { b with
          protocol := some (p.describe { summary, body := pending.text } place), pending := none }
      else .error .danglingCursor

/-- An end tag, with the local name of its element. -/
def close (b : Builder) (name : Bytes) : Except SchemaError Builder :=
  match Element.ofName? name with
  | some .copyright | some .description => b.finishText
  | some .request | some .event => .ok { b with message := none, arg := none }
  | some .arg => .ok { b with arg := none }
  | some .enum => .ok { b with enum := none, entry := none }
  | some .entry => .ok { b with entry := none }
  | some .protocol | some .interface | none => .ok b

/-- The tree at the end of the document. -/
def finish (b : Builder) : Except SchemaError Protocol :=
  match b.protocol with
  | some p => .ok p
  | none => .error .noProtocol

end Builder

end WaylandDoc
