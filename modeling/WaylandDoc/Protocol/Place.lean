import WaylandDoc.Protocol.Basic

/-!
# Places in a protocol

A place names a node of the tree by indices into the lists on the way to it. Children are only
ever added at the end of their list, so a place that is there stays there.
-/

namespace WaylandDoc

inductive Place where
  | protocol
  | interface (i : Nat)
  | message (i : Nat) (kind : MessageKind) (m : Nat)
  | arg (i : Nat) (kind : MessageKind) (m a : Nat)
  | enum (i e : Nat)
  | entry (i e n : Nat)
  deriving DecidableEq, Repr

namespace Protocol

def interface? (p : Protocol) (i : Nat) : Option Interface := p.interfaces[i]?

def message? (p : Protocol) (i : Nat) (kind : MessageKind) (m : Nat) : Option Message :=
  (p.interface? i).bind fun interface => (interface.messages kind)[m]?

def arg? (p : Protocol) (i : Nat) (kind : MessageKind) (m a : Nat) : Option Arg :=
  (p.message? i kind m).bind fun message => message.args[a]?

def enum? (p : Protocol) (i e : Nat) : Option Enum :=
  (p.interface? i).bind fun interface => interface.enums[e]?

def entry? (p : Protocol) (i e n : Nat) : Option Entry :=
  (p.enum? i e).bind fun enum => enum.entries[n]?

/-- The tree has a node at the place. -/
def has (p : Protocol) : Place → Bool
  | .protocol => true
  | .interface i => (p.interface? i).isSome
  | .message i kind m => (p.message? i kind m).isSome
  | .arg i kind m a => (p.arg? i kind m a).isSome
  | .enum i e => (p.enum? i e).isSome
  | .entry i e n => (p.entry? i e n).isSome

def modifyInterface (p : Protocol) (i : Nat) (f : Interface → Interface) : Protocol :=
  { p with interfaces := p.interfaces.modify i f }

def modifyMessage (p : Protocol) (i : Nat) (kind : MessageKind) (m : Nat)
    (f : Message → Message) : Protocol :=
  p.modifyInterface i fun interface => interface.modifyMessages kind (·.modify m f)

def modifyArg (p : Protocol) (i : Nat) (kind : MessageKind) (m a : Nat) (f : Arg → Arg) :
    Protocol :=
  p.modifyMessage i kind m fun message => { message with args := message.args.modify a f }

def modifyEnum (p : Protocol) (i e : Nat) (f : Enum → Enum) : Protocol :=
  p.modifyInterface i fun interface => { interface with enums := interface.enums.modify e f }

def modifyEntry (p : Protocol) (i e n : Nat) (f : Entry → Entry) : Protocol :=
  p.modifyEnum i e fun enum => { enum with entries := enum.entries.modify n f }

/-- Gives the node at the place a description, in the place of the one it has. -/
def describe (p : Protocol) (d : Description) : Place → Protocol
  | .protocol => { p with description := some d }
  | .interface i => p.modifyInterface i fun x => { x with description := some d }
  | .message i kind m => p.modifyMessage i kind m fun x => { x with description := some d }
  | .arg i kind m a => p.modifyArg i kind m a fun x => { x with description := some d }
  | .enum i e => p.modifyEnum i e fun x => { x with description := some d }
  | .entry i e n => p.modifyEntry i e n fun x => { x with description := some d }

end Protocol

end WaylandDoc
