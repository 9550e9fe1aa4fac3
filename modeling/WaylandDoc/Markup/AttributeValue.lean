import WaylandDoc.Markup.Reference
import WaylandDoc.Text.Utf8

/-!
# Attribute values

A value is UTF-8 text in which every `&` begins a reference. `read` decodes the bytes between the
quotes and puts the characters in the place of the references. Places in error messages count
bytes from the start of the value.
-/

namespace WaylandDoc.AttributeValue

inductive Fault where
  | notUtf8 (fault : Utf8.Fault)
  /-- The `&` at `start` begins no reference in a value of `size` bytes. -/
  | unterminated (start size : Nat)
  /-- The name between `start` and `stop` is that of no entity. -/
  | unknownEntity (start stop : Nat) (name : String)
  | signed
  | notANumeral (fault : Numeral.Fault)
  | zero
  | notACharacter (code : UInt32)
  deriving DecidableEq, Repr

/-- The text of the fault and those of its causes. -/
def Fault.chain : Fault → List String
  | notUtf8 fault =>
    let outer := s!"cannot decode input using UTF-8: {fault.message}"
    [outer, outer, fault.message]
  | unterminated start size =>
    let outer :=
      s!"Error while escaping character at range {start}..{size}: " ++ "Cannot find ';' after '&'"
    [outer, outer]
  | unknownEntity start stop name =>
    let outer := s!"at {start}..{stop}: unrecognized entity `{name}`"
    [outer, outer]
  | signed => number "unexpected number sign"
  | notANumeral fault => number fault.message ++ [fault.message]
  | zero => number "0x0 character is not permitted in XML"
  | notACharacter code => number s!"`{code}` is not a valid codepoint"
where
  number (message : String) : List String :=
    let outer := s!"invalid character reference: {message}"
    [outer, outer, message]

/-- The fault of a value with a bad reference whose name is between `start` and `stop`. -/
def Fault.ofReference (start stop : Nat) (name : String) : Reference.Fault → Fault
  | .unknownEntity => unknownEntity start stop name
  | .signed => signed
  | .notANumeral fault => notANumeral fault
  | .zero => zero
  | .notACharacter code => notACharacter code

/-- Characters of the name of a reference. -/
def inName (c : Char) : Bool := c != '&' && c != ';'

/-- The number of bytes of a text in UTF-8. -/
def utf8Length (s : List Char) : Nat := (String.ofList s).utf8ByteSize

/-- Resolves the references in what follows the first `pos` of `size` bytes, which gave `text`. -/
def unescapeFrom (size : Nat) (text : String) (pos : Nat) : List Char → Except Fault String
  | [] => .ok text
  | c :: s =>
    if c = '&' then
      match _h : s.dropWhile inName with
      | ';' :: rest =>
        let name := s.takeWhile inName
        let stop := pos + 1 + utf8Length name
        match (Reference.ofName (.ofList name)).inValue with
        | .ok c => unescapeFrom size (text.push c) (stop + 1) rest
        | .error fault => .error (.ofReference (pos + 1) stop (.ofList name) fault)
      | _ => .error (.unterminated pos size)
    else unescapeFrom size (text.push c) (pos + c.utf8Size) s
termination_by s => s.length
decreasing_by
  · have := length_dropWhile_le inName s
    rw [_h] at this
    exact Nat.lt_succ_of_le (Nat.le_of_succ_le this)
  · exact Nat.lt_succ_self _

/-- The text that the bytes between the quotes stand for. -/
def read (raw : Bytes) : Except Fault String :=
  match Utf8.decode raw with
  | .ok text => unescapeFrom raw.length "" 0 text.toList
  | .error fault => .error (.notUtf8 fault)

end WaylandDoc.AttributeValue
