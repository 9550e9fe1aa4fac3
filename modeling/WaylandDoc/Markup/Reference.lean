import WaylandDoc.Text.Numeral

/-!
# References

What stands between `&` and `;`: the name of one of the five predefined entities, or the number
of a character. `inText?` and `inValue` resolve references in character data and in attribute
values. Values are stricter: a number there has no sign and is not zero.
-/

namespace WaylandDoc

/-- The predefined entities. -/
inductive Entity where
  | lt
  | gt
  | amp
  | apos
  | quot
  deriving DecidableEq, Repr

namespace Entity

def all : List Entity := [lt, gt, amp, apos, quot]

def name : Entity → String
  | lt => "lt"
  | gt => "gt"
  | amp => "amp"
  | apos => "apos"
  | quot => "quot"

def char : Entity → Char
  | lt => '<'
  | gt => '>'
  | amp => '&'
  | apos => '\''
  | quot => '"'

def ofName? (name : String) : Option Entity := all.find? (·.name == name)

def ofChar? (c : Char) : Option Entity := all.find? (·.char == c)

/-- The reference to the entity. -/
def reference (e : Entity) : List Char := '&' :: e.name.toList ++ [';']

end Entity

/-- The characters of markup by reference, every other one as it is. -/
def escapeChar (c : Char) : List Char :=
  match Entity.ofChar? c with
  | some e => e.reference
  | none => [c]

/-- Text without a character that has a meaning in markup. -/
def escape (s : String) : String := .ofList (s.toList.flatMap escapeChar)

inductive Reference where
  | entity (name : String)
  | character (base : Numeral.Base) (number : String)
  deriving DecidableEq, Repr

namespace Reference

/-- The reference with `name` between `&` and `;`. -/
def ofName (name : String) : Reference :=
  match name.toList with
  | '#' :: 'x' :: digits => .character .hexadecimal (.ofList digits)
  | '#' :: digits => .character .decimal (.ofList digits)
  | _ => .entity name

/-- The character with the code point `code`; surrogates are not characters. -/
def character? (code : UInt32) : Option Char :=
  if h : code.isValidChar then some ⟨code, h⟩ else none

/-- The character that the reference stands for in character data. -/
def inText? : Reference → Option Char
  | entity name => (Entity.ofName? name).map Entity.char
  | character base number => (Numeral.read base number).toOption.bind character?

/-- Why a reference in an attribute value stands for no character. -/
inductive Fault where
  | unknownEntity
  | signed
  | notANumeral (fault : Numeral.Fault)
  | zero
  | notACharacter (code : UInt32)
  deriving DecidableEq, Repr

/-- The character that the reference stands for in an attribute value. -/
def inValue : Reference → Except Fault Char
  | entity name =>
    match Entity.ofName? name with
    | some e => .ok e.char
    | none => .error .unknownEntity
  | character base number =>
    if number.toList.head? = some '+' ∨ number.toList.head? = some '-' then .error .signed
    else
      match Numeral.read base number with
      | .error fault => .error (.notANumeral fault)
      | .ok code =>
        if code = 0 then .error .zero
        else
          match character? code with
          | some c => .ok c
          | none => .error (.notACharacter code)

end Reference

end WaylandDoc
