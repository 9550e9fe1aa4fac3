/-!
# Bytes of a document

Documents are lists of bytes. The characters with a meaning in markup are ASCII, so markup is
cut without decoding anything. `isBlank` is whitespace in markup: space, tab, carriage return
and line feed.
-/

namespace WaylandDoc

abbrev Bytes := List UInt8

/-- The bytes of a text whose characters are all ASCII. -/
def ascii (s : String) : Bytes := s.toList.map fun c => c.toNat.toUInt8

/-- The byte of an ASCII character. -/
def byte (c : Char) : UInt8 := c.toNat.toUInt8

def newline : UInt8 := byte '\n'

/-- Whitespace in markup. -/
def isBlank (b : UInt8) : Bool :=
  b == byte ' ' || b == byte '\t' || b == byte '\r' || b == newline

/-- The line that the position after the first `offset` bytes is on; lines count from 1. -/
def lineAt (input : Bytes) (offset : Nat) : Nat := 1 + (input.take offset).count newline

/-- What comes before the trailing blanks. -/
def dropTrailingBlanks (s : Bytes) : Bytes := (s.reverse.dropWhile isBlank).reverse

theorem length_dropWhile_le {α : Type} (p : α → Bool) (l : List α) :
    (l.dropWhile p).length ≤ l.length := (List.dropWhile_sublist p).length_le

end WaylandDoc
