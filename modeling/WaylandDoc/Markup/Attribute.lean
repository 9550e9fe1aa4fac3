import WaylandDoc.Markup.AttributeValue

/-!
# Tags and attributes

A tag is its bytes between the angle brackets, without the slash of an end or of an empty tag. It
begins with the name of the element; the rest of a start tag are attributes. `Attribute.ofTag`
reads them in order and stops at the first that is wrong in its form or in its value. Positions
count bytes from the start of the tag.
-/

namespace WaylandDoc

/-- The name without what comes before its first colon. -/
def localName (name : Bytes) : Bytes :=
  match name.dropWhile (· != byte ':') with
  | [] => name
  | _ :: rest => rest

namespace Tag

/-- The name of the element in a start tag, possibly empty. -/
def name (tag : Bytes) : Bytes := tag.takeWhile (!isBlank ·)

/-- The name of the element in an end tag. Blanks after it do not count, but those of a tag that
has nothing else do. -/
def endName (tag : Bytes) : Bytes := if tag.all isBlank then tag else dropTrailingBlanks tag

end Tag

structure Attribute where
  /-- The local name. -/
  name : Bytes
  value : String
  deriving DecidableEq, Repr

namespace Attribute

/-- Why a tag has no attributes to read. -/
inductive Fault where
  | expectedEquals (position : Nat)
  | expectedValue (position : Nat)
  | unquotedValue (position : Nat)
  | expectedQuote (position : Nat) (quote : UInt8)
  | duplicated (position previous : Nat)
  | badValue (fault : AttributeValue.Fault)
  deriving DecidableEq, Repr

/-- The text of the fault and those of its causes. -/
def Fault.chain : Fault → List String
  | expectedEquals position =>
    form s!"position {position}: attribute key must be directly followed by `=` or space"
  | expectedValue position =>
    form s!"position {position}: `=` must be followed by an attribute value"
  | unquotedValue position =>
    form s!"position {position}: attribute value must be enclosed in `\"` or `'`"
  | expectedQuote position quote =>
    let quote := Char.ofNat quote.toNat
    form s!"position {position}: missing closing quote `{quote}` in attribute value"
  | duplicated position previous =>
    form s!"position {position}: duplicated attribute, previous declaration at position {previous}"
  | badValue fault => "Could not decode the value" :: fault.chain
where
  form (message : String) : List String := ["quick_xml returned an error", message]

/-- An attribute as it stands in the tag. -/
structure Raw where
  name : Bytes
  value : Bytes
  deriving DecidableEq, Repr

/-- Where the name was used before, if it was. -/
def previous? (seen : List (Bytes × Nat)) (name : Bytes) : Option Nat :=
  (seen.find? (·.1 == name)).map Prod.snd

/-- A name has at least one byte; all but the first are neither `=` nor blank. -/
def inName (b : UInt8) : Bool := b != byte '=' && !isBlank b

/-- The value after an equals sign that ends at `position`, and what follows it. -/
def quoted (position : Nat) (s : Bytes) : Except Fault (Bytes × Bytes) :=
  let position := position + (s.takeWhile isBlank).length
  match s.dropWhile isBlank with
  | [] => .error (.expectedValue position)
  | quote :: s =>
    if quote = byte '"' ∨ quote = byte '\'' then
      match s.dropWhile (· != quote) with
      | [] => .error (.expectedQuote (position + 1 + s.length) quote)
      | _ :: rest => .ok (s.takeWhile (· != quote), rest)
    else .error (.unquotedValue position)

/-- The attribute that begins at `position` with the byte `b`, and what follows it. -/
def raw (seen : List (Bytes × Nat)) (position : Nat) (b : UInt8) (s : Bytes) :
    Except Fault (Raw × Bytes) :=
  let name := b :: s.takeWhile inName
  let s := s.dropWhile inName
  let equals := position + name.length + (s.takeWhile isBlank).length
  match s.dropWhile isBlank with
  | [] => .error (.expectedEquals equals)
  | c :: s =>
    if c = byte '=' then
      match previous? seen name with
      | some previous => .error (.duplicated position previous)
      | none => (quoted (equals + 1) s).map fun (v, rest) => (⟨name, v⟩, rest)
    else .error (.expectedEquals equals)

theorem length_lt_of_quoted {position : Nat} {s v rest : Bytes}
    (h : quoted position s = .ok (v, rest)) : rest.length < s.length := by
  have hs := length_dropWhile_le isBlank s
  unfold quoted at h
  dsimp only at h
  split at h
  · cases h
  · rename_i quote t hd
    rw [hd] at hs
    have ht := length_dropWhile_le (· != quote) t
    split at h
    · split at h
      · cases h
      · rename_i b r hq
        rw [hq] at ht
        cases h
        simp only [List.length_cons] at hs ht
        omega
    · cases h

theorem length_lt_of_raw {seen : List (Bytes × Nat)} {position : Nat} {b : UInt8} {s rest : Bytes}
    {a : Raw} (h : raw seen position b s = .ok (a, rest)) : rest.length < s.length := by
  have hs := length_dropWhile_le inName s
  unfold raw at h
  dsimp only at h
  have hd := length_dropWhile_le isBlank (s.dropWhile inName)
  split at h
  · cases h
  · rename_i c t ht
    rw [ht] at hd
    split at h
    · split at h
      · cases h
      · cases hv : quoted (position + (b :: s.takeWhile inName).length
            + ((s.dropWhile inName).takeWhile isBlank).length + 1) t with
        | error e => rw [hv] at h; cases h
        | ok r =>
          rw [hv] at h
          cases h
          have := length_lt_of_quoted hv
          simp only [List.length_cons] at hd
          omega
    · cases h

/-- Reads the attributes in `s`, which begins at `position` of a tag. `seen` are the names before
it with their positions and `acc` the attributes, the latest first. -/
def readFrom (seen : List (Bytes × Nat)) (acc : List Attribute) (position : Nat) (s : Bytes) :
    Except Fault (List Attribute) :=
  let start := position + (s.takeWhile isBlank).length
  match _hs : s.dropWhile isBlank with
  | [] => .ok acc.reverse
  | b :: t =>
    match _ht : raw seen start b t with
    | .error fault => .error fault
    | .ok (a, rest) =>
      match AttributeValue.read a.value with
      | .error fault => .error (.badValue fault)
      | .ok text =>
        readFrom ((a.name, start) :: seen) (⟨localName a.name, text⟩ :: acc)
          (start + (t.length + 1 - rest.length)) rest
termination_by s.length
decreasing_by
  have h := length_dropWhile_le isBlank s
  have := length_lt_of_raw _ht
  rw [_hs] at h
  exact Nat.lt_of_lt_of_le this (Nat.le_of_succ_le h)

/-- The attributes of a start tag in order. -/
def ofTag (tag : Bytes) : Except Fault (List Attribute) :=
  readFrom [] [] (Tag.name tag).length (tag.dropWhile (!isBlank ·))

/-- The value of the last attribute with the local name. -/
def find? (attributes : List Attribute) (name : String) : Option String :=
  (attributes.reverse.find? (·.name == ascii name)).map Attribute.value

end Attribute

end WaylandDoc
