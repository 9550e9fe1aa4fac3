/-!
# Numerals of 32 bits

Digits in base 10 or 16 with at most one leading `+`. Reading goes from left to right and stops
at the first character that is no digit or the first digit that leads past 32 bits, whichever
comes first.
-/

namespace WaylandDoc.Numeral

inductive Fault where
  | empty
  | invalidDigit
  | tooLarge
  deriving DecidableEq, Repr

def Fault.message : Fault → String
  | empty => "cannot parse integer from empty string"
  | invalidDigit => "invalid digit found in string"
  | tooLarge => "number too large to fit in target type"

inductive Base where
  | decimal
  | hexadecimal
  deriving DecidableEq, Repr

def Base.size : Base → Nat
  | decimal => 10
  | hexadecimal => 16

/-- The value of a digit; letters count in either case. -/
def Base.digit? (base : Base) (c : Char) : Option Nat :=
  let value? :=
    if '0' ≤ c ∧ c ≤ '9' then some (c.toNat - '0'.toNat)
    else if 'a' ≤ c ∧ c ≤ 'z' then some (c.toNat - 'a'.toNat + 10)
    else if 'A' ≤ c ∧ c ≤ 'Z' then some (c.toNat - 'A'.toNat + 10)
    else none
  value?.filter (· < base.size)

/-- Reads on from the digits that gave `value`. -/
def readDigits (base : Base) (value : Nat) : List Char → Except Fault Nat
  | [] => .ok value
  | c :: s =>
    match base.digit? c with
    | none => .error .invalidDigit
    | some d =>
      let value := value * base.size + d
      if value < UInt32.size then readDigits base value s else .error .tooLarge

/-- Reads a numeral. A sign with nothing after it is no digit. -/
def read (base : Base) (s : String) : Except Fault UInt32 :=
  let digits := match s.toList with
    | '+' :: c :: s => c :: s
    | s => s
  if digits.isEmpty then .error .empty else (readDigits base 0 digits).map UInt32.ofNat

end WaylandDoc.Numeral
