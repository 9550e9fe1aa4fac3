import WaylandDoc.Text.Bytes

/-!
# UTF-8

`decode` reads bytes as UTF-8 text or says where the first ill-formed sequence begins and how
long it is. A sequence is ill-formed up to the byte that cannot continue it, so surrogates,
overlong forms and code points above U+10FFFF are refused at their second byte. `decodeLossy`
puts one replacement character in the place of each such sequence.
-/

namespace WaylandDoc.Utf8

/-- Why bytes are not UTF-8. `index` counts the bytes before the ill-formed sequence. -/
inductive Fault where
  /-- The first `length` bytes of the sequence begin no character. -/
  | invalid (length index : Nat)
  /-- The input ends inside a character. -/
  | incomplete (index : Nat)
  deriving DecidableEq, Repr

def Fault.message : Fault → String
  | invalid length index => s!"invalid utf-8 sequence of {length} bytes from index {index}"
  | incomplete index => s!"incomplete utf-8 byte sequence from index {index}"

/-- The first character of a byte sequence. -/
inductive First where
  | char (c : Char) (rest : Bytes)
  | invalid (length : Nat) (rest : Bytes)
  | incomplete

/-- Reads the `n` remaining bytes of a character, the next of them between `low` and `high`.
`code` holds the bits so far, `seen` counts the bytes so far. -/
def follow (code seen : Nat) : (n : Nat) → (low high : UInt8) → Bytes → First
  | 0, _, _, s => .char (Char.ofNat code) s
  | _ + 1, _, _, [] => .incomplete
  | n + 1, low, high, b :: s =>
    if low ≤ b ∧ b ≤ high then follow (code * 64 + (b.toNat - 0x80)) (seen + 1) n 0x80 0xBF s
    else .invalid seen (b :: s)

/-- The first character of `b :: s`. The first byte fixes the number of bytes that follow, and
the range of the second excludes what another form or no character stands for. -/
def first (b : UInt8) (s : Bytes) : First :=
  if b < 0x80 then .char (Char.ofNat b.toNat) s
  else if b < 0xC2 then .invalid 1 s
  else if b < 0xE0 then follow (b.toNat - 0xC0) 1 1 0x80 0xBF s
  else if b < 0xF0 then
    let low := if b = 0xE0 then 0xA0 else 0x80
    let high := if b = 0xED then 0x9F else 0xBF
    follow (b.toNat - 0xE0) 1 2 low high s
  else if b < 0xF5 then
    let low := if b = 0xF0 then 0x90 else 0x80
    let high := if b = 0xF4 then 0x8F else 0xBF
    follow (b.toNat - 0xF0) 1 3 low high s
  else .invalid 1 s

/-- What is left after the first character or the ill-formed sequence. -/
def First.rest : First → Bytes
  | char _ rest => rest
  | invalid _ rest => rest
  | incomplete => []

theorem length_rest_follow (code seen n : Nat) (low high : UInt8) (s : Bytes) :
    (follow code seen n low high s).rest.length ≤ s.length := by
  fun_induction follow code seen n low high s with
  | case1 => simp [First.rest]
  | case2 => simp [First.rest]
  | case3 code seen n low high b s h ih => exact Nat.le_trans ih (Nat.le_succ _)
  | case4 => simp [First.rest]

theorem length_rest_first (b : UInt8) (s : Bytes) : (first b s).rest.length ≤ s.length := by
  unfold first
  split
  · exact Nat.le_refl _
  split
  · exact Nat.le_refl _
  split
  · exact length_rest_follow ..
  split
  · exact length_rest_follow ..
  split
  · exact length_rest_follow ..
  · exact Nat.le_refl _

/-- Decodes the bytes that follow the first `index` ones, which gave `text`. -/
def decodeFrom (text : String) (index : Nat) : Bytes → Except Fault String
  | [] => .ok text
  | b :: s =>
    match _h : first b s with
    | .char c rest => decodeFrom (text.push c) (index + c.utf8Size) rest
    | .invalid length _ => .error (.invalid length index)
    | .incomplete => .error (.incomplete index)
termination_by s => s.length
decreasing_by
  have := length_rest_first b s
  rw [_h] at this
  exact Nat.lt_succ_of_le this

/-- The text that the bytes are the UTF-8 form of. -/
def decode (s : Bytes) : Except Fault String := decodeFrom "" 0 s

def decodeLossyFrom (text : String) : Bytes → String
  | [] => text
  | b :: s =>
    match _h : first b s with
    | .char c rest => decodeLossyFrom (text.push c) rest
    | .invalid _ rest => decodeLossyFrom (text.push '\uFFFD') rest
    | .incomplete => text.push '\uFFFD'
termination_by s => s.length
decreasing_by
  all_goals
    have := length_rest_first b s
    rw [_h] at this
    exact Nat.lt_succ_of_le this

/-- The text with U+FFFD for each ill-formed sequence. -/
def decodeLossy (s : Bytes) : String := decodeLossyFrom "" s

end WaylandDoc.Utf8
