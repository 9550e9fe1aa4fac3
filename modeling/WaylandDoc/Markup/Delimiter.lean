import WaylandDoc.Text.Bytes

/-!
# Delimiters

Every kind of markup ends at a `>`, but not at every one: a `>` counts only in a state that
closes the markup. A delimiter tells these states apart. A tag is open while a quote is
(`quotes`), a comment, CDATA section or instruction until the right marks came just before
(`marks`), a document type while an inner `<` is (`nesting`).
-/

namespace WaylandDoc

/-- Where markup ends: at the first `>` that is read in a state that `closes` it. -/
structure Delimiter (σ : Type) where
  next : σ → UInt8 → σ
  closes : σ → Bool

namespace Delimiter

/-- Quotes hide `>`. The state is the open quote. -/
def quotes : Delimiter (Option UInt8) where
  next
    | none, b => if b == byte '"' || b == byte '\'' then some b else none
    | some q, b => if b == q then none else some q
  closes := Option.isNone

/-- Closed by `count` marks just before. The state counts the marks read last. -/
def marks (mark : UInt8) (count : Nat) : Delimiter Nat where
  next n b := if b == mark then n + 1 else 0
  closes n := count ≤ n

/-- Every `<` hides one `>`. The state counts the hidden ones. -/
def nesting : Delimiter Nat where
  next n b := if b == byte '<' then n + 1 else if b == byte '>' then n - 1 else n
  closes n := n == 0

variable {σ : Type}

/-- Cuts at the `>` that ends the markup: what is before and what follows it. `seen` are the bytes
that led to `state`, the latest first. -/
def cut (d : Delimiter σ) (state : σ) (seen : Bytes) : Bytes → Option (Bytes × Bytes)
  | [] => none
  | b :: s =>
    if b == byte '>' && d.closes state then some (seen.reverse, s)
    else d.cut (d.next state b) (b :: seen) s

theorem eq_append_of_cut {d : Delimiter σ} {state : σ} {seen s content rest : Bytes}
    (h : d.cut state seen s = some (content, rest)) :
    seen.reverse ++ s = content ++ byte '>' :: rest := by
  induction s generalizing state seen with
  | nil => simp [cut] at h
  | cons b s ih =>
    simp only [cut] at h
    split at h
    · rename_i hb
      simp only [Bool.and_eq_true, beq_iff_eq] at hb
      simp only [Option.some.injEq, Prod.mk.injEq] at h
      rw [hb.1, h.1, h.2]
    · simpa using ih h

theorem length_lt_of_cut {d : Delimiter σ} {state : σ} {seen s content rest : Bytes}
    (h : d.cut state seen s = some (content, rest)) : rest.length < s.length := by
  induction s generalizing state seen with
  | nil => simp [cut] at h
  | cons b s ih =>
    simp only [cut] at h
    split at h
    · simp only [Option.some.injEq, Prod.mk.injEq] at h
      simp [h.2]
    · exact Nat.lt_succ_of_lt (ih h)

end Delimiter

end WaylandDoc
