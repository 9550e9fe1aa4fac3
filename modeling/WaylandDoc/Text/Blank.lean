/-!
# Blank characters

The characters with the Unicode property `White_Space`, and `trim`, which cuts them off at both
ends of a text. `IsTrimmed` says what is left without saying how it is found.
-/

namespace WaylandDoc

/-- The Unicode property `White_Space`. -/
def isWhiteSpace (c : Char) : Bool :=
  let n := c.toNat
  (0x09 ≤ n && n ≤ 0x0D) || n == 0x20 || n == 0x85 || n == 0xA0 || n == 0x1680 ||
    (0x2000 ≤ n && n ≤ 0x200A) || n == 0x2028 || n == 0x2029 || n == 0x202F || n == 0x205F ||
    n == 0x3000

/-- The text without the white space at its ends. -/
def trim (s : String) : String :=
  .ofList ((s.toList.dropWhile isWhiteSpace).reverse.dropWhile isWhiteSpace).reverse

/-! ## What is trimmed -/

/-- The characters with the Unicode property `White_Space`. -/
def whiteSpace : List Char := [
  '\t', '\n', '\x0b', '\x0c', '\r', ' ', '\u0085', '\u00a0', '\u1680',
  '\u2000', '\u2001', '\u2002', '\u2003', '\u2004', '\u2005', '\u2006', '\u2007', '\u2008',
  '\u2009', '\u200a', '\u2028', '\u2029', '\u202f', '\u205f', '\u3000']

theorem isWhiteSpace_iff {c : Char} : isWhiteSpace c ↔ c ∈ whiteSpace := by
  simp only [whiteSpace, List.mem_cons, List.not_mem_nil, or_false, ← Char.toNat_inj,
    isWhiteSpace, Bool.or_eq_true, Bool.and_eq_true, decide_eq_true_eq, beq_iff_eq,
    Char.reduceToNat]
  omega

/-- What is cut off is white space, and what is left neither begins nor ends with any. -/
structure IsTrimmed (s t : String) : Prop where
  ends : ∃ l r, s.toList = l ++ t.toList ++ r ∧ ∀ c ∈ l ++ r, c ∈ whiteSpace
  head : ∀ c ∈ t.toList.head?, c ∉ whiteSpace
  last : ∀ c ∈ t.toList.getLast?, c ∉ whiteSpace

section Lists

variable {α : Type} {p : α → Bool} {l m r : List α}

theorem head_dropWhile {a : α} (h : a ∈ (l.dropWhile p).head?) : p a = false := by
  have := List.head?_dropWhile_not p l
  rwa [Option.mem_def.1 h] at this

theorem dropWhile_eq_self (h : ∀ a ∈ l.head?, p a = false) : l.dropWhile p = l := by
  cases l with
  | nil => rfl
  | cons a l => rw [List.dropWhile_cons, h a rfl]; rfl

/-- Only what is around `m` is dropped. -/
theorem dropWhile_ends (hl : ∀ a ∈ l, p a) (hr : ∀ a ∈ r, p a) (hhead : ∀ a ∈ m.head?, p a = false)
    (hlast : ∀ a ∈ m.getLast?, p a = false) :
    (((l ++ m ++ r).dropWhile p).reverse.dropWhile p).reverse = m := by
  rw [List.append_assoc, List.dropWhile_append_of_pos hl]
  cases m with
  | nil =>
    have hnil : r.dropWhile p = [] := by
      simpa using @List.dropWhile_append_of_pos _ p r [] hr
    rw [List.nil_append, hnil]
    rfl
  | cons a m =>
    have hfirst : (a :: m ++ r).dropWhile p = a :: m ++ r :=
      dropWhile_eq_self (by simpa using hhead)
    have hreverse : (a :: m).reverse.dropWhile p = (a :: m).reverse :=
      dropWhile_eq_self (by rwa [List.head?_reverse])
    rw [hfirst, List.reverse_append,
      List.dropWhile_append_of_pos fun a ha => hr a (List.mem_reverse.1 ha), hreverse,
      List.reverse_reverse]

end Lists

theorem isTrimmed_trim (s : String) : IsTrimmed s (trim s) := by
  let m := s.toList.dropWhile isWhiteSpace
  have htrim : (trim s).toList = (m.reverse.dropWhile isWhiteSpace).reverse := String.toList_ofList
  have hm : m = (trim s).toList ++ (m.reverse.takeWhile isWhiteSpace).reverse := by
    rw [htrim, ← List.reverse_append, List.takeWhile_append_dropWhile, List.reverse_reverse]
  have hcut (l : List Char) : ∀ c ∈ l.takeWhile isWhiteSpace, isWhiteSpace c :=
    List.all_eq_true.1 List.all_takeWhile
  refine ⟨⟨s.toList.takeWhile isWhiteSpace, (m.reverse.takeWhile isWhiteSpace).reverse, ?_, ?_⟩,
    fun c hc => ?_, fun c hc => ?_⟩
  · rw [List.append_assoc, ← hm, List.takeWhile_append_dropWhile]
  · intro c hc
    rw [List.mem_append, List.mem_reverse] at hc
    exact isWhiteSpace_iff.1 (hc.elim (hcut _ c) (hcut _ c))
  · have hhead : c ∈ m.head? := by
      rw [hm, List.head?_append, Option.mem_def.1 hc]
      rfl
    rw [← isWhiteSpace_iff, head_dropWhile hhead]
    exact Bool.false_ne_true
  · rw [htrim, List.getLast?_reverse] at hc
    rw [← isWhiteSpace_iff, head_dropWhile hc]
    exact Bool.false_ne_true

/-- What a text is without the white space at its ends is determined, and `trim` gives it. -/
theorem isTrimmed_iff {s t : String} : IsTrimmed s t ↔ t = trim s := by
  constructor
  · rintro ⟨⟨l, r, hs, hends⟩, hhead, hlast⟩
    simp only [List.mem_append, or_imp, forall_and, ← isWhiteSpace_iff] at hends
    simp only [← isWhiteSpace_iff, Bool.not_eq_true] at hhead hlast
    rw [trim, hs, dropWhile_ends hends.1 hends.2 hhead hlast, String.ofList_toList]
  · rintro rfl
    exact isTrimmed_trim s

end WaylandDoc
