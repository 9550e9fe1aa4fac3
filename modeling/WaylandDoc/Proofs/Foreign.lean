import WaylandDoc.Proofs.Joining
import WaylandDoc.Proofs.Walk

/-!
# Markup without a meaning

Comments, instructions and the tags of elements that are not in the schema stand for themselves in a
document, and a walk over them changes nothing of its stage but the open elements. An element that
is not in the schema leaves a notice.
-/

namespace WaylandDoc

/-- Letters, digits, `_`, `-` and colons; the bytes of characters beyond ASCII are letters. -/
def isNameByte (b : UInt8) : Bool :=
  (byte 'a' ≤ b && b ≤ byte 'z') || (byte 'A' ≤ b && b ≤ byte 'Z') ||
    (byte '0' ≤ b && b ≤ byte '9') || b == byte '_' || b == byte '-' || b == byte ':' || 0x80 ≤ b

/-- Every quote is closed, and there is no `>` outside of quotes. -/
inductive Quoted : Bytes → Prop where
  | nil : Quoted []
  | plain {b : UInt8} {s : Bytes} (hb : b ≠ byte '"' ∧ b ≠ byte '\'' ∧ b ≠ byte '>')
      (h : Quoted s) : Quoted (b :: s)
  | value {quote : UInt8} {value s : Bytes} (hquote : quote = byte '"' ∨ quote = byte '\'')
      (hvalue : quote ∉ value) (h : Quoted s) : Quoted (quote :: value ++ [quote] ++ s)

/-- The tag of an element that is not in the schema. What follows the name need not be
attributes. -/
inductive Foreign : Bytes → Prop where
  | intro {name after : Bytes} (hne : name ≠ []) (hname : ∀ b ∈ name, isNameByte b)
      (hlocal : Element.ofName? (localName name) = none) (hblank : ∀ b ∈ after.head?, isBlank b)
      (hafter : Quoted after) : Foreign (name ++ after)

/-- The notice of an element that is not in the schema. -/
def ignored (tag : Bytes) : Notice := .unknownElement (Utf8.decodeLossy (localName (Tag.name tag)))

/-! ## Tags -/

theorem Quoted.whole {s : Bytes} (h : Quoted s) : Mark.Whole s := by
  induction h with
  | nil => exact fun seen t => rfl
  | plain hb _ ih => exact (Mark.whole_singleton hb).append ih
  | value hquote hvalue _ ih => exact (Mark.whole_quoted hquote hvalue).append ih

section Name

variable {name after : Bytes} (hname : ∀ b ∈ name, isNameByte b)
include hname

/-- Names have none of the bytes that markup knows. -/
theorem notMem_of_isNameByte {b : UInt8} (hb : b ∈ name) : b ∉ ascii " \t\r\n\"'>!?/" := by
  have hspecial : ∀ b ∈ ascii " \t\r\n\"'>!?/", isNameByte b = false := by
    decide +kernel
  intro hmem
  cases (hspecial b hmem).symm.trans (hname b hb)

theorem not_isBlank_of_isNameByte : ∀ b ∈ name, isBlank b = false := by
  intro b hb
  cases hblank : isBlank b with
  | false => rfl
  | true =>
    refine absurd ?_ (notMem_of_isNameByte hname hb)
    simp only [isBlank, Bool.or_eq_true, beq_iff_eq] at hblank
    rcases hblank with ((rfl | rfl) | rfl) | rfl <;> decide

theorem whole_of_isNameByte : Mark.Whole name := by
  refine Mark.whole_of_forall fun b hb => ⟨?_, ?_, ?_⟩ <;> rintro rfl <;>
    exact notMem_of_isNameByte hname hb (by decide)

theorem name_append (hblank : ∀ b ∈ after.head?, isBlank b) : Tag.name (name ++ after) = name := by
  have hplain : ∀ b ∈ name, (!isBlank b) = true := fun b hb => by
    rw [not_isBlank_of_isNameByte hname b hb, Bool.not_false]
  cases after with
  | nil => rw [List.append_nil, Tag.name, List.takeWhile_eq_self_iff.2 hplain]
  | cons b after => exact takeWhile_append_cons hplain (by rw [hblank b rfl, Bool.not_true])

theorem endName_append (hne : name ≠ []) (hblanks : ∀ b ∈ after, isBlank b) :
    Tag.endName (name ++ after) = name := by
  obtain ⟨first, last, rfl⟩ := List.eq_nil_or_concat' name |>.resolve_left hne
  have hlast := not_isBlank_of_isNameByte hname last (by simp)
  have hdrop : (last :: first.reverse).dropWhile isBlank = last :: first.reverse := by
    rw [List.dropWhile_cons, hlast, if_neg Bool.false_ne_true]
  rw [Tag.endName, if_neg, dropTrailingBlanks, List.reverse_append,
    List.dropWhile_append_of_pos (by simpa using hblanks), List.reverse_append,
    List.reverse_singleton, List.singleton_append, hdrop]
  · simp
  · simp [hlast]

theorem tagged_append (hne : name ≠ []) (hafter : Mark.Whole after) :
    Mark.Tagged (name ++ after) := by
  refine ⟨(whole_of_isNameByte hname).append hafter, ?_⟩
  obtain ⟨b, s, rfl⟩ := List.exists_cons_of_ne_nil hne
  refine ⟨b, s ++ after, List.cons_append, ?_, ?_, ?_⟩ <;> rintro rfl <;>
    exact notMem_of_isNameByte hname List.mem_cons_self (by decide)

/-- The end tag of an element with the name. -/
theorem stands_close_append (hblanks : ∀ b ∈ after, isBlank b) :
    Token.Stands (.close (name ++ after)) := by
  refine Token.stands_close ((whole_of_isNameByte hname).append (Mark.whole_of_forall ?_))
  intro b hb
  refine ⟨?_, ?_, ?_⟩ <;> rintro rfl <;> cases hblanks _ hb

end Name

namespace Foreign

variable {tag : Bytes} (h : Foreign tag)
include h

theorem ofName?_eq_none : Element.ofName? (localName (Tag.name tag)) = none := by
  cases h with
  | intro hne hname hlocal hblank hafter => rwa [name_append hname hblank]

theorem tagged : Mark.Tagged tag := by
  cases h with
  | intro hne hname hlocal hblank hafter => exact tagged_append hname hne hafter.whole

theorem stands_start (hslash : tag.getLast? ≠ some (byte '/')) : Token.Stands (.start tag) :=
  Token.stands_start h.tagged hslash

theorem stands_empty : Token.Stands (.empty tag) := Token.stands_empty h.tagged

theorem stands_close {blanks : Bytes} (hblanks : ∀ b ∈ blanks, isBlank b) :
    Token.Stands (.close (Tag.name tag ++ blanks)) := by
  cases h with
  | intro hne hname hlocal hblank hafter =>
    rw [name_append hname hblank]
    exact stands_close_append hname hblanks

theorem endName_append {blanks : Bytes} (hblanks : ∀ b ∈ blanks, isBlank b) :
    Tag.endName (Tag.name tag ++ blanks) = Tag.name tag := by
  cases h with
  | intro hne hname hlocal hblank hafter =>
    rw [name_append hname hblank, WaylandDoc.endName_append hname hne hblanks]

end Foreign

/-! ## Comments and instructions -/

namespace Delimiter

variable {mark : UInt8} {count n : Nat} {seen body : Bytes}

theorem cut_replicate (hmark : mark ≠ byte '>') (k : Nat) (s : Bytes) :
    (marks mark count).cut n seen (List.replicate k mark ++ s) =
      (marks mark count).cut (n + k) (List.replicate k mark ++ seen) s := by
  induction k generalizing n seen with
  | zero => rfl
  | succ k ih =>
    have hnext : (marks mark count).next n mark = n + 1 := by simp [marks]
    have hseen : List.replicate k mark ++ mark :: seen = List.replicate (k + 1) mark ++ seen := by
      rw [List.replicate_succ', List.append_assoc, List.singleton_append]
    rw [List.replicate_succ, List.cons_append, cut, if_neg (by simp [hmark]), hnext, ih, hseen,
      Nat.add_assoc, Nat.add_comm 1 k, List.replicate_succ]

/-- Markup ends with the first of its closing marks. -/
theorem cut_marks (hmark : mark ≠ byte '>')
    (hbody : ¬ List.replicate count mark ++ [byte '>'] <:+: List.replicate n mark ++ body)
    (seen u : Bytes) :
    (marks mark count).cut n seen (body ++ (List.replicate count mark ++ byte '>' :: u)) =
      some (seen.reverse ++ body ++ List.replicate count mark, u) := by
  induction body generalizing n seen with
  | nil =>
    rw [List.nil_append, cut_replicate hmark, cut, if_pos (by simp [marks])]
    simp
  | cons b body ih =>
    have hopen : ¬ (b == byte '>' && (marks mark count).closes n) := by
      simp only [marks, Bool.and_eq_true, beq_iff_eq, decide_eq_true_eq]
      rintro ⟨rfl, hn⟩
      obtain ⟨k, rfl⟩ := Nat.exists_eq_add_of_le' hn
      refine hbody ⟨List.replicate k mark, body, ?_⟩
      rw [← List.replicate_append_replicate, List.append_assoc, List.append_assoc,
        List.append_assoc, List.singleton_append]
    rw [List.cons_append, cut, if_neg hopen, ih]
    · simp
    · simp only [marks]
      split
      · rename_i hb
        rw [beq_iff_eq.1 hb] at hbody
        rwa [List.replicate_succ', List.append_assoc, List.singleton_append]
      · exact fun hend => hbody (hend.trans ⟨List.replicate n mark ++ [b], [], by simp⟩)

end Delimiter

/-- The body of a comment does not end it. -/
theorem stands_comment {body : Bytes} (hbody : ¬ ascii "-->" <:+: body) :
    Token.Stands (.aside (ascii "!--" ++ body ++ ascii "--")) := by
  intro u _
  have hmarks : ascii "-->" = List.replicate 2 (byte '-') ++ [byte '>'] := by decide
  have hcut : (Delimiter.marks (byte '-') 2).cut 0 [byte '-', byte '-', byte '!']
      (body ++ (List.replicate 2 (byte '-') ++ byte '>' :: u)) =
        some (ascii "!--" ++ body ++ ascii "--", u) :=
    Delimiter.cut_marks (by decide) (hmarks ▸ hbody) _ u
  have hbytes : (Token.aside (ascii "!--" ++ body ++ ascii "--")).render ++ u = byte '<' ::
      byte '!' :: byte '-' :: byte '-' ::
        (body ++ (List.replicate 2 (byte '-') ++ byte '>' :: u)) := by
    simp [Token.render, ascii, byte]
  have hform : Token.ofComment (ascii "!--" ++ body ++ ascii "--") =
      .ok (.aside (ascii "!--" ++ body ++ ascii "--")) := by
    rw [Token.ofComment, if_pos]
    simp [List.append_assoc]
  rw [hbytes, Token.scan, if_pos rfl, Token.scanMarkup, if_pos rfl, Token.scanDeclaration,
    if_pos rfl]
  exact Token.ofCut_eq_token.2 ⟨_, hcut, hform⟩

/-- The question mark that begins an instruction does not end it. -/
theorem stands_instruction {body : Bytes} (hbody : ¬ ascii "?>" <:+: byte '?' :: body) :
    Token.Stands (.aside (byte '?' :: body ++ [byte '?'])) := by
  intro u _
  have hmarks : ascii "?>" = List.replicate 1 (byte '?') ++ [byte '>'] := by decide
  have hcut : (Delimiter.marks (byte '?') 1).cut 1 [byte '?']
      (body ++ (List.replicate 1 (byte '?') ++ byte '>' :: u)) =
        some (byte '?' :: body ++ [byte '?'], u) :=
    Delimiter.cut_marks (by decide) (hmarks ▸ hbody) _ u
  have hbytes : (Token.aside (byte '?' :: body ++ [byte '?'])).render ++ u = byte '<' ::
      byte '?' :: (body ++ (List.replicate 1 (byte '?') ++ byte '>' :: u)) := by
    simp [Token.render, ascii, byte]
  have hform : Token.ofInstruction (byte '?' :: body ++ [byte '?']) =
      .ok (.aside (byte '?' :: body ++ [byte '?'])) := by
    rw [Token.ofInstruction, if_neg (by simp)]
  rw [hbytes, Token.scan, if_pos rfl, Token.scanMarkup, if_neg (by decide), if_pos rfl]
  exact Token.ofCut_eq_token.2 ⟨_, hcut, hform⟩

/-! ## Walks -/

section Walk

variable {names : List Bytes} {b : Builder} {tag : Bytes} (h : Foreign tag)
include h

theorem start_foreign (b : Builder) : b.start tag = ⟨[ignored tag], .ok b⟩ := by
  rw [Builder.start, h.ofName?_eq_none]
  rfl

theorem close_foreign (b : Builder) : b.close (localName (Tag.name tag)) = .ok b := by
  rw [Builder.close, h.ofName?_eq_none]

theorem advance_start_foreign :
    advance (names, b) (.start tag) = ⟨[ignored tag], .ok (Tag.name tag :: names, b)⟩ := by
  have htold : Reading.told b (.start tag) = ⟨[ignored tag], .ok b⟩ := by
    rw [Reading.told, Token.calls, Builder.performAll_cons, Builder.perform, start_foreign h]
    rfl
  rw [advance_eq (t := .start tag) trivial rfl, htold]
  rfl

theorem advance_empty_foreign :
    advance (names, b) (.empty tag) = ⟨[ignored tag], .ok (names, b)⟩ := by
  have htold : Reading.told b (.empty tag) = ⟨[ignored tag], .ok b⟩ := by
    rw [Reading.told, Token.calls, Builder.performAll_cons, Builder.perform, start_foreign h,
      Logged.bind_of_ok rfl, Builder.performAll_cons, Builder.perform, close_foreign h]
    rfl
  rw [advance_eq (t := .empty tag) trivial rfl, htold]
  rfl

theorem advance_close_foreign {blanks : Bytes} (hblanks : ∀ b ∈ blanks, isBlank b) :
    advance (Tag.name tag :: names, b) (.close (Tag.name tag ++ blanks)) = pure (names, b) := by
  have hname := h.endName_append hblanks
  have htold : Reading.told b (.close (Tag.name tag ++ blanks)) = pure b := by
    rw [Reading.told, Token.calls, hname, Builder.performAll_cons, Builder.perform,
      close_foreign h]
    rfl
  have hnest : Token.nest (Tag.name tag :: names) (.close (Tag.name tag ++ blanks)) = some names :=
    Token.nest_close_eq_some.2 (by rw [hname])
  have hread : Token.Readable (.close (Tag.name tag ++ blanks)) := trivial
  rw [advance_eq hread hnest, htold]
  rfl

end Walk

end WaylandDoc
