import WaylandDoc.Proofs.Joining
import WaylandDoc.Proofs.Truncation

/-!
# Documents with other tokens

A document may get other tokens in the place of its own. A mark stays in front, and what cannot be
cut into tokens stays behind. The new tokens are those of the new document if they stand for
themselves and no two texts meet (`lex_rewritten`). A longer text at the beginning could become a
mark, so it must not be longer than it was.
-/

namespace WaylandDoc

namespace Token

variable {ts : List Token} {rest : Bytes}

theorem Breaks.takeWhile_eq_nil {s : Bytes} (h : Breaks s) : s.takeWhile inText = [] := by
  cases s with
  | nil => rfl
  | cons b s => rw [List.takeWhile_cons, h b rfl, if_neg Bool.false_ne_true]

/-- The text that a document begins with is that of its first tokens. -/
theorem takeWhile_flatMap_render (hts : ∀ t ∈ ts, t.Stands) (hrest : Breaks rest) :
    (ts.flatMap render ++ rest).takeWhile inText = (ts.takeWhile isText).flatMap render := by
  induction ts with
  | nil => exact hrest.takeWhile_eq_nil
  | cons t ts ih =>
    rw [List.forall_mem_cons] at hts
    rw [List.flatMap_cons, List.append_assoc]
    cases ht : t.isText with
    | false =>
      rw [(breaks_render ht _).takeWhile_eq_nil, List.takeWhile_cons, ht,
        if_neg Bool.false_ne_true]
      rfl
    | true =>
      cases t with
      | text data =>
        have hdata := (stands_text.1 hts.1).2
        rw [List.takeWhile_cons, if_pos ht, List.flatMap_cons, render,
          List.takeWhile_append_of_pos hdata, ih hts.2]
      | _ => cases ht

end Token

/-! ## The mark -/

/-- Up to its first token a document has nothing but a mark. -/
theorem take_sizeUpTo_nil (input : Bytes) : input.take (sizeUpTo input []) =
    if [0xEF, 0xBB, 0xBF] <+: input then [0xEF, 0xBB, 0xBF] else [] := by
  split
  · rename_i hmark
    obtain ⟨u, rfl⟩ := hmark
    have hdrop : dropMark ([0xEF, 0xBB, 0xBF] ++ u) = u := rfl
    rw [sizeUpTo, hdrop, List.length_append, Nat.add_sub_cancel]
    rfl
  · rename_i hmark
    rw [sizeUpTo, dropMark_eq_self.2 hmark, Nat.sub_self]
    rfl

/-- A mark has no byte of markup, so it is in the text at the beginning. -/
theorem prefix_takeWhile_of_mark {s : Bytes} (h : [0xEF, 0xBB, 0xBF] <+: s) :
    [0xEF, 0xBB, 0xBF] <+: s.takeWhile Token.inText := by
  obtain ⟨s, rfl⟩ := h
  rw [List.takeWhile_append_of_pos (by decide +kernel)]
  exact List.prefix_append ..

/-- Only a longer text at the beginning could become a mark. -/
theorem dropMark_take_append {input s : Bytes}
    (h : s.takeWhile Token.inText <+: (dropMark input).takeWhile Token.inText) :
    dropMark (input.take (sizeUpTo input []) ++ s) = s := by
  rw [take_sizeUpTo_nil]
  split
  · rfl
  · rename_i hmark
    rw [dropMark_eq_self.2 hmark] at h
    refine dropMark_eq_self.2 fun hs => hmark ?_
    exact ((prefix_takeWhile_of_mark hs).trans h).trans (List.takeWhile_prefix _)

/-! ## Documents -/

section Cuts

variable {input rest : Bytes} {ts : List Token} (h : Token.Cuts (dropMark input) ts rest)
include h

theorem drop_sizeUpTo : input.drop (sizeUpTo input ts) = rest := by
  obtain ⟨mark, hinput, -⟩ := exists_mark input
  have hlength := congrArg List.length hinput
  rw [List.length_append] at hlength
  have hbytes : input = mark ++ ts.flatMap Token.render ++ rest := by
    rw [List.append_assoc, ← h.eq_append, ← hinput]
  conv_lhs => rw [hbytes]
  refine List.drop_left' ?_
  rw [← hbytes, sizeUpTo, List.length_append]
  omega

theorem take_sizeUpTo : input.take (sizeUpTo input ts) =
    input.take (sizeUpTo input []) ++ ts.flatMap Token.render := by
  have hsize : sizeUpTo input ts = sizeUpTo input [] + (ts.flatMap Token.render).length := rfl
  have hdrop := drop_sizeUpTo (.nil (dropMark input))
  rw [hsize, List.take_add, hdrop, h.eq_append, List.take_left]

end Cuts

/-- What follows the first tokens begins with the next ones. -/
theorem drop_sizeUpTo_append {input rest : Bytes} {ts us : List Token}
    (h : Token.Cuts (dropMark input) (ts ++ us) rest) : input.drop (sizeUpTo input ts) =
      us.flatMap Token.render ++ input.drop (sizeUpTo input (ts ++ us)) := by
  obtain ⟨mid, hts, hus⟩ := h.exists_of_append
  rw [drop_sizeUpTo hts, drop_sizeUpTo h, hus.eq_append]

/-- Other tokens in the place of those of a document. -/
theorem lex_rewritten {input : Bytes} {us : List Token} (hstands : ∀ u ∈ us, u.Stands)
    (hapart : us.IsChain Token.Apart)
    (htext : (us.takeWhile Token.isText).flatMap Token.render <+:
      ((tokens input).takeWhile Token.isText).flatMap Token.render) :
    Token.lex (dropMark (input.take (sizeUpTo input []) ++ us.flatMap Token.render ++
      input.drop (sizeUpTo input (tokens input)))) = (us, (Token.lex (dropMark input)).2) := by
  obtain ⟨rest, hcuts, hends⟩ := exists_cuts_tokens input
  have hprefix : (us.flatMap Token.render ++ rest).takeWhile Token.inText <+:
      (dropMark input).takeWhile Token.inText := by
    rw [hcuts.eq_append, Token.takeWhile_flatMap_render hstands hends.breaks,
      Token.takeWhile_flatMap_render hcuts.stands hends.breaks]
    exact htext
  rw [drop_sizeUpTo hcuts, List.append_assoc, dropMark_take_append hprefix, Token.lex_eq_iff]
  exact ⟨rest, .of_stands hstands hapart fun _ _ _ => hends.breaks, hends⟩

end WaylandDoc
