import Mathlib.Data.Set.Card
import WaylandDoc.Proofs.CharacterData
import WaylandDoc.Proofs.Extension

/-!
# Cut documents

A document that ends inside of its root element is not accepted, wherever it is cut: inside of a
token no other end of it is found, and between two tokens some element is open. The depth of a
reading counts the open elements, which are those whose start tag was read and whose own end tag was
not (`unended`).
-/

namespace WaylandDoc

namespace Token

/-! ## Elements without an end -/

/-- Where the start tags are whose own end tag is not among the tokens. -/
def unended (ts : List Token) : Set Nat :=
  {i | ∃ tag rest, ts.drop i = .start tag :: rest ∧
    ∀ inner element after, Spans tag inner element → .start tag :: rest ≠ element ++ after}

section Unended

variable {ts first inner rest : List Token} {names names' final : List Bytes} {name tag : Bytes}

/-- An element does not end if what follows its start tag would fit without it. -/
theorem not_spans_iff (h : openAfter names (.start tag :: rest) = some final) :
    (∀ inner element after, Spans tag inner element → .start tag :: rest ≠ element ++ after) ↔
      ∃ opened, openAfter [] rest = some opened := by
  constructor
  · intro hspans
    rw [openAfter_cons, nest, Option.bind_some, ← List.nil_append (_ :: names)] at h
    rcases exists_close_of_openAfter h with hopen | ⟨inner, endTag, after, rfl, hinner, hname⟩
    · exact hopen
    · exact absurd (by simp) (hspans inner _ after (.tags hinner hname))
  · rintro ⟨opened, hopen⟩ inner element after hspans heq
    cases hspans with
    | @tags inner endTag hinner hname =>
      simp only [List.cons_append, List.append_assoc, List.cons.injEq, true_and] at heq
      have hclose (ts : List Token) : openAfter [] (.close endTag :: ts) = none := rfl
      rw [heq, openAfter_append, hinner, Option.bind_some, List.nil_append, hclose] at hopen
      cases hopen
    | empty => cases heq

theorem mem_unended (h : openAfter names ts = some final) {i : Nat} :
    i ∈ unended ts ↔ ∃ tag rest opened, ts.drop i = .start tag :: rest ∧
      openAfter [] rest = some opened := by
  have hsplit (us vs : List Token) (hts : us ++ vs = ts) :
      ∃ names', openAfter names' vs = some final := by
    rw [← hts, openAfter_append, Option.bind_eq_some_iff] at h
    obtain ⟨names', -, h⟩ := h
    exact ⟨names', h⟩
  obtain ⟨names', hdrop⟩ := hsplit (ts.take i) (ts.drop i) (List.take_append_drop i ts)
  constructor
  · rintro ⟨tag, rest, heq, hspans⟩
    obtain ⟨opened, hopen⟩ := (not_spans_iff (heq ▸ hdrop)).1 hspans
    exact ⟨tag, rest, opened, heq, hopen⟩
  · rintro ⟨tag, rest, opened, heq, hopen⟩
    exact ⟨tag, rest, heq, (not_spans_iff (heq ▸ hdrop)).2 ⟨opened, hopen⟩⟩

theorem unended_of_balanced (h : Balanced ts) : unended ts = ∅ := by
  rw [Set.eq_empty_iff_forall_notMem]
  intro i hi
  obtain ⟨tag, rest, opened, hdrop, hopen⟩ := (mem_unended h).1 hi
  have hts := List.take_append_drop i ts
  rw [Balanced, ← hts, openAfter_append, hdrop, Option.bind_eq_some_iff] at h
  obtain ⟨names, -, h⟩ := h
  rw [openAfter_cons, nest, Option.bind_some, ← List.nil_append (_ :: names),
    openAfter_append_right hopen] at h
  simp at h

/-- The innermost open element is the last that begins with nothing but whole elements after it. -/
theorem exists_start (h : openAfter [] ts = some (name :: names)) :
    ∃ first tag inner, ts = first ++ .start tag :: inner ∧ openAfter [] first = some names ∧
      Tag.name tag = name ∧ Balanced inner := by
  -- An end tag takes away the element that was open last, with all of its tokens, so the
  -- induction is on the number of tokens.
  induction hn : ts.length using Nat.strong_induction_on generalizing ts name names with
  | _ n ih =>
  rcases List.eq_nil_or_concat' ts with rfl | ⟨ts, t, rfl⟩
  · cases h
  rw [List.length_append, List.length_singleton] at hn
  rw [openAfter_append, Option.bind_eq_some_iff] at h
  obtain ⟨names', hts, h⟩ := h
  rw [openAfter_cons, Option.bind_eq_some_iff] at h
  obtain ⟨_, ht, hnil⟩ := h
  cases hnil
  -- A token that is no tag is inside of the innermost element.
  have inside (hnest : ∀ names, nest names t = some names) :
      ∃ first tag inner, ts ++ [t] = first ++ .start tag :: inner ∧
        openAfter [] first = some names ∧ Tag.name tag = name ∧ Balanced inner := by
    cases (hnest _).symm.trans ht
    obtain ⟨first, tag, inner, rfl, hfirst, hname, hinner⟩ := ih ts.length (by omega) hts rfl
    refine ⟨first, tag, inner ++ [t], by simp, hfirst, hname, ?_⟩
    rw [Balanced, openAfter_append, hinner, Option.bind_some, openAfter_cons, hnest]
    rfl
  cases t with
  | start tag =>
    cases ht
    exact ⟨ts, tag, [], rfl, hts, rfl, rfl⟩
  | close endTag =>
    rw [nest_close_eq_some] at ht
    subst ht
    obtain ⟨mid, tag', inner', rfl, hmid, hname', hinner'⟩ := ih ts.length (by omega) hts rfl
    rw [List.length_append] at hn
    obtain ⟨first, tag, inner, rfl, hfirst, hname, hinner⟩ := ih mid.length (by omega) hmid rfl
    have hspans := Spans.tags hinner' hname'.symm
    refine ⟨first, tag, inner ++ .start tag' :: (inner' ++ [.close endTag]), by simp, hfirst,
      hname, ?_⟩
    rw [Balanced, openAfter_append, hinner, Option.bind_some, hspans.openAfter_eq]
  | empty tag | text data | cdata data | reference name | aside markup =>
    exact inside fun _ => rfl

theorem unended_append (hfirst : openAfter [] first = some names) (hinner : Balanced inner) :
    unended (first ++ .start tag :: inner) = insert first.length (unended first) := by
  have hopen (opened : List Bytes) :
      openAfter opened (.start tag :: inner) = some (Tag.name tag :: opened) := by
    rw [openAfter_cons, nest, Option.bind_some]
    exact openAfter_append_right hinner _
  have hall : openAfter [] (first ++ .start tag :: inner) = some (Tag.name tag :: names) := by
    rw [openAfter_append, hfirst, Option.bind_some, hopen]
  ext i
  rw [Set.mem_insert_iff, mem_unended hall, mem_unended hfirst]
  -- Before the new start tag nothing changes, and behind it every element has its end.
  rcases Nat.lt_trichotomy i first.length with hi | rfl | hi
  · rw [List.drop_append_of_le_length hi.le]
    obtain ⟨t, rest, hdrop⟩ := List.exists_cons_of_ne_nil (List.drop_eq_nil_iff.not.2 hi.not_ge)
    have hiff : (∃ opened, openAfter [] (rest ++ .start tag :: inner) = some opened) ↔
        ∃ opened, openAfter [] rest = some opened := by
      rw [openAfter_append]
      cases openAfter [] rest with
      | none => rfl
      | some opened => simp [hopen]
    rw [hdrop]
    simp only [hi.ne, false_or, List.cons_append, List.cons.injEq]
    constructor
    · rintro ⟨tag', _, opened, ⟨ht, rfl⟩, h⟩
      obtain ⟨opened', h'⟩ := hiff.1 ⟨opened, h⟩
      exact ⟨tag', rest, opened', ⟨ht, rfl⟩, h'⟩
    · rintro ⟨tag', _, opened, ⟨ht, rfl⟩, h⟩
      obtain ⟨opened', h'⟩ := hiff.2 ⟨opened, h⟩
      exact ⟨tag', _, opened', ⟨ht, rfl⟩, h'⟩
  · rw [List.drop_left]
    exact iff_of_true ⟨tag, inner, [], rfl, hinner⟩ (.inl rfl)
  · have hnone := Set.eq_empty_iff_forall_notMem.1 (unended_of_balanced hinner)
      (i - first.length - 1)
    rw [mem_unended hinner] at hnone
    have hdrop : (first ++ .start tag :: inner).drop i = inner.drop (i - first.length - 1) := by
      obtain ⟨k, rfl⟩ := Nat.exists_eq_add_of_lt hi
      rw [Nat.add_assoc, List.drop_append]
      simp
    rw [hdrop]
    simp only [hnone, hi.ne', List.drop_eq_nil_of_le hi.le, reduceCtorEq, false_and, exists_false,
      or_false]

theorem finite_unended (ts : List Token) : (unended ts).Finite := by
  refine (Set.finite_lt_nat ts.length).subset ?_
  rintro i ⟨tag, rest, hdrop, -⟩
  by_contra hi
  rw [List.drop_eq_nil_of_le (by simpa using hi)] at hdrop
  cases hdrop

/-- The open elements are those without an end. -/
theorem ncard_unended (h : openAfter [] ts = some names) : (unended ts).ncard = names.length := by
  induction names generalizing ts with
  | nil => rw [unended_of_balanced h, Set.ncard_empty, List.length_nil]
  | cons name names ih =>
    obtain ⟨first, tag, inner, rfl, hfirst, -, hinner⟩ := exists_start h
    have hnotMem : first.length ∉ unended first := by
      rintro ⟨tag, rest, hdrop, -⟩
      rw [List.drop_length] at hdrop
      cases hdrop
    rw [unended_append hfirst hinner, Set.ncard_insert_of_notMem hnotMem (finite_unended first),
      ih hfirst, List.length_cons]

end Unended

/-! ## Parts of an element -/

/-- Inside of an element something is open: the element itself. -/
theorem Spans.exists_open {tag : Bytes} {inner element us vs : List Token}
    (h : Spans tag inner element) (heq : element = us ++ vs) (hus : us ≠ []) (hvs : vs ≠ []) :
    ∃ name names, openAfter [] us = some (name :: names) := by
  obtain ⟨t, us, rfl⟩ := List.exists_cons_of_ne_nil hus
  obtain ⟨last, endTag, rfl⟩ := List.eq_nil_or_concat' vs |>.resolve_left hvs
  cases h with
  | @tags inner closing hinner hname =>
    simp only [List.cons_append, List.cons.injEq, ← List.append_assoc] at heq
    obtain ⟨rfl, heq⟩ := heq
    obtain ⟨rfl, -⟩ := List.append_inj' heq rfl
    rw [Balanced, openAfter_append, Option.bind_eq_some_iff] at hinner
    obtain ⟨opened, hopen, -⟩ := hinner
    have hmore := openAfter_append_right hopen [Tag.name tag]
    obtain ⟨name, names, hnames⟩ :=
      List.exists_cons_of_ne_nil (List.append_ne_nil_of_right_ne_nil opened
        (List.cons_ne_nil (Tag.name tag) []))
    refine ⟨name, names, ?_⟩
    rw [openAfter_cons, nest, Option.bind_some, ← hnames]
    exact hmore
  | empty => simp at heq

theorem nest_of_not_isTag {t : Token} (h : t.isTag = false) (names : List Bytes) :
    nest names t = some names := by
  cases t with
  | start tag | empty tag | close tag => cases h
  | text data | cdata data | reference name | aside markup => rfl

theorem openAfter_of_untagged {ts : List Token} (h : ∀ t ∈ ts, t.isTag = false)
    (names : List Bytes) : openAfter names ts = some names := by
  induction ts with
  | nil => rfl
  | cons t ts ih =>
    rw [List.forall_mem_cons] at h
    rw [openAfter_cons, nest_of_not_isTag h.1, Option.bind_some, ih h.2]

/-- What fits with a tag and leaves nothing open, in a document with one root, has the root in
it. -/
theorem Spans.prefix_of_balanced {tag : Bytes} {inner element before after us vs : List Token}
    (h : Spans tag inner element) (hbefore : ∀ t ∈ before, t.isTag = false)
    (heq : before ++ element ++ after = us ++ vs) (hbalanced : Balanced us)
    (htag : ∃ t ∈ us, t.isTag) : ∃ more, us = before ++ element ++ more := by
  rw [List.append_assoc, List.append_eq_append_iff] at heq
  rcases heq with ⟨mid, rfl, heq⟩ | ⟨mid, rfl, -⟩
  · rw [List.append_eq_append_iff] at heq
    rcases heq with ⟨more, rfl, -⟩ | ⟨more, helement, -⟩
    · exact ⟨more, by simp⟩
    · rw [Balanced, openAfter_append, openAfter_of_untagged hbefore, Option.bind_some] at hbalanced
      rcases List.eq_nil_or_concat' more with rfl | ⟨more, last, rfl⟩
      · exact ⟨[], by simp [helement]⟩
      · rcases mid.eq_nil_or_concat' with rfl | ⟨mid, t, rfl⟩
        · obtain ⟨t, hmem, ht⟩ := htag
          rw [hbefore t (by simpa using hmem)] at ht
          cases ht
        · obtain ⟨name, names, hopen⟩ := h.exists_open helement (by simp) (by simp)
          cases hopen.symm.trans hbalanced
  · obtain ⟨t, hmem, ht⟩ := htag
    rw [hbefore t (List.mem_append_left mid hmem)] at ht
    cases ht

/-- Behind a complete document all of its tokens stay what they are, but a last text. -/
theorem Cuts.exists_append {s : Bytes} {ts : List Token} (h : Cuts s ts []) (u : Bytes) :
    ∃ us vs rest, ts = us ++ vs ∧ (∀ t ∈ vs, t.isTag = false) ∧ Cuts (s ++ u) us rest := by
  rcases List.eq_nil_or_concat' ts with rfl | ⟨us, t, rfl⟩
  · exact ⟨[], [], _, rfl, by simp, .nil _⟩
  · cases ht : t.isText with
    | false =>
      refine ⟨us ++ [t], [], _, by simp, by simp, h.append u fun t' ht' htext => ?_⟩
      rw [List.getLast?_concat, Option.mem_some_iff] at ht'
      rw [← ht', ht] at htext
      cases htext
    | true =>
      obtain ⟨mid, hus, ht'⟩ := h.exists_of_append
      have hmid : mid ≠ [] := by
        rintro rfl
        cases ht' with
        | cons h => cases h
      refine ⟨us, [t], _, rfl, ?_, hus.append u fun _ _ _ => hmid⟩
      cases t <;> simp_all [isText, isTag]

end Token

/-! ## The mark -/

/-- The mark is at the beginning of every part of a document that has all of it. -/
theorem exists_mark (input : Bytes) :
    ∃ mark, input = mark ++ dropMark input ∧
      ∀ s u, dropMark input = s ++ u → dropMark (mark ++ s) = s := by
  unfold dropMark
  split
  · exact ⟨[0xEF, 0xBB, 0xBF], rfl, fun s u _ => rfl⟩
  · rename_i hmark
    refine ⟨[], rfl, fun s u hsu => ?_⟩
    rw [List.nil_append]
    split
    · rename_i s
      exact absurd (by simpa using hsu) (hmark (s ++ u))
    · rfl

/-- The tokens of a document and what is left behind them. -/
theorem exists_cuts_tokens (input : Bytes) :
    ∃ rest, Token.Cuts (dropMark input) (tokens input) rest ∧
      Token.Ends rest (Token.lex (dropMark input)).2 :=
  Token.lex_eq_iff.1 rfl

/-- How many bytes of the document there are up to the end of its first tokens `ts`. -/
def sizeUpTo (input : Bytes) (ts : List Token) : Nat :=
  input.length - (dropMark input).length + (ts.flatMap Token.render).length

namespace Reading

variable {r : Reading} {ts : List Token}

/-- The depth is the number of elements that are open, and an end tag lowers it. -/
theorem depth_of_run (h : (Reading.run {} ts).result = .ok r) :
    r.depth = r.openNames.length ∧ r.depth = (Token.unended ts).ncard ∧
      ∀ name names, closeName r.openNames name = .ok names → r.depth = names.length + 1 := by
  obtain ⟨-, names, b, hopen, -, rfl⟩ := (run_eq_ok (r := {}) rfl).1 h
  refine ⟨rfl, (Token.ncard_unended hopen).symm, fun name names' hclose => ?_⟩
  rw [closeName_eq_ok] at hclose
  exact (congrArg List.length hclose).trans (List.length_cons ..)

end Reading

section Root

variable {input : Bytes} {p : Protocol} {tag : Bytes} {before inner element after : List Token}

/-- Without a tag there is no protocol. -/
theorem exists_tag_of_parse (h : (parse input).result = .ok p) :
    ∃ t ∈ (Token.lex (dropMark input)).1, t.isTag := by
  obtain ⟨ts, hlex, -, hread, b, hb, hp⟩ := parse_eq_ok_iff.1 h
  rw [hlex]
  by_contra htag
  have huntagged : ∀ t ∈ ts, t.isTag = false := fun t ht => by
    simpa using fun h => htag ⟨t, ht, h⟩
  rw [Builder.applyAll_of_untagged _ huntagged hread] at hb
  cases hb
  cases hp

/-- A part of the document that is accepted has all of the root element. -/
theorem sizeUpTo_le_of_parse_take (hts : tokens input = before ++ element ++ after)
    (hspans : Token.Spans tag inner element) (hbefore : ∀ t ∈ before, t.isTag = false)
    {n : Nat} (h : (parse (input.take n)).result = .ok p) :
    sizeUpTo input (before ++ element) ≤ n := by
  obtain ⟨t, htmem, ht⟩ := exists_tag_of_parse h
  have htext : t.isText = false := by cases t <;> simp_all [Token.isText, Token.isTag]
  have hmark := dropMark_append_of_mem htmem htext (input.drop n)
  obtain ⟨ts, hlex, hbalanced, -⟩ := parse_eq_ok_iff.1 h
  rw [hlex] at htmem
  rw [Token.lex_eq_complete] at hlex
  -- Only a last text of the part may go on in the document.
  obtain ⟨us, vs, rest, rfl, hvs, hcuts⟩ := hlex.exists_append (input.drop n)
  rw [← hmark, List.take_append_drop] at hcuts
  rw [Token.Balanced, Token.openAfter_append, Option.bind_eq_some_iff] at hbalanced
  obtain ⟨names, hus, hnames⟩ := hbalanced
  rw [Token.openAfter_of_untagged hvs] at hnames
  cases hnames
  have htag : ∃ t ∈ us, t.isTag := by
    refine ⟨t, (List.mem_append.1 htmem).resolve_right fun hmem => ?_, ht⟩
    rw [hvs t hmem] at ht
    cases ht
  obtain ⟨more, rfl⟩ := hspans.prefix_of_balanced hbefore (hts.symm.trans hcuts.lex_fst) hus htag
  have hbytes := congrArg List.length hlex.eq_append
  have hsplit := congrArg List.length hmark
  have hle := length_dropMark_le (input.take n)
  rw [List.take_append_drop] at hsplit
  simp only [List.flatMap_append, List.length_append, List.length_drop, List.length_nil,
    List.length_take] at hbytes hsplit hle
  simp only [sizeUpTo, List.flatMap_append, List.length_append]
  omega

/-- The document up to the end of its first tokens consists of these. -/
theorem lex_take_sizeUpTo {first : List Token} {mid : Bytes}
    (h : Token.Cuts (dropMark input) first mid) :
    Token.lex (dropMark (input.take (sizeUpTo input first))) = (first, .complete) := by
  obtain ⟨mark, hinput, hdrop⟩ := exists_mark input
  have hsize : sizeUpTo input first = (mark ++ first.flatMap Token.render).length := by
    have hlength := congrArg List.length hinput
    rw [List.length_append] at hlength
    rw [sizeUpTo, List.length_append, hlength, Nat.add_sub_cancel]
  have htake : input.take (sizeUpTo input first) = mark ++ first.flatMap Token.render := by
    conv_lhs => rw [hsize, hinput, h.eq_append, ← List.append_assoc]
    exact List.take_left
  rw [htake, hdrop _ _ h.eq_append, Token.lex_eq_complete]
  exact h.render

/-- A document whose tokens can all be read ends with an error if something is open. -/
theorem parse_of_depth_pos {ts : List Token} {r : Reading}
    (hlex : Token.lex (dropMark input) = (ts, .complete))
    (hrun : (Reading.run {} ts).result = .ok r) (hdepth : 0 < r.depth) :
    (parse input).result =
      .error ⟨1 + input.count newline, .unclosedElements r.depth⟩ := by
  have hfinish : r.finish input.length .complete =
      .error ⟨input.length, .unclosedElements r.depth⟩ := if_pos hdepth
  rw [parse, hlex, Logged.result_mapError, mapError_eq_error]
  refine ⟨_, Logged.result_bind_eq_error.2 (.inr ⟨r, hrun, hfinish⟩), ?_⟩
  rw [lineAt, List.take_length]

/-- Between two tokens of the root element the document ends with open elements. -/
theorem parse_take_sizeUpTo (h : (parse input).result = .ok p) {first second : List Token}
    (hts : tokens input = first ++ second) (hopen : Token.unended first ≠ ∅) :
    (parse (input.take (sizeUpTo input first))).result =
      .error ⟨1 + (input.take (sizeUpTo input first)).count newline,
        .unclosedElements (Token.unended first).ncard⟩ := by
  obtain ⟨ts, hlex, hbalanced, hread, b, hb, -⟩ := parse_eq_ok_iff.1 h
  have htokens : tokens input = ts := by rw [tokens, hlex]
  rw [htokens] at hts
  subst hts
  obtain ⟨mid, hfirst, -⟩ := (Token.lex_eq_complete.1 hlex).exists_of_append
  rw [Token.Balanced, Token.openAfter_append, Option.bind_eq_some_iff] at hbalanced
  obtain ⟨names, hnames, -⟩ := hbalanced
  rw [List.flatMap_append, Builder.applyAll_append_eq_ok] at hb
  obtain ⟨b', hb', -⟩ := hb
  have hrun := (Reading.run_eq_ok (r := {}) rfl).2
    ⟨fun t ht => hread t (List.mem_append_left _ ht), names, b', hnames, hb', rfl⟩
  obtain ⟨-, hdepth, -⟩ := Reading.depth_of_run hrun
  have hpos : 0 < (Token.unended first).ncard :=
    (Set.ncard_pos (Token.finite_unended first)).2 (Set.nonempty_iff_ne_empty.2 hopen)
  rw [parse_of_depth_pos (lex_take_sizeUpTo hfirst) hrun (hdepth ▸ hpos), hdepth]

/-- Between two tokens of an element the element is open. -/
theorem unended_ne_empty (hspans : Token.Spans tag inner element)
    (hbefore : ∀ t ∈ before, t.isTag = false) {first second : List Token}
    (heq : before ++ element ++ after = first ++ second) (hbegun : before.length < first.length)
    (hcut : first.length < (before ++ element).length) : Token.unended first ≠ ∅ := by
  obtain ⟨us, rfl⟩ : ∃ us, first = before ++ us :=
    (List.prefix_of_prefix_length_le ⟨_, (List.append_assoc ..).symm.trans heq⟩ ⟨second, rfl⟩
      hbegun.le).imp fun _ h => h.symm
  obtain ⟨vs, hvs⟩ : ∃ vs, before ++ us ++ vs = before ++ element :=
    List.prefix_of_prefix_length_le ⟨second, heq.symm⟩ ⟨after, rfl⟩ hcut.le
  rw [List.append_assoc, List.append_cancel_left_eq] at hvs
  have hus : us ≠ [] := by
    rintro rfl
    simp at hbegun
  have hrest : vs ≠ [] := by
    rintro rfl
    simp [← hvs] at hcut
  obtain ⟨name, names, hopen⟩ := hspans.exists_open hvs.symm hus hrest
  have hfirst : Token.openAfter [] (before ++ us) = some (name :: names) := by
    rw [Token.openAfter_append, Token.openAfter_of_untagged hbefore, Option.bind_some, hopen]
  intro hempty
  have hcard := Token.ncard_unended hfirst
  rw [hempty, Set.ncard_empty] at hcard
  cases hcard

/-- No part of an accepted document is accepted that ends before its root element does, wherever it
is cut. Between two tokens of the root the error is that of the elements that have no end in that
part, on the last line of it. Whatever is read, the depth is the number of these elements, and no
end tag is taken at depth 0. -/
theorem parse_take_of_root (h : (parse input).result = .ok p)
    (hts : tokens input = before ++ element ++ after) (hspans : Token.Spans tag inner element)
    (hbefore : ∀ t ∈ before, t.isTag = false) :
    (∀ n < sizeUpTo input (before ++ element), ∀ q, (parse (input.take n)).result ≠ .ok q) ∧
    (∀ first second, tokens input = first ++ second → before.length < first.length →
      first.length < (before ++ element).length →
      let cut := input.take (sizeUpTo input first)
      (parse cut).result =
        .error ⟨1 + cut.count newline, .unclosedElements (Token.unended first).ncard⟩) ∧
    ∀ ts r, (Reading.run {} ts).result = .ok r →
      r.depth = r.openNames.length ∧ r.depth = (Token.unended ts).ncard ∧
        ∀ name names, Reading.closeName r.openNames name = .ok names →
          r.depth = names.length + 1 := by
  refine ⟨fun n hn q hq => ?_, fun first second hfirst hbegun hcut => ?_, fun ts r hrun =>
    Reading.depth_of_run hrun⟩
  · exact absurd (sizeUpTo_le_of_parse_take hts hspans hbefore hq) (Nat.not_le.2 hn)
  · exact parse_take_sizeUpTo h hfirst
      (unended_ne_empty hspans hbefore (hts.symm.trans hfirst) hbegun hcut)

/-- Cut behind the start tag of the interface, and inside of it. -/
theorem parse_take_of_open_interface :
    let input := ascii ("<?xml version='1.0'?>\n<protocol name='p'>\n<x/><y>\n</y>" ++
      "<interface name='i' version='1'>\n</interface></protocol>\n")
    (parse input).result.toOption.isSome ∧
      (parse (input.take 86)).result = .error ⟨4, .unclosedElements 2⟩ ∧
      ∀ q, (parse (input.take 70)).result ≠ .ok q := by
  intro input
  let before : List Token := [.aside (ascii "?xml version='1.0'?"), .text (ascii "\n")]
  let interface : List Token := [.start (ascii "interface name='i' version='1'")]
  let inner : List Token := [.text (ascii "\n"), .empty (ascii "x"), .start (ascii "y"),
    .text (ascii "\n"), .close (ascii "y")]
  let protocol : List Token := .start (ascii "protocol name='p'") :: inner
  let last : List Token := [.text (ascii "\n"), .close (ascii "interface")]
  let close : List Token := [.close (ascii "protocol")]
  let after : List Token := [.text (ascii "\n")]
  have hresult : (parse input).result.toOption.isSome := by decide +kernel
  obtain ⟨p, hp⟩ := Option.isSome_iff_exists.1 hresult
  rw [toOption_eq_some] at hp
  have hts : tokens input = before ++ (protocol ++ interface ++ last ++ close) ++ after := by
    decide +kernel
  have hspans : Token.Spans (ascii "protocol name='p'") (inner ++ interface ++ last)
      (protocol ++ interface ++ last ++ close) :=
    .tags (by unfold Token.Balanced; decide +kernel) (by decide +kernel)
  obtain ⟨hreject, hopen, -⟩ := parse_take_of_root hp hts hspans (by decide)
  have hsize : sizeUpTo input (before ++ protocol ++ interface) = 86 := by decide +kernel
  have hnames : Token.openAfter [] (before ++ protocol ++ interface) =
      some [ascii "interface", ascii "protocol"] := by decide +kernel
  have hcard := Token.ncard_unended hnames
  have herror := hopen (before ++ protocol ++ interface) (last ++ close ++ after) hts (by decide)
    (by decide)
  have hnewlines : (input.take 86).count newline = 3 := by decide +kernel
  simp only [hsize, hcard, hnewlines] at herror
  exact ⟨hresult, herror, hreject 70 (by decide +kernel)⟩

end Root

end WaylandDoc
