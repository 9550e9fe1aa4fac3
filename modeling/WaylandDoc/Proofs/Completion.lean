import WaylandDoc.Proofs.Growth
import WaylandDoc.Proofs.Joining
import WaylandDoc.Proofs.Truncation

/-!
# Completed documents

The elements that are open between two tokens of a document end behind them (`Token.outerEnds`).
With these end tags the document up to there is complete again, and its tree is an initial part of
the tree of the whole document (`parse_completion`): the builder has taken the same calls so far,
end tags never fail, and no later call takes a node away or changes what its tag declared.
-/

namespace WaylandDoc

namespace Token

/-- The end tags of the elements that are open before the tokens, if `inner` more were opened
since. -/
def outerEnds (inner : Nat) : List Token → List Token
  | [] => []
  | .start _ :: ts => outerEnds (inner + 1) ts
  | .close tag :: ts =>
    match inner with
    | 0 => .close tag :: outerEnds 0 ts
    | inner + 1 => outerEnds inner ts
  | _ :: ts => outerEnds inner ts

theorem outerEnds_sublist (inner : Nat) (ts : List Token) : (outerEnds inner ts).Sublist ts := by
  fun_induction outerEnds inner ts with
  | case1 => exact .slnil
  | case3 ts tag ih => exact ih.cons_cons _
  | case2 inner tag ts ih | case4 tag ts inner ih | case5 inner t ts h₁ h₂ ih => exact ih.cons _

theorem exists_close_of_mem_outerEnds (inner : Nat) (ts : List Token) :
    ∀ t ∈ outerEnds inner ts, ∃ tag, t = .close tag := by
  fun_induction outerEnds inner ts with
  | case1 => simp
  | case3 ts tag ih => exact List.forall_mem_cons.2 ⟨⟨_, rfl⟩, ih⟩
  | case2 inner tag ts ih | case4 tag ts inner ih | case5 inner t ts h₁ h₂ ih => exact ih

/-- What is opened among the tokens ends there too, so nothing else is needed. -/
theorem openAfter_outerEnds (opened : List Bytes) {names : List Bytes} {ts : List Token}
    (h : openAfter (opened ++ names) ts = some []) :
    openAfter names (outerEnds opened.length ts) = some [] := by
  induction ts generalizing opened names with
  | nil =>
    rw [openAfter_nil, Option.some.injEq, List.append_eq_nil_iff] at h
    rw [h.1, h.2]
    rfl
  | cons t ts ih =>
    rw [openAfter_cons, Option.bind_eq_some_iff] at h
    obtain ⟨names', ht, h⟩ := h
    cases t with
    | start tag =>
      cases ht
      exact ih (Tag.name tag :: opened) h
    | close tag =>
      rw [nest_close_eq_some] at ht
      cases opened with
      | nil =>
        subst ht
        rw [List.length_nil, outerEnds, openAfter_cons, nest_close_eq_some.2 rfl, Option.bind_some]
        exact ih [] h
      | cons name opened =>
        rw [List.cons_append, List.cons.injEq] at ht
        obtain ⟨-, rfl⟩ := ht
        exact ih opened h
    | empty tag | text data | cdata data | reference name | aside markup =>
      cases ht
      exact ih opened h

end Token

/-- Whatever is open, end tags are taken and leave the skeleton of the tree as it is. -/
theorem Builder.exists_applyAll_of_closes {b : Builder} (hb : b.Grounded) {ts : List Token}
    (hts : ∀ t ∈ ts, ∃ tag, t = .close tag) :
    ∃ b', b.applyAll (ts.flatMap Token.calls) = .ok b' ∧
      b'.protocol.map Protocol.skeleton = b.protocol.map Protocol.skeleton := by
  induction ts generalizing b with
  | nil => exact ⟨b, rfl, rfl⟩
  | cons t ts ih =>
    rw [List.forall_mem_cons] at hts
    obtain ⟨⟨tag, rfl⟩, hts⟩ := hts
    have hclose := close_eq hb (localName (Tag.endName tag))
    obtain ⟨b', hb', hskeleton⟩ := ih (hb.closed _) hts
    exact ⟨b', applyAll_cons_eq_ok.2 ⟨_, hclose, hb'⟩, hskeleton.trans (b.closed_protocol _)⟩

/-- The document up to the end of its tokens `first` and, of the tokens `second` that follow, the
end tags of the elements that are open in between. -/
def completion (input : Bytes) (first second : List Token) : Bytes :=
  input.take (sizeUpTo input first) ++ (Token.outerEnds 0 second).flatMap Token.render

section Completion

variable {input : Bytes} {p : Protocol} {first second : List Token}

/-- The completed document has the tokens that it was put together from. -/
theorem lex_completion (h : Token.Cuts (dropMark input) (first ++ second) [])
    (hfirst : ∃ t ∈ first, t.isText = false) :
    Token.lex (dropMark (completion input first second)) =
      (first ++ Token.outerEnds 0 second, .complete) := by
  obtain ⟨mid, hcut, -⟩ := h.exists_of_append
  have htake := lex_take_sizeUpTo hcut
  obtain ⟨t, ht, htext⟩ := hfirst
  have hbytes := (Token.lex_eq_complete.1 htake).eq_append
  rw [List.append_nil] at hbytes
  have hmem : t ∈ (Token.lex (dropMark (input.take (sizeUpTo input first)))).1 := by rwa [htake]
  have hends := Token.exists_close_of_mem_outerEnds 0 second
  have hapart {u : Token} (hu : u ∈ Token.outerEnds 0 second) : u.isText = false := by
    obtain ⟨tag, rfl⟩ := hends u hu
    rfl
  rw [completion, dropMark_append_of_mem hmem htext, hbytes, ← List.flatMap_append,
    Token.lex_eq_complete]
  rw [← List.append_nil (List.flatMap _ _)]
  refine .of_stands (fun u hu => ?_) ?_ fun _ _ _ => nofun
  · rcases List.mem_append.1 hu with hu | hu
    · exact hcut.stands u hu
    · exact h.stands u (List.mem_append_right _ ((Token.outerEnds_sublist 0 second).subset hu))
  · refine List.isChain_append.2 ⟨hcut.isChain, ?_, fun t _ u hu _ => hapart (List.mem_of_head? hu)⟩
    exact List.Pairwise.isChain (List.pairwise_of_forall_mem_list fun _ _ u hu _ => hapart hu)

theorem exists_not_isText_of_starts {e : Element}
    (h : ∃ c ∈ first.flatMap Token.calls, c.starts e) : ∃ t ∈ first, t.isText = false := by
  obtain ⟨c, hc, hstarts⟩ := h
  obtain ⟨t, ht, htc⟩ := List.mem_flatMap.1 hc
  refine ⟨t, ht, ?_⟩
  cases t with
  | text data =>
    obtain ⟨s, -, rfl⟩ := List.mem_map.1 htc
    cases hstarts
  | _ => rfl

/-- The builder has a protocol from its start tag on. -/
theorem isSome_protocol_of_starts {b : Builder} {names : List Bytes}
    (hopen : Token.openAfter [] first = some names)
    (hb : Builder.applyAll {} (first.flatMap Token.calls) = .ok b)
    (hstarts : ∃ c ∈ first.flatMap Token.calls, c.starts .protocol) : b.protocol.isSome := by
  have hnil : History.Nested [] := trivial
  obtain ⟨hnested, -⟩ := History.nested_of_openAfter hnil rfl hopen
  have htracks := Builder.tracks_empty.applyAll Builder.grounded_empty hnested hb
  rw [htracks.protocol, History.hasProtocol, List.any_eq_true]
  obtain ⟨c, hc, hc'⟩ := hstarts
  exact ⟨c, by simpa using hc, hc'⟩

/-- Wherever an accepted document is cut between two tokens behind the start tag of the protocol,
the first part with the end tags of what is open there is accepted, and its tree is an initial part
of that of the document. -/
theorem parse_completion (h : (parse input).result = .ok p) (hts : tokens input = first ++ second)
    (hstarts : ∃ c ∈ first.flatMap Token.calls, c.starts .protocol) :
    ∃ q, (parse (completion input first second)).result = .ok q ∧ q.Begins p := by
  obtain ⟨ts, hlex, hbalanced, hread, b, hb, hp⟩ := parse_eq_ok_iff.1 h
  obtain rfl : ts = first ++ second := by rw [← hts, tokens, hlex]
  rw [List.flatMap_append, Builder.applyAll_append_eq_ok] at hb
  obtain ⟨b₁, hb₁, hb⟩ := hb
  rw [Token.Balanced, Token.openAfter_append, Option.bind_eq_some_iff] at hbalanced
  obtain ⟨names, hnames, hbalanced⟩ := hbalanced
  have hgrounded := Builder.grounded_empty.applyAll hb₁
  have hconsistent := Builder.consistent_empty.applyAll Builder.grounded_empty hb₁
  obtain ⟨p₁, hp₁⟩ := Option.isSome_iff_exists.1 (isSome_protocol_of_starts hnames hb₁ hstarts)
  obtain ⟨p', hp', hbegins⟩ := Builder.Begins.applyAll hgrounded hconsistent hb p₁ hp₁
  cases hp'.symm.trans hp
  -- The end tags add nothing to the tree that is there at the cut.
  have hends := Token.exists_close_of_mem_outerEnds 0 second
  obtain ⟨b₂, hb₂, hskeleton⟩ := Builder.exists_applyAll_of_closes hgrounded hends
  rw [hp₁, Option.map_some, Option.map_eq_some_iff] at hskeleton
  obtain ⟨q, hq, hskeleton⟩ := hskeleton
  have hcomplete :=
    lex_completion (Token.lex_eq_complete.1 hlex) (exists_not_isText_of_starts hstarts)
  refine ⟨q, parse_eq_ok_iff.2 ⟨_, hcomplete, ?_, fun u hu => ?_, b₂, ?_, hq⟩,
    (Protocol.begins_of_skeleton hskeleton).trans hbegins⟩
  · rw [Token.Balanced, Token.openAfter_append, hnames, Option.bind_some]
    exact Token.openAfter_outerEnds [] hbalanced
  · rcases List.mem_append.1 hu with hu | hu
    · exact hread u (List.mem_append_left _ hu)
    · obtain ⟨tag, rfl⟩ := hends u hu
      trivial
  · rw [List.flatMap_append, Builder.applyAll_append_eq_ok]
    exact ⟨b₁, hb₁, hb₂⟩

/-- Cut in the description of an argument, between a text and an element that is ignored. -/
theorem parse_completion_in_description :
    let first := ascii ("<protocol name='p'><interface name='i' version='2'>" ++
      "<request name='r'><arg name='a' type='int'><description summary='s'>one")
    let ends := ascii "</description></arg></request></interface></protocol>"
    ∃ p q, (parse (first ++ ascii "<b>two</b>" ++ ends)).result = .ok p ∧
      (parse (first ++ ends)).result = .ok q ∧ q.Begins p := by
  intro first ends
  let input := first ++ ascii "<b>two</b>" ++ ends
  have hresult : (parse input).result.toOption.isSome := by decide +kernel
  obtain ⟨p, hp⟩ := Option.isSome_iff_exists.1 hresult
  rw [toOption_eq_some] at hp
  have hts := (List.take_append_drop 6 (tokens input)).symm
  have hstarts : ∃ c ∈ ((tokens input).take 6).flatMap Token.calls, c.starts .protocol := by
    decide +kernel
  have hcompletion :
      completion input ((tokens input).take 6) ((tokens input).drop 6) = first ++ ends := by
    decide +kernel
  obtain ⟨q, hq, hbegins⟩ := parse_completion hp hts hstarts
  exact ⟨p, q, hp, hcompletion ▸ hq, hbegins⟩

end Completion

end WaylandDoc
