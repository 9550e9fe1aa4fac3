import WaylandDoc.Proofs.PageTags

/-!
# Symbols of a page

A page is a sequence of symbols: characters of texts, each of which is escaped, and tags. No code of
a symbol begins with that of another one, so two pages are equal if they have the same symbols
(`render_inj`). An element ends where the first end tag stands that ends nothing inside of it, so
its content and what follows it can be told from its symbols (`symbols_element_append`).
-/

namespace WaylandDoc

/-- A list can be cut at the first place where an element stands. -/
theorem append_cons_inj {α : Type} {a : α} {xs ys r r' : List α} (hx : a ∉ xs) (hy : a ∉ ys) :
    xs ++ a :: r = ys ++ a :: r' ↔ xs = ys ∧ r = r' := by
  refine ⟨fun h => ?_, by rintro ⟨rfl, rfl⟩; rfl⟩
  rcases List.append_eq_append_iff.1 h with ⟨mid, rfl, hmid⟩ | ⟨mid, rfl, hmid⟩
  · cases mid with
    | nil => simpa using hmid
    | cons b mid => simp_all
  · cases mid with
    | nil => simpa [eq_comm] using hmid
    | cons b mid => simp_all

theorem escapeChar_ne_nil (c : Char) : escapeChar c ≠ [] := by
  unfold escapeChar
  split <;> exact List.cons_ne_nil _ _

/-- One of two escaped characters does not begin with the other. -/
theorem escapeChar_append_inj {c d : Char} {r r' : List Char} :
    escapeChar c ++ r = escapeChar d ++ r' ↔ c = d ∧ r = r' := by
  refine ⟨fun h => ?_, by rintro ⟨rfl, rfl⟩; rfl⟩
  have plain {c : Char} (hc : ∀ e : Entity, c ≠ e.char) (e : Entity) {r r' : List Char} :
      [c] ++ r ≠ e.reference ++ r' := fun heq => hc .amp (List.cons.inj heq).1
  by_cases hc : ∃ e : Entity, c = e.char
  · obtain ⟨e, rfl⟩ := hc
    by_cases hd : ∃ e : Entity, d = e.char
    · obtain ⟨e', rfl⟩ := hd
      rw [escapeChar_of_entity, escapeChar_of_entity] at h
      revert h
      cases e <;> cases e' <;> simp [Entity.reference, Entity.name, Entity.char]
    · rw [not_exists] at hd
      rw [escapeChar_of_entity, escapeChar_of_ne hd] at h
      exact absurd h.symm (plain hd e)
  · rw [not_exists] at hc
    by_cases hd : ∃ e : Entity, d = e.char
    · obtain ⟨e', rfl⟩ := hd
      rw [escapeChar_of_entity, escapeChar_of_ne hc] at h
      exact absurd h (plain hc e')
    · rw [not_exists] at hd
      rw [escapeChar_of_ne hc, escapeChar_of_ne hd] at h
      exact List.cons.inj h

namespace Html

/-- A character of a text, or a tag as it is printed. -/
inductive Symbol where
  | char (c : Char)
  /-- The tag of an element without content. -/
  | void (tag : String)
  | opening (tag : String)
  | closing (tag : String)
  deriving DecidableEq, Repr

/-- The symbols of the tree in the order in which they are printed. -/
def symbols : Html → List Symbol
  | nothing => []
  | text s => s.toList.map .char
  | void tag => [.void tag.opening]
  | element tag body => .opening tag.opening :: (body.symbols ++ [.closing tag.closing])
  | append first second => first.symbols ++ second.symbols

namespace Symbol

/-! ## Printed symbols -/

/-- The symbol as it is printed. -/
def chars : Symbol → List Char
  | char c => escapeChar c
  | void tag | opening tag | closing tag => tag.toList

end Symbol

theorem toList_render (h : Html) : h.render.toList = h.symbols.flatMap Symbol.chars := by
  induction h with
  | nothing => rfl
  | text s =>
    rw [render_text, escape, String.toList_ofList, symbols, List.flatMap_map]
    rfl
  | void tag => simp [symbols, Symbol.chars]
  | element tag body ih => simp [render_element, symbols, Symbol.chars, ih]
  | append first second ihfirst ihsecond => simp [render_append, symbols, ihfirst, ihsecond]

/-- The tag begins with `<` and ends with its only `>`. -/
def IsTag (tag : String) : Prop := ∃ cs, tag.toList = '<' :: (cs ++ ['>']) ∧ '>' ∉ cs

theorem IsTag.append_inj {tag tag' : String} (h : IsTag tag) (h' : IsTag tag')
    {r r' : List Char} (heq : tag.toList ++ r = tag'.toList ++ r') : tag = tag' ∧ r = r' := by
  obtain ⟨cs, htag, hcs⟩ := h
  obtain ⟨cs', htag', hcs'⟩ := h'
  rw [htag, htag'] at heq
  simp only [List.cons_append, List.append_assoc, List.nil_append, List.cons.injEq,
    true_and] at heq
  obtain ⟨rfl, hr⟩ := (append_cons_inj hcs hcs').1 heq
  exact ⟨String.toList_inj.1 (htag.trans htag'.symm), hr⟩

theorem IsTag.ne_escapeChar {tag : String} (h : IsTag tag) (c : Char) (r r' : List Char) :
    tag.toList ++ r ≠ escapeChar c ++ r' := by
  intro heq
  obtain ⟨cs, htag, -⟩ := h
  have hlt : '<' ∉ escapeChar c := by
    simpa [escape, Entity.char] using char_notMem_escape (e := .lt) (by decide) (String.singleton c)
  obtain ⟨d, ds, hds⟩ := List.exists_cons_of_ne_nil (escapeChar_ne_nil c)
  rw [htag, hds, List.cons_append, List.cons_append] at heq
  obtain ⟨rfl, -⟩ := List.cons.inj heq
  simp [hds] at hlt

/-- An end tag has a slash behind the `<`. -/
def isEndTag (tag : String) : Bool := tag.toList[1]? == some '/'

/-- The kind of a tag can be told from how it is printed. -/
def Symbol.Clean : Symbol → Prop
  | char _ => True
  | void tag => IsTag tag ∧ isEndTag tag = false ∧ tag ∈ unpaired
  | opening tag => IsTag tag ∧ isEndTag tag = false ∧ tag ∉ unpaired
  | closing tag => IsTag tag ∧ isEndTag tag = true

/-- No symbol begins with another one. -/
theorem Symbol.Clean.append_inj {a b : Symbol} (ha : a.Clean) (hb : b.Clean) {r r' : List Char}
    (h : a.chars ++ r = b.chars ++ r') : a = b ∧ r = r' := by
  cases a with
  | char c =>
    cases b with
    | char d => simpa [chars, escapeChar_append_inj] using h
    | void tag | opening tag | closing tag => exact absurd h.symm (hb.1.ne_escapeChar c _ _)
  | void tag | opening tag | closing tag =>
    cases b with
    | char c => exact absurd h (ha.1.ne_escapeChar c _ _)
    | void tag' | opening tag' | closing tag' =>
      obtain ⟨rfl, rfl⟩ := ha.1.append_inj hb.1 h
      simp_all [Symbol.Clean]

theorem Symbol.chars_ne_nil {a : Symbol} (ha : a.Clean) : a.chars ≠ [] := by
  cases a with
  | char c => exact escapeChar_ne_nil c
  | void tag | opening tag | closing tag =>
    obtain ⟨⟨cs, htag, -⟩, -⟩ := ha
    rw [chars, htag]
    exact List.cons_ne_nil _ _

theorem flatMap_chars_inj {as bs : List Symbol} (has : ∀ a ∈ as, a.Clean)
    (hbs : ∀ b ∈ bs, b.Clean) :
    as.flatMap Symbol.chars = bs.flatMap Symbol.chars ↔ as = bs := by
  refine ⟨fun h => ?_, by rintro rfl; rfl⟩
  induction as generalizing bs with
  | nil =>
    cases bs with
    | nil => rfl
    | cons b bs =>
      rw [List.forall_mem_cons] at hbs
      simp [Symbol.chars_ne_nil hbs.1] at h
  | cons a as ih =>
    rw [List.forall_mem_cons] at has
    cases bs with
    | nil => simp [Symbol.chars_ne_nil has.1] at h
    | cons b bs =>
      rw [List.forall_mem_cons] at hbs
      rw [List.flatMap_cons, List.flatMap_cons] at h
      obtain ⟨rfl, hrest⟩ := has.1.append_inj hbs.1 h
      rw [ih has.2 hbs.2 hrest]

/-! ## Symbols of a tree -/

theorem clean_symbols {h : Html} (hclean : h.Clean) : ∀ a ∈ h.symbols, a.Clean := by
  have opening {tag : HtmlTag} (htag : tag.Plain) :
      IsTag tag.opening ∧ isEndTag tag.opening = false := by
    refine ⟨⟨_, tag.toList_opening, fun hmem => (htag.opening_inside _ hmem).1 rfl⟩, ?_⟩
    have hname := htag.startName?_opening
    cases hend : isEndTag tag.opening with
    | false => rfl
    | true =>
      rw [isEndTag, beq_iff_eq, tag.toList_opening, List.getElem?_cons_succ] at hend
      cases hcs : tag.name.toList with
      | cons c cs =>
        simp only [hcs, List.cons_append, List.getElem?_cons_zero, Option.some.injEq] at hend
        exact absurd (htag.isAlphanum (hcs ▸ List.mem_cons_self)) (hend ▸ by decide)
      | nil =>
        cases has : tag.attributes with
        | nil => simp [hcs, HtmlTag.attributeChars, has] at hend
        | cons a as => simp [hcs, HtmlTag.attributeChars, has] at hend
  induction h with
  | nothing => simp [symbols]
  | text s => simp [symbols, Symbol.Clean]
  | void tag =>
    obtain ⟨htag, hend⟩ := opening hclean.1
    simpa [symbols] using ⟨htag, hend, hclean.2⟩
  | element tag body ih =>
    obtain ⟨hplain, hpaired, hbody⟩ := hclean
    obtain ⟨htag, hend⟩ := opening hplain
    have hclosing : IsTag tag.closing :=
      ⟨_, tag.toList_closing, fun hmem => (hplain.closing_inside _ hmem).1 rfl⟩
    have hslash : isEndTag tag.closing = true := by simp [isEndTag, tag.toList_closing]
    simp only [symbols, List.forall_mem_cons, List.forall_mem_append]
    exact ⟨⟨htag, hend, hpaired⟩, ih hbody, ⟨hclosing, hslash⟩, by simp⟩
  | append first second ihfirst ihsecond =>
    rw [symbols, List.forall_mem_append]
    exact ⟨ihfirst hclean.1, ihsecond hclean.2⟩

/-- Trees are printed alike if they have the same symbols. -/
theorem render_inj {h h' : Html} (hclean : h.Clean) (hclean' : h'.Clean) :
    h.render = h'.render ↔ h.symbols = h'.symbols := by
  rw [← String.toList_inj, toList_render, toList_render,
    flatMap_chars_inj (clean_symbols hclean) (clean_symbols hclean')]

/-- How many elements are open after a symbol; none of those before is ended. -/
def depthAfter (depth : Nat) : Symbol → Option Nat
  | .opening _ => some (depth + 1)
  | .closing _ => if depth = 0 then none else some (depth - 1)
  | .char _ | .void _ => some depth

/-- A tree ends what it opens and nothing else. -/
theorem foldlM_depthAfter (h : Html) (depth : Nat) :
    h.symbols.foldlM depthAfter depth = some depth := by
  induction h generalizing depth with
  | nothing => rfl
  | text s =>
    rw [symbols]
    induction s.toList with
    | nil => rfl
    | cons c cs ih => exact ih
  | void tag => rfl
  | element tag body ih =>
    simp [symbols, List.foldlM_append, depthAfter, ih]
  | append first second ihfirst ihsecond => simp [symbols, List.foldlM_append, ihfirst, ihsecond]

/-- What is in an element ends at the first end tag of something before. -/
theorem symbols_append_closing_inj {h h' : Html} {tag tag' : String} {r r' : List Symbol} :
    h.symbols ++ .closing tag :: r = h'.symbols ++ .closing tag' :: r' ↔
      h.symbols = h'.symbols ∧ tag = tag' ∧ r = r' := by
  refine ⟨fun heq => ?_, by rintro ⟨heq, rfl, rfl⟩; rw [heq]⟩
  -- The longer of the two would go on behind that end tag.
  have ended {h h' : Html} {tag : String} {mid : List Symbol}
      (hh : h'.symbols = h.symbols ++ .closing tag :: mid) : False := by
    have hdepth := foldlM_depthAfter h' 0
    rw [hh, List.foldlM_append, foldlM_depthAfter] at hdepth
    cases hdepth
  rcases List.append_eq_append_iff.1 heq with ⟨mid, hh, hmid⟩ | ⟨mid, hh, hmid⟩
  · cases mid with
    | nil => simpa [hh] using hmid
    | cons a mid =>
      obtain ⟨rfl, -⟩ := List.cons.inj hmid
      exact (ended hh).elim
  · cases mid with
    | nil => simpa [hh, eq_comm] using hmid
    | cons a mid =>
      obtain ⟨rfl, -⟩ := List.cons.inj hmid
      exact (ended hh).elim

variable {tag : HtmlTag} {h h' : Html} {s s' : String} {r r' : List Symbol}

theorem symbols_element_append :
    (element tag h).symbols ++ r = (element tag h').symbols ++ r' ↔
      h.symbols = h'.symbols ∧ r = r' := by
  simp [symbols, symbols_append_closing_inj]

theorem symbols_element_inj :
    (element tag h).symbols = (element tag h').symbols ↔ h.symbols = h'.symbols := by
  simp [symbols]

theorem symbols_text_inj : (text s).symbols = (text s').symbols ↔ s = s' := by
  rw [symbols, symbols, List.map_inj_right fun _ _ => Symbol.char.inj, String.toList_inj]

theorem symbols_add (first second : Html) :
    (first ++ second).symbols = first.symbols ++ second.symbols := rfl

theorem symbols_text_add (s s' : String) :
    (text s ++ text s').symbols = (text (s ++ s')).symbols := by
  simp [symbols_add, symbols]

theorem symbols_join (pieces : List Html) :
    (join pieces).symbols = pieces.flatMap symbols := by
  induction pieces with
  | nil => rfl
  | cons h pieces ih =>
    rw [List.flatMap_cons, ← ih]
    rfl

theorem symbols_line_append :
    (line (element tag h)).symbols ++ r = (line (element tag h')).symbols ++ r' ↔
      h.symbols = h'.symbols ∧ r = r' := by
  simp [line, symbols_add, symbols_element_append]

theorem symbols_block_append :
    (block tag h).symbols ++ r = (block tag h').symbols ++ r' ↔
      h.symbols = h'.symbols ∧ r = r' := by
  simp [block, symbols_line_append, symbols_add]

theorem symbols_block_inj :
    (block tag h).symbols = (block tag h').symbols ↔ h.symbols = h'.symbols := by
  simpa using @symbols_block_append tag h h' [] []

end Html

end WaylandDoc
