import WaylandDoc.Page
import WaylandDoc.Proofs.Encoding

/-!
# The tags of a page

A page is printed and then cut into tags again, each from a `<` to the next `>`. What comes out are
the tags of the tree that was printed (`Html.tagsFrom_render`), so no string of a protocol adds one.
They are balanced, since an element of the tree has both its tags.
-/

namespace WaylandDoc

namespace Html

/-! ## Printing -/

theorem renderAfter_eq (printed : String) (h : Html) :
    renderAfter printed h = printed ++ h.render := by
  induction h generalizing printed with
  | nothing => simp [render, renderAfter]
  | text s => simp [render, renderAfter]
  | void tag => simp [render, renderAfter]
  | element tag body ih =>
    simp only [render, renderAfter]
    rw [ih, ih ("" ++ tag.opening)]
    simp only [String.append_assoc, String.empty_append]
  | append first second ihfirst ihsecond =>
    simp only [render, renderAfter]
    rw [ihsecond, ihfirst, ihsecond (renderAfter "" first), ← render, String.append_assoc]

theorem render_element (tag : HtmlTag) (body : Html) :
    (element tag body).render = tag.opening ++ body.render ++ tag.closing := by
  rw [render, renderAfter, renderAfter_eq, String.empty_append]

theorem render_append (first second : Html) :
    (append first second).render = first.render ++ second.render := by
  rw [render, renderAfter, renderAfter_eq, ← render]

@[simp] theorem render_text (s : String) : (text s).render = escape s := by
  rw [render, renderAfter, String.empty_append]

@[simp] theorem render_void (tag : HtmlTag) : (void tag).render = tag.opening := by
  rw [render, renderAfter, String.empty_append]

/-! ## Cutting -/

/-- The tags of a text, after the beginning of one or outside of all. -/
def tagsFrom : Option String → List Char → List String
  | none, [] => []
  | some tag, [] => [tag]
  | none, c :: cs => if c = '<' then tagsFrom (some "<") cs else tagsFrom none cs
  | some tag, c :: cs =>
    if c = '>' then tag.push '>' :: tagsFrom none cs else tagsFrom (some (tag.push c)) cs

/-- The tags of a page, each from a `<` to the next `>`. -/
def cutTags (page : String) : List String := tagsFrom none page.toList

theorem tagsFrom_text {cs : List Char} (h : '<' ∉ cs) (rest : List Char) :
    tagsFrom none (cs ++ rest) = tagsFrom none rest := by
  induction cs with
  | nil => rfl
  | cons c cs ih =>
    rw [List.mem_cons, not_or] at h
    rw [List.cons_append, tagsFrom, if_neg (Ne.symm h.1), ih h.2]

theorem tagsFrom_tag {cs : List Char} (h : '>' ∉ cs) (tag : String) (rest : List Char) :
    tagsFrom (some tag) (cs ++ '>' :: rest) =
      (tag ++ .ofList cs).push '>' :: tagsFrom none rest := by
  induction cs generalizing tag with
  | nil => simp [tagsFrom]
  | cons c cs ih =>
    rw [List.mem_cons, not_or] at h
    rw [List.cons_append, tagsFrom, if_neg (Ne.symm h.1), ih h.2, String.push_eq_append c,
      String.append_assoc, ← String.ofList_cons]

/-- A tag without a `>` inside is cut as it is. -/
theorem tagsFrom_none {tag : String} {cs : List Char} (htag : tag.toList = '<' :: (cs ++ ['>']))
    (h : '>' ∉ cs) (rest : List Char) :
    tagsFrom none (tag.toList ++ rest) = tag :: tagsFrom none rest := by
  have htag' : tag = ("<" ++ .ofList cs).push '>' := by
    rw [← String.toList_inj, htag]
    simp
  rw [htag, List.cons_append, List.append_assoc, tagsFrom, if_pos rfl, List.singleton_append,
    tagsFrom_tag h, ← htag']

/-! ## Balance -/

/-- The tags without a partner. -/
def unpaired : List String := ["<!DOCTYPE html>", "<meta charset=\"utf-8\">"]

/-- The name of the element that a tag starts: a word up to a blank or the end of the tag. -/
def startName? (tag : String) : Option String :=
  match tag.toList with
  | '<' :: rest =>
    let name := rest.takeWhile fun c => c != ' ' && c != '>'
    if name.all Char.isAlphanum && rest.getLast? == some '>' then some (.ofList name) else none
  | _ => none

/-- The open elements after a tag, innermost first. An end tag has to be that of the innermost. -/
def nest (opened : List String) (tag : String) : Option (List String) :=
  if tag ∈ unpaired then some opened
  else
    match startName? tag with
    | some name => some (name :: opened)
    | none =>
      match opened with
      | name :: outer => if tag = "</" ++ name ++ ">" then some outer else none
      | [] => none

/-- Every element is ended, and after all those inside of it. -/
def Balanced (tags : List String) : Prop := tags.foldlM nest [] = some []

instance (tags : List String) : Decidable (Balanced tags) :=
  inferInstanceAs (Decidable (tags.foldlM nest [] = some []))

example : Balanced ["<!DOCTYPE html>", "<p class=\"a\">", "<b>", "</b>", "</p>"] ∧
    ¬ Balanced ["<p>", "<b>", "</p>", "</b>"] ∧ ¬ Balanced ["<p>"] ∧ ¬ Balanced ["</p>"] := by
  decide

end Html

/-! ## Tags that are read as they are written -/

open Html (unpaired startName? nest tagsFrom tagsFrom_none)

/-- The name is a word, and nothing in the attributes ends the tag or is a reference. -/
structure HtmlTag.Plain (tag : HtmlTag) : Prop where
  name : tag.name.toList.all Char.isAlphanum
  attributes :
    tag.attributes.all fun a => (a.1.toList ++ a.2.toList).all fun c => c != '>' && c != '&'

namespace HtmlTag

variable {tag : HtmlTag}

/-- The attributes as they are printed. -/
def attributeChars (tag : HtmlTag) : List Char :=
  tag.attributes.flatMap fun a => ' ' :: (a.1.toList ++ '=' :: '"' :: (a.2.toList ++ ['"']))

theorem toList_opening (tag : HtmlTag) :
    tag.opening.toList = '<' :: (tag.name.toList ++ tag.attributeChars ++ ['>']) := by
  simp [opening, attributeChars, toString, List.flatMap_map]

theorem toList_closing (tag : HtmlTag) :
    tag.closing.toList = '<' :: ('/' :: tag.name.toList ++ ['>']) := by
  simp [closing]

theorem Plain.isAlphanum (h : tag.Plain) {c : Char} (hc : c ∈ tag.name.toList) : c.isAlphanum :=
  List.all_eq_true.1 h.name c hc

theorem Plain.notMem_attributeChars (h : tag.Plain) :
    ∀ c ∈ tag.attributeChars, c ≠ '>' ∧ c ≠ '&' := by
  intro c hc
  obtain ⟨a, ha, hc⟩ := List.mem_flatMap.1 hc
  have hmem : c ∈ a.1.toList ++ a.2.toList ∨ c = ' ' ∨ c = '=' ∨ c = '"' := by
    simp only [List.mem_cons, List.mem_append, List.not_mem_nil, or_false] at hc ⊢
    tauto
  rcases hmem with hmem | rfl | rfl | rfl
  · simpa using List.all_eq_true.1 (List.all_eq_true.1 h.attributes a ha) c hmem
  all_goals decide

theorem Plain.opening_inside (h : tag.Plain) :
    ∀ c ∈ tag.name.toList ++ tag.attributeChars, c ≠ '>' ∧ c ≠ '&' := by
  intro c hc
  rcases List.mem_append.1 hc with hc | hc
  · constructor <;> rintro rfl <;> exact absurd (h.isAlphanum hc) (by decide)
  · exact h.notMem_attributeChars c hc

theorem Plain.closing_inside (h : tag.Plain) :
    ∀ c ∈ '/' :: tag.name.toList, c ≠ '>' ∧ c ≠ '&' := by
  intro c hc
  rcases List.mem_cons.1 hc with rfl | hc
  · decide
  · constructor <;> rintro rfl <;> exact absurd (h.isAlphanum hc) (by decide)

theorem Plain.tagsFrom_opening (h : tag.Plain) (rest : List Char) :
    tagsFrom none (tag.opening.toList ++ rest) = tag.opening :: tagsFrom none rest :=
  tagsFrom_none tag.toList_opening (fun hmem => (h.opening_inside _ hmem).1 rfl) rest

theorem Plain.tagsFrom_closing (h : tag.Plain) (rest : List Char) :
    tagsFrom none (tag.closing.toList ++ rest) = tag.closing :: tagsFrom none rest :=
  tagsFrom_none tag.toList_closing (fun hmem => (h.closing_inside _ hmem).1 rfl) rest

theorem Plain.startName?_opening (h : tag.Plain) : startName? tag.opening = some tag.name := by
  have hname : ∀ c ∈ tag.name.toList, c != ' ' && c != '>' := by
    intro c hc
    by_contra hne
    have hc := h.isAlphanum hc
    rcases (by grind : c = ' ' ∨ c = '>') with rfl | rfl <;> exact absurd hc (by decide)
  have htake : (tag.name.toList ++ tag.attributeChars ++ ['>']).takeWhile
      (fun c => c != ' ' && c != '>') = tag.name.toList := by
    rw [List.append_assoc]
    cases has : tag.attributes with
    | nil =>
      rw [attributeChars, has]
      exact takeWhile_append_cons hname rfl
    | cons a as =>
      rw [attributeChars, has, List.flatMap_cons, List.cons_append, List.cons_append]
      exact takeWhile_append_cons hname rfl
  have hlast : (tag.name.toList ++ tag.attributeChars ++ ['>']).getLast? = some '>' := by simp
  simp only [startName?, tag.toList_opening, htake, hlast, h.name]
  simp

theorem startName?_closing (tag : HtmlTag) : startName? tag.closing = none := by
  simp [startName?, tag.toList_closing]

theorem Plain.nest_opening (h : tag.Plain) (hpaired : tag.opening ∉ unpaired)
    (opened : List String) : nest opened tag.opening = some (tag.name :: opened) := by
  simp only [nest, if_neg hpaired, h.startName?_opening]

theorem nest_closing (tag : HtmlTag) (opened : List String) :
    nest (tag.name :: opened) tag.closing = some opened := by
  have hpaired : tag.closing ∉ unpaired := by
    intro h
    have hsecond : tag.closing.toList[1]? = some '/' := by simp [tag.toList_closing]
    exact (by decide : ∀ t ∈ unpaired, t.toList[1]? ≠ some '/') _ h hsecond
  simp only [nest, if_neg hpaired, tag.startName?_closing]
  exact if_pos rfl

end HtmlTag

/-! ## Trees of such tags -/

namespace Html

/-- The tags of the tree in the order in which they are printed. -/
def tags : Html → List String
  | nothing | text _ => []
  | void tag => [tag.opening]
  | element tag body => tag.opening :: body.tags ++ [tag.closing]
  | append first second => first.tags ++ second.tags

/-- All tags are plain, and those without a partner are known. -/
def Clean : Html → Prop
  | nothing | text _ => True
  | void tag => tag.Plain ∧ tag.opening ∈ unpaired
  | element tag body => tag.Plain ∧ tag.opening ∉ unpaired ∧ body.Clean
  | append first second => first.Clean ∧ second.Clean

/-- Printing and cutting gives the tags of the tree, whatever its texts are. -/
theorem tagsFrom_render {h : Html} (hclean : h.Clean) (rest : List Char) :
    tagsFrom none (h.render.toList ++ rest) = h.tags ++ tagsFrom none rest := by
  induction h generalizing rest with
  | nothing => rfl
  | text s =>
    rw [render_text]
    exact tagsFrom_text (char_notMem_escape (e := .lt) nofun s) rest
  | void tag =>
    rw [render_void]
    exact hclean.1.tagsFrom_opening rest
  | element tag body ih =>
    obtain ⟨hplain, -, hbody⟩ := hclean
    rw [render_element, String.toList_append, String.toList_append, List.append_assoc,
      List.append_assoc, hplain.tagsFrom_opening, ih hbody, hplain.tagsFrom_closing]
    simp [tags]
  | append first second ihfirst ihsecond =>
    rw [render_append, String.toList_append, List.append_assoc, ihfirst hclean.1,
      ihsecond hclean.2, tags, List.append_assoc]

/-- A tree leaves no element open that it starts, and ends no other. -/
theorem nest_tags {h : Html} (hclean : h.Clean) (opened : List String) :
    h.tags.foldlM nest opened = some opened := by
  induction h generalizing opened with
  | nothing => rfl
  | text s => rfl
  | void tag =>
    simp [tags, nest, hclean.2]
  | element tag body ih =>
    obtain ⟨hplain, hpaired, hbody⟩ := hclean
    rw [tags, List.cons_append, List.foldlM_cons, hplain.nest_opening hpaired]
    simp [List.foldlM_append, ih hbody, tag.nest_closing]
  | append first second ihfirst ihsecond =>
    simp [tags, List.foldlM_append, ihfirst hclean.1, ihsecond hclean.2]

end Html

/-! ## References -/

/-- Every `&` begins a reference to a predefined entity. -/
def Referenced (cs : List Char) : Prop :=
  ∀ before after, cs = before ++ '&' :: after → ∃ e : Entity, e.reference <+: '&' :: after

theorem referenced_of_notMem {cs : List Char} (h : '&' ∉ cs) : Referenced cs := by
  rintro before after rfl
  simp at h

theorem Referenced.append {xs ys : List Char} (hxs : Referenced xs) (hys : Referenced ys) :
    Referenced (xs ++ ys) := by
  intro before after h
  rcases List.append_eq_append_iff.1 h with ⟨between, rfl, hy⟩ | ⟨between, hx, hy⟩
  · exact hys between after hy
  · cases between with
    | nil => exact hys [] after hy.symm
    | cons c between =>
      obtain ⟨rfl, rfl⟩ := List.cons.inj hy
      obtain ⟨e, he⟩ := hxs before between hx
      exact ⟨e, he.trans (List.prefix_append ..)⟩

theorem referenced_reference (e : Entity) : Referenced e.reference := by
  have hname : '&' ∉ e.name.toList ++ [';'] := by cases e <;> decide
  intro before after h
  rw [Entity.reference, List.cons_append, List.cons_eq_append_iff] at h
  rcases h with ⟨-, h⟩ | ⟨before', -, h⟩
  · exact ⟨e, by rw [h]; exact List.prefix_refl _⟩
  · exact absurd (by simp [h]) hname

theorem referenced_escapeChar (c : Char) : Referenced (escapeChar c) := by
  by_cases h : ∃ e : Entity, c = e.char
  · obtain ⟨e, rfl⟩ := h
    rw [escapeChar_of_entity]
    exact referenced_reference e
  · rw [not_exists] at h
    rw [escapeChar_of_ne h]
    refine referenced_of_notMem fun hmem => h .amp ?_
    exact (List.mem_singleton.1 hmem).symm

theorem referenced_escape (s : String) : Referenced (escape s).toList := by
  rw [escape, String.toList_ofList]
  induction s.toList with
  | nil => exact referenced_of_notMem (by simp)
  | cons c cs ih => exact (referenced_escapeChar c).append ih

theorem referenced_tag {tag : String} {cs : List Char} (htag : tag.toList = '<' :: (cs ++ ['>']))
    (h : '&' ∉ cs) : Referenced tag.toList := by
  rw [htag]
  exact referenced_of_notMem (by simpa using h)

theorem HtmlTag.Plain.referenced_opening {tag : HtmlTag} (h : tag.Plain) :
    Referenced tag.opening.toList :=
  referenced_tag tag.toList_opening fun hmem => (h.opening_inside _ hmem).2 rfl

theorem HtmlTag.Plain.referenced_closing {tag : HtmlTag} (h : tag.Plain) :
    Referenced tag.closing.toList :=
  referenced_tag tag.toList_closing fun hmem => (h.closing_inside _ hmem).2 rfl

theorem Html.referenced_render {h : Html} (hclean : h.Clean) : Referenced h.render.toList := by
  induction h with
  | nothing => exact referenced_of_notMem (by decide)
  | text s =>
    rw [render_text]
    exact referenced_escape s
  | void tag =>
    rw [render_void]
    exact hclean.1.referenced_opening
  | element tag body ih =>
    obtain ⟨hplain, -, hbody⟩ := hclean
    rw [render_element, String.toList_append, String.toList_append]
    exact (hplain.referenced_opening.append (ih hbody)).append hplain.referenced_closing
  | append first second ihfirst ihsecond =>
    rw [render_append, String.toList_append]
    exact (ihfirst hclean.1).append (ihsecond hclean.2)

/-! ## Pages -/

namespace Html

variable {h : Html} {tag : HtmlTag}

@[simp] theorem clean_append {first second : Html} :
    (first ++ second).Clean ↔ first.Clean ∧ second.Clean := .rfl

@[simp] theorem tags_append (first second : Html) :
    (first ++ second).tags = first.tags ++ second.tags := rfl

@[simp] theorem clean_join {pieces : List Html} : (join pieces).Clean ↔ ∀ h ∈ pieces, h.Clean := by
  induction pieces with
  | nil => simp [join, Clean]
  | cons h pieces ih => simp only [join, List.foldr_cons, Clean, List.forall_mem_cons, ← ih]

@[simp] theorem tags_join (pieces : List Html) : (join pieces).tags = pieces.flatMap tags := by
  induction pieces with
  | nil => rfl
  | cons h pieces ih => rw [List.flatMap_cons, ← ih]; rfl

@[simp] theorem clean_line : (line h).Clean ↔ h.Clean := by simp [line, newline, Clean]

@[simp] theorem tags_line (h : Html) : (line h).tags = h.tags := by simp [line, newline, tags]

@[simp] theorem clean_block :
    (block tag h).Clean ↔ tag.Plain ∧ tag.opening ∉ unpaired ∧ h.Clean := by
  simp [block, newline, Clean]

@[simp] theorem tags_block (tag : HtmlTag) (h : Html) :
    (block tag h).tags = tag.opening :: h.tags ++ [tag.closing] := by
  simp [block, newline, tags]

end Html

instance (tag : HtmlTag) : Decidable tag.Plain :=
  decidable_of_iff (tag.name.toList.all Char.isAlphanum ∧
    tag.attributes.all fun a => (a.1.toList ++ a.2.toList).all fun c => c != '>' && c != '&')
    ⟨fun h => ⟨h.1, h.2⟩, fun h => ⟨h.1, h.2⟩⟩

namespace Page

open Html

theorem clean_labelled (label value : String) : (labelled label value).Clean := by
  simp +decide [labelled, row, cell, Clean]

theorem clean_descriptionRows (d : Description) : (descriptionRows d).Clean := by
  simp [descriptionRows, clean_labelled]

theorem clean_title (content : String) : (title content).Clean := by
  simp +decide [title, row, Clean]

theorem clean_ifGiven {α : Type} {value : Option α} {piece : α → Html}
    (h : ∀ x, (piece x).Clean) : (ifGiven value piece).Clean := by
  cases value with
  | none => trivial
  | some x => exact h x

theorem clean_ifSo {condition : Bool} {piece : Html} (h : piece.Clean) :
    (ifSo condition piece).Clean := by
  cases condition
  · trivial
  · exact h

theorem clean_innerTable {cls : String} {columns : List String} {rows : List Html}
    (hplain : (classed "table" cls).Plain) (hpaired : (classed "table" cls).opening ∉ unpaired)
    (h : ∀ r ∈ rows, r.Clean) : (innerTable cls columns rows).Clean := by
  unfold innerTable
  split
  · trivial
  · have hnewline : Html.newline.Clean := trivial
    simpa +decide [row, heading, Clean, hplain, hpaired, hnewline] using h

theorem clean_part {name : String} {pieces : List Html} (h : ∀ r ∈ pieces, r.Clean) :
    (part name pieces).Clean := by
  unfold part
  split
  · trivial
  · simpa +decide [Clean] using h

theorem clean_ofEntry (n : Entry) : (ofEntry n).Clean := by
  simp +decide [ofEntry, cell, Clean]

theorem clean_ofEnum (e : Enum) : (ofEnum e).Clean := by
  have hentries : (innerTable "entries" ["Name", "Value", "Summary"]
      (e.entries.map ofEntry)).Clean :=
    clean_innerTable (by decide) (by decide) (by simp [clean_ofEntry])
  simp +decide [ofEnum, clean_title, clean_ifGiven, clean_labelled, clean_descriptionRows, hentries]

theorem clean_ofArg (a : Arg) : (ofArg a).Clean := by
  simp +decide [ofArg, cell, Clean, clean_ifGiven]

theorem clean_ofMessage (kind : MessageKind) (m : Message) : (ofMessage kind m).Clean := by
  have hargs : (innerTable "args" ["Name", "Type", "Nullable", "Interface"]
      (m.args.map ofArg)).Clean :=
    clean_innerTable (by decide) (by decide) (by simp [clean_ofArg])
  simp +decide [ofMessage, clean_title, clean_ifGiven, clean_ifSo, clean_labelled,
    clean_descriptionRows, hargs]

theorem clean_ofInterface (x : Interface) : (ofInterface x).Clean := by
  have henums : (part "Enumerations" (x.enums.map ofEnum)).Clean :=
    clean_part (by simp [clean_ofEnum])
  have hmessages (name : String) (kind : MessageKind) (l : List Message) :
      (part name (l.map (ofMessage kind))).Clean :=
    clean_part (by simp [clean_ofMessage])
  cases hd : x.description <;>
    simp +decide [ofInterface, hd, Clean, clean_labelled, clean_descriptionRows, henums, hmessages]

theorem clean_body (p : Protocol) : (body p).Clean := by
  have hcopyright (s : String) : (part "Copyright" [line (element ⟨"pre", []⟩ (text s))]).Clean :=
    clean_part (by simp +decide [Clean])
  simp +decide [body, Clean, clean_ifGiven, clean_descriptionRows, clean_ofInterface, hcopyright]

theorem clean_ofProtocol (p : Protocol) : (ofProtocol p).Clean := by
  simp +decide [ofProtocol, Clean, clean_body]

end Page

/-! ## Strings -/

def Description.shape (_ : Description) : Description := ⟨"", ""⟩

def Arg.shape (a : Arg) : Arg :=
  { a with
    name := ""
    interface := a.interface.map fun _ => ""
    enum := a.enum.map fun _ => ""
    summary := a.summary.map fun _ => ""
    description := a.description.map Description.shape }

def Message.shape (m : Message) : Message :=
  { m with
    name := "", uppercaseName := ""
    args := m.args.map Arg.shape
    description := m.description.map Description.shape }

def Entry.shape (n : Entry) : Entry :=
  { n with
    name := "", uppercaseName := "", value := ""
    summary := n.summary.map fun _ => ""
    description := n.description.map Description.shape }

def Enum.shape (e : Enum) : Enum :=
  { e with
    name := "", uppercaseName := ""
    description := e.description.map Description.shape
    entries := e.entries.map Entry.shape }

def Interface.shape (x : Interface) : Interface :=
  { x with
    name := "", uppercaseName := ""
    description := x.description.map Description.shape
    requests := x.requests.map Message.shape
    events := x.events.map Message.shape
    enums := x.enums.map Enum.shape }

/-- The tree with all its strings empty. -/
def Protocol.shape (p : Protocol) : Protocol :=
  { p with
    name := "", uppercaseName := ""
    copyright := p.copyright.map fun _ => ""
    description := p.description.map Description.shape
    interfaces := p.interfaces.map Interface.shape }

namespace Page

open Html

section Lists

variable {rows rows' : List Html} (h : rows.map tags = rows'.map tags)
include h

theorem isEmpty_congr : rows.isEmpty = rows'.isEmpty := by
  simpa using congrArg List.isEmpty h

theorem flatMap_tags_congr : rows.flatMap tags = rows'.flatMap tags := by
  rw [List.flatMap_def, h, ← List.flatMap_def]

theorem tags_innerTable_congr (cls : String) (columns : List String) :
    (innerTable cls columns rows).tags = (innerTable cls columns rows').tags := by
  unfold innerTable
  rw [isEmpty_congr h]
  split
  · rfl
  · simp [row, tags, flatMap_tags_congr h]

theorem tags_part_congr (name : String) : (part name rows).tags = (part name rows').tags := by
  unfold part
  rw [isEmpty_congr h]
  split
  · rfl
  · simp [tags, flatMap_tags_congr h]

end Lists

/-- The pieces of a list have the tags that those of the empty strings have. -/
theorem map_tags_shape {α : Type} {shape : α → α} {piece : α → Html}
    (h : ∀ x, (piece (shape x)).tags = (piece x).tags) (l : List α) :
    ((l.map shape).map piece).map tags = (l.map piece).map tags := by
  simp [h, Function.comp_def]

theorem tags_labelled (label value value' : String) :
    (labelled label value).tags = (labelled label value').tags := by
  simp [labelled, row, cell, tags]

theorem tags_descriptionRows_shape (d : Description) :
    (descriptionRows d.shape).tags = (descriptionRows d).tags := by
  rw [descriptionRows, descriptionRows, tags_append, tags_append,
    tags_labelled "Summary" _ d.summary, tags_labelled "Description" _ (trim d.body)]

theorem tags_descriptions_shape (d : Option Description) :
    (ifGiven (d.map Description.shape) descriptionRows).tags =
      (ifGiven d descriptionRows).tags := by
  cases d with
  | none => rfl
  | some d => exact tags_descriptionRows_shape d

theorem tags_ofEntry_shape (n : Entry) : (ofEntry n.shape).tags = (ofEntry n).tags := rfl

theorem tags_ofEnum_shape (e : Enum) : (ofEnum e.shape).tags = (ofEnum e).tags := by
  have hentries := tags_innerTable_congr (map_tags_shape tags_ofEntry_shape e.entries) "entries"
    ["Name", "Value", "Summary"]
  have htitle (name : String) : (title name).tags = (title "").tags := rfl
  simp only [ofEnum, Enum.shape, tags_block, tags_join, List.flatMap_cons, List.flatMap_nil,
    htitle (_ ++ _), tags_descriptions_shape, hentries]

theorem tags_ofArg_shape (a : Arg) : (ofArg a.shape).tags = (ofArg a).tags := by
  obtain ⟨name, type, nullable, interface, enum, summary, description⟩ := a
  cases summary <;> cases description <;> rfl

theorem tags_ofMessage_shape (kind : MessageKind) (m : Message) :
    (ofMessage kind m.shape).tags = (ofMessage kind m).tags := by
  have hargs := tags_innerTable_congr (map_tags_shape tags_ofArg_shape m.args) "args"
    ["Name", "Type", "Nullable", "Interface"]
  have htitle (name : String) : (title name).tags = (title "").tags := rfl
  simp only [ofMessage, Message.shape, tags_block, tags_join, List.flatMap_cons, List.flatMap_nil,
    htitle (_ ++ _), tags_descriptions_shape, hargs]

theorem tags_ofInterface_shape (x : Interface) :
    (ofInterface x.shape).tags = (ofInterface x).tags := by
  have henums := tags_part_congr (map_tags_shape tags_ofEnum_shape x.enums) "Enumerations"
  have hmessages (name : String) (kind : MessageKind) (l : List Message) :=
    tags_part_congr (map_tags_shape (tags_ofMessage_shape kind) l) name
  cases hd : x.description <;>
    simp [ofInterface, Interface.shape, tags, hd, henums, hmessages, tags_descriptionRows_shape,
      -List.map_map]

theorem tags_ofProtocol_shape (p : Protocol) :
    (ofProtocol p.shape).tags = (ofProtocol p).tags := by
  have hinterfaces := flatMap_tags_congr (map_tags_shape tags_ofInterface_shape p.interfaces)
  cases hd : p.description <;> cases hc : p.copyright <;>
    simp [ofProtocol, body, Protocol.shape, tags, hd, hc, hinterfaces, ifGiven, part,
      tags_descriptionRows_shape, -List.map_map]

end Page

/-! ## The page of a protocol -/

namespace Protocol

open Html (cutTags unpaired nest nest_tags tagsFrom tagsFrom_none tagsFrom_render)

theorem toList_toHtml (p : Protocol) : p.toHtml.toList =
    "<!DOCTYPE html>".toList ++ '\n' :: (Page.ofProtocol p).render.toList := by
  have hline : "<!DOCTYPE html>\n".toList = "<!DOCTYPE html>".toList ++ ['\n'] := by decide
  calc
    p.toHtml.toList = "<!DOCTYPE html>\n".toList ++ (Page.ofProtocol p).render.toList :=
      String.toList_append
    _ = "<!DOCTYPE html>".toList ++ ['\n'] ++ (Page.ofProtocol p).render.toList := by rw [hline]
    _ = _ := List.append_assoc ..

theorem cutTags_toHtml (p : Protocol) :
    cutTags p.toHtml = "<!DOCTYPE html>" :: (Page.ofProtocol p).tags := by
  have hdoctype : "<!DOCTYPE html>".toList = '<' :: ("!DOCTYPE html".toList ++ ['>']) := by decide
  have hrender := tagsFrom_render (Page.clean_ofProtocol p) []
  rw [List.append_nil] at hrender
  rw [cutTags, toList_toHtml, tagsFrom_none hdoctype (by decide)]
  simp [tagsFrom, hrender]

/-- Whatever the strings of a protocol are, the tags of its page are balanced, apart from those that
have no partner; every `&` begins a reference to a predefined entity; and a protocol that differs in
its strings alone has the same tags. -/
theorem tags_toHtml (p : Protocol) :
    Html.Balanced (cutTags p.toHtml) ∧ Referenced p.toHtml.toList ∧
      ∀ q : Protocol, q.shape = p.shape → cutTags q.toHtml = cutTags p.toHtml := by
  have hclean := Page.clean_ofProtocol p
  refine ⟨?_, ?_, fun q hq => ?_⟩
  · have hdoctype : nest [] "<!DOCTYPE html>" = some [] := if_pos (by simp [unpaired])
    simp only [cutTags_toHtml, Html.Balanced, List.foldlM_cons, hdoctype, Option.bind_eq_bind,
      Option.bind_some, nest_tags hclean]
  · have hdoctype : Referenced ("<!DOCTYPE html>".toList ++ ['\n']) :=
      referenced_of_notMem (by decide)
    rw [toList_toHtml, ← List.singleton_append, ← List.append_assoc]
    exact hdoctype.append (Html.referenced_render hclean)
  · have htags : (Page.ofProtocol q).tags = (Page.ofProtocol p).tags := by
      rw [← Page.tags_ofProtocol_shape q, hq, Page.tags_ofProtocol_shape]
    rw [cutTags_toHtml, cutTags_toHtml, htags]

/-- A protocol with markup in its names and one without have the same tags. -/
theorem tags_toHtml_of_markup :
    let enum (name : String) : Enum := { name, uppercaseName := "", bitfield := true }
    let protocol (name : String) : Protocol := {
      name, uppercaseName := name, copyright := name
      interfaces := [{ name, uppercaseName := name, version := 1, enums := [enum name] }] }
    cutTags (protocol "</title><b>&quot;").toHtml = cutTags (protocol "p").toHtml := by
  intro enum protocol
  exact (tags_toHtml (protocol "p")).2.2 (protocol "</title><b>&quot;") rfl

end Protocol

end WaylandDoc
