import WaylandDoc.Proofs.Numerals
import WaylandDoc.Proofs.PageSymbols

/-!
# The content of a page

A page shows a part of the tree (`Protocol.Displays`) and determines it: two protocols have the same
page if and only if it shows the same of both (`Protocol.toHtml_eq_iff`). What is shown is said
without the functions that print it; `content` computes it with them. Rows and blocks that may be
missing begin with a label of their own (`Shows`), so it can be told where each of them is.
-/

namespace WaylandDoc

/-! ## What is shown -/

@[ext]
structure EntryContent where
  name : String
  value : String
  text : String
  deriving DecidableEq, Repr

@[ext]
structure EnumContent where
  header : String
  since : Option UInt32
  description : Option Description
  entries : List EntryContent
  deriving DecidableEq, Repr

@[ext]
structure ArgContent where
  name : String
  cType : String
  enum : Option String
  nullability : String
  interface : String
  summary : Option String
  deriving DecidableEq, Repr

@[ext]
structure MessageContent where
  name : String
  destructor : Bool
  since : UInt32
  deprecatedSince : Option UInt32
  description : Option Description
  args : List ArgContent
  deriving DecidableEq, Repr

@[ext]
structure InterfaceContent where
  name : String
  version : UInt32
  description : Description
  enums : List EnumContent
  requests : List MessageContent
  events : List MessageContent
  deriving DecidableEq, Repr

@[ext]
structure ProtocolContent where
  name : String
  copyright : Option String
  description : Option Description
  interfaces : List InterfaceContent
  deriving DecidableEq, Repr

/-- The version of an entry, if it is not the first. -/
def sinceSuffix : Option UInt32 → String
  | some since => if since = 1 then "" else s!" (since {since})"
  | none => ""

/-- The body is shown without the white space at its ends. -/
@[mk_iff]
structure Description.Displays (d c : Description) : Prop where
  summary : c.summary = d.summary
  body : IsTrimmed d.body c.body

/-- The text is the own summary or else that of the description, and the version. -/
@[mk_iff]
structure Entry.Displays (n : Entry) (c : EntryContent) : Prop where
  name : c.name = n.name
  value : c.value = n.value
  text : c.text =
    (n.summary.or (n.description.map Description.summary)).getD "" ++ sinceSuffix n.since

@[mk_iff]
structure Enum.Displays (e : Enum) (c : EnumContent) : Prop where
  header : c.header = e.name ++ if e.bitfield then " (bitfield)" else ""
  since : c.since = e.since
  description : Option.Rel Description.Displays e.description c.description
  entries : List.Forall₂ Entry.Displays e.entries c.entries

@[mk_iff]
structure Arg.Displays (a : Arg) (c : ArgContent) : Prop where
  name : c.name = a.name
  cType : a.type.HasCType c.cType
  enum : c.enum = a.enum
  nullability : Page.Nullability a c.nullability
  interface : c.interface = a.interface.getD ""
  summary : c.summary = a.summary.or (a.description.map Description.summary)

@[mk_iff]
structure Message.Displays (m : Message) (c : MessageContent) : Prop where
  name : c.name = m.name
  destructor : c.destructor = m.destructor
  since : c.since = m.since
  deprecatedSince : c.deprecatedSince = m.deprecatedSince
  description : Option.Rel Description.Displays m.description c.description
  args : List.Forall₂ Arg.Displays m.args c.args

/-- An interface without a description is shown like one with `NONE` in it. -/
@[mk_iff]
structure Interface.Displays (x : Interface) (c : InterfaceContent) : Prop where
  name : c.name = x.name
  version : c.version = x.version
  description : (x.description.getD ⟨"NONE", "NONE"⟩).Displays c.description
  enums : List.Forall₂ Enum.Displays x.enums c.enums
  requests : List.Forall₂ Message.Displays x.requests c.requests
  events : List.Forall₂ Message.Displays x.events c.events

/-- The part of the tree that its page shows. -/
@[mk_iff]
structure Protocol.Displays (p : Protocol) (c : ProtocolContent) : Prop where
  name : c.name = p.name
  copyright : Option.Rel IsTrimmed p.copyright c.copyright
  description : Option.Rel Description.Displays p.description c.description
  interfaces : List.Forall₂ Interface.Displays p.interfaces c.interfaces

/-! ## The content of a tree -/

/-- The description without the white space around its body. -/
def Description.trimmed (d : Description) : Description := { d with body := trim d.body }

def Entry.content (n : Entry) : EntryContent where
  name := n.name
  value := n.value
  text := (n.summary.or (n.description.map Description.summary)).getD "" ++ sinceSuffix n.since

def Enum.content (e : Enum) : EnumContent where
  header := e.name ++ if e.bitfield then " (bitfield)" else ""
  since := e.since
  description := e.description.map Description.trimmed
  entries := e.entries.map Entry.content

def Arg.content (a : Arg) : ArgContent where
  name := a.name
  cType := a.type.cType
  enum := a.enum
  nullability := Page.nullability a
  interface := a.interface.getD ""
  summary := a.summary.or (a.description.map Description.summary)

def Message.content (m : Message) : MessageContent where
  name := m.name
  destructor := m.destructor
  since := m.since
  deprecatedSince := m.deprecatedSince
  description := m.description.map Description.trimmed
  args := m.args.map Arg.content

def Interface.content (x : Interface) : InterfaceContent where
  name := x.name
  version := x.version
  description := (x.description.getD ⟨"NONE", "NONE"⟩).trimmed
  enums := x.enums.map Enum.content
  requests := x.requests.map Message.content
  events := x.events.map Message.content

def Protocol.content (p : Protocol) : ProtocolContent where
  name := p.name
  copyright := p.copyright.map trim
  description := p.description.map Description.trimmed
  interfaces := p.interfaces.map Interface.content

section Displays

variable {α κ : Type} {R : α → κ → Prop} {key : α → κ}

theorem forall₂_iff_eq_map (h : ∀ x k, R x k ↔ k = key x) {l : List α} {ks : List κ} :
    List.Forall₂ R l ks ↔ ks = l.map key := by
  have hR : R = fun x k => key x = k := by
    ext x k
    rw [h, eq_comm]
  rw [hR, ← List.forall₂_map_left_iff, List.forall₂_eq_eq_eq, eq_comm]

theorem optionRel_iff_eq_map (h : ∀ x k, R x k ↔ k = key x) {o : Option α} {ok : Option κ} :
    Option.Rel R o ok ↔ ok = o.map key := by
  cases o <;> cases ok <;> simp [h]

theorem Description.displays_iff_eq (d c : Description) : d.Displays c ↔ c = d.trimmed := by
  rw [displays_iff, isTrimmed_iff, trimmed, Description.mk.injEq]

theorem Entry.displays_iff_eq (n : Entry) (c : EntryContent) :
    n.Displays c ↔ c = n.content := by
  rw [displays_iff, EntryContent.ext_iff, content]

theorem Enum.displays_iff_eq (e : Enum) (c : EnumContent) : e.Displays c ↔ c = e.content := by
  rw [displays_iff, EnumContent.ext_iff, content,
    optionRel_iff_eq_map Description.displays_iff_eq, forall₂_iff_eq_map Entry.displays_iff_eq]

theorem Arg.displays_iff_eq (a : Arg) (c : ArgContent) : a.Displays c ↔ c = a.content := by
  rw [displays_iff, ArgContent.ext_iff, content, ArgType.hasCType_iff, Page.nullability_iff]

theorem Message.displays_iff_eq (m : Message) (c : MessageContent) :
    m.Displays c ↔ c = m.content := by
  rw [displays_iff, MessageContent.ext_iff, content,
    optionRel_iff_eq_map Description.displays_iff_eq, forall₂_iff_eq_map Arg.displays_iff_eq]

theorem Interface.displays_iff_eq (x : Interface) (c : InterfaceContent) :
    x.Displays c ↔ c = x.content := by
  rw [displays_iff, InterfaceContent.ext_iff, content, Description.displays_iff_eq,
    forall₂_iff_eq_map Enum.displays_iff_eq, forall₂_iff_eq_map Message.displays_iff_eq,
    forall₂_iff_eq_map Message.displays_iff_eq]

/-- A tree has one content. -/
theorem Protocol.displays_iff_eq (p : Protocol) (c : ProtocolContent) :
    p.Displays c ↔ c = p.content := by
  rw [displays_iff, ProtocolContent.ext_iff, content, optionRel_iff_eq_map @isTrimmed_iff,
    optionRel_iff_eq_map Description.displays_iff_eq, forall₂_iff_eq_map Interface.displays_iff_eq]

end Displays

/-! ## Texts with two parts -/

theorem toString_inj {v v' : UInt32} : toString v = toString v' ↔ v = v' := by
  refine ⟨fun h => ?_, congrArg toString⟩
  have hv := Numeral.read_decimal_eq_ok.2 (Numeral.denotes_toString v)
  have hv' := Numeral.read_decimal_eq_ok.2 (Numeral.denotes_toString v')
  exact Except.ok.inj (hv.symm.trans ((congrArg (Numeral.read .decimal) h).trans hv'))

theorem space_notMem_toString (v : UInt32) : ' ' ∉ (toString v).toList := by
  intro h
  change ' ' ∈ (toString v.toNat).toList at h
  rw [Nat.toString_eq_ofList_toDigits, String.toList_ofList] at h
  exact absurd (Nat.isDigit_of_mem_toDigits (by decide) (by decide) h) (by decide)

/-- The version is behind the last space, whatever the name is. -/
theorem name_version_inj {name name' : String} {v v' : UInt32} :
    name ++ " Version " ++ toString v = name' ++ " Version " ++ toString v' ↔
      name = name' ∧ v = v' := by
  refine ⟨fun h => ?_, by rintro ⟨rfl, rfl⟩; rfl⟩
  have hlabel : " Version ".toList = " Version".toList ++ [' '] := by decide
  have hlist := congrArg (List.reverse ∘ String.toList) h
  simp only [Function.comp, String.toList_append, hlabel, List.reverse_append, List.append_assoc,
    List.reverse_cons, List.nil_append, List.cons_append] at hlist
  obtain ⟨hversion, hname⟩ := (append_cons_inj
    (fun hmem => space_notMem_toString v (List.mem_reverse.1 hmem))
    (fun hmem => space_notMem_toString v' (List.mem_reverse.1 hmem))).1 hlist
  rw [List.append_cancel_left_eq, List.reverse_inj, String.toList_inj] at hname
  rw [List.reverse_inj, String.toList_inj, toString_inj] at hversion
  exact ⟨hname, hversion⟩

/-- The C types differ in their first characters. -/
theorem cType_append_inj {a b : ArgType} {s s' : String} :
    a.cType ++ s = b.cType ++ s' ↔ a.cType = b.cType ∧ s = s' := by
  refine ⟨fun h => ?_, by rintro ⟨heq, rfl⟩; rw [heq]⟩
  have hhead : ∀ a b : ArgType, a.cType.toList.head? = b.cType.toList.head? →
      a.cType = b.cType := by
    intro a b
    cases a <;> cases b <;> decide
  have hne (a : ArgType) : a.cType.toList ≠ [] := by cases a <;> decide
  have hlist := congrArg (List.head? ∘ String.toList) h
  simp only [Function.comp, String.toList_append, List.head?_append_of_ne_nil _ (hne _)] at hlist
  have htype := hhead a b hlist
  rw [htype, String.append_right_inj] at h
  exact ⟨htype, h⟩

namespace Page

open Html

/-! ## Pieces with a label -/

/-- What is printed for a value begins with `lead` and shows `key` of the value and no more. Where
it ends can be told if what follows fulfils `Stop`. -/
structure Shows {α κ : Type} (piece : α → Html) (key : α → κ) (lead : List Symbol)
    (Stop : List Symbol → Prop) : Prop where
  leads : ∀ x, lead <+: (piece x).symbols
  append_iff : ∀ x y {r r' : List Symbol}, Stop r → Stop r' →
    ((piece x).symbols ++ r = (piece y).symbols ++ r' ↔ key x = key y ∧ r = r')

/-- Nothing begins with both. -/
def Apart (lead lead' : List Symbol) : Prop := ¬ lead <+: lead' ∧ ¬ lead' <+: lead

instance (lead lead' : List Symbol) : Decidable (Apart lead lead') :=
  inferInstanceAs (Decidable (_ ∧ _))

/-- What follows does not begin with `lead`. -/
def Avoids (lead r : List Symbol) : Prop := ¬ lead <+: r

section Shows

variable {α κ : Type} {piece : α → Html} {key : α → κ} {lead lead' : List Symbol}
  {Stop : List Symbol → Prop} {r r' : List Symbol}

theorem avoids_nil (h : lead ≠ []) : Avoids lead [] := fun hprefix =>
  h (List.prefix_nil.1 hprefix)

theorem Apart.avoids (h : Apart lead lead') {l : List Symbol} (hl : lead' <+: l)
    (r : List Symbol) : Avoids lead (l ++ r) := fun hprefix =>
  (List.prefix_or_prefix_of_prefix hprefix (hl.trans (List.prefix_append l r))).elim h.1 h.2

namespace Shows

theorem avoids (hs : Shows piece key lead' Stop) (h : Apart lead lead') (x : α)
    (r : List Symbol) : Avoids lead ((piece x).symbols ++ r) := h.avoids (hs.leads x) r

/-- Something begins with `lead`, so it is there. -/
theorem append_ne (hs : Shows piece key lead Stop) (hr : Avoids lead r) (x : α)
    (r' : List Symbol) : r ≠ (piece x).symbols ++ r' := fun h =>
  hr (h ▸ (hs.leads x).trans (List.prefix_append ..))

theorem ifGiven_append (hs : Shows piece key lead Stop) (hr : Avoids lead r) (hr' : Avoids lead r')
    (hstop : Stop r) (hstop' : Stop r') (o o' : Option α) :
    (ifGiven o piece).symbols ++ r = (ifGiven o' piece).symbols ++ r' ↔
      o.map key = o'.map key ∧ r = r' := by
  cases o with
  | none =>
    cases o' with
    | none => simp [ifGiven, symbols]
    | some x => simpa [ifGiven, symbols] using hs.append_ne hr x r'
  | some x =>
    cases o' with
    | none => simpa [ifGiven, symbols] using (hs.append_ne hr' x r).symm
    | some y => simpa [ifGiven] using hs.append_iff x y hstop hstop'

theorem join_append (hs : Shows piece key lead Stop)
    (hnext : ∀ x r, Stop ((piece x).symbols ++ r)) (hr : Avoids lead r) (hr' : Avoids lead r')
    (hstop : Stop r) (hstop' : Stop r') (l l' : List α) :
    (join (l.map piece)).symbols ++ r = (join (l'.map piece)).symbols ++ r' ↔
      l.map key = l'.map key ∧ r = r' := by
  have stop {r : List Symbol} (hr : Stop r) (l : List α) :
      Stop ((join (l.map piece)).symbols ++ r) := by
    cases l with
    | nil => exact hr
    | cons x l =>
      rw [List.map_cons, symbols_join, List.flatMap_cons, List.append_assoc]
      exact hnext x _
  have cons (x : α) (l : List α) (r : List Symbol) :
      (join ((x :: l).map piece)).symbols ++ r =
        (piece x).symbols ++ ((join (l.map piece)).symbols ++ r) := by
    rw [List.map_cons, symbols_join, symbols_join, List.flatMap_cons, List.append_assoc]
  -- Where one list ends and the other goes on, one side begins with `lead` and the other does not.
  induction l generalizing l' with
  | nil =>
    cases l' with
    | nil => simp [join, symbols]
    | cons y l' =>
      rw [cons]
      simpa [join, symbols] using hs.append_ne hr y _
  | cons x l ih =>
    cases l' with
    | nil =>
      rw [cons]
      simpa [join, symbols] using (hs.append_ne hr' x _).symm
    | cons y l' =>
      rw [cons, cons, hs.append_iff x y (stop hstop l) (stop hstop' l')]
      simp [ih l', and_assoc]

theorem inj (hs : Shows piece key lead Stop) (hstop : Stop []) (x y : α) :
    (piece x).symbols = (piece y).symbols ↔ key x = key y := by
  simpa using hs.append_iff x y hstop hstop

end Shows

/-! ## Pieces that may be missing -/

/-- The last pieces of an element: `out` gives their symbols, which show `key` and no more. What is
there begins with one of `leads`. -/
structure Tail {σ κ : Type} (out : σ → List Symbol) (key : σ → κ) (leads : List (List Symbol)) :
    Prop where
  avoids : ∀ lead ≠ [], (∀ l ∈ leads, Apart lead l) → ∀ x, Avoids lead (out x)
  inj : ∀ x y, out x = out y ↔ key x = key y

namespace Tail

variable {σ τ : Type} {out : σ → List Symbol} {rest : σ → τ} {leads : List (List Symbol)}

theorem nil : Tail (fun _ : σ => []) (fun _ => ()) [] where
  avoids _ hlead _ _ := avoids_nil hlead
  inj _ _ := by simp

/-- One more piece, with a label that none of those behind it has. -/
theorem ifGiven (ht : Tail out rest leads) (hs : Shows piece key lead Stop)
    (field : σ → Option α) (hstop : ∀ x, Stop (out x)) (hlead : lead ≠ [])
    (hapart : ∀ l ∈ leads, Apart lead l) :
    Tail (fun x => (ifGiven (field x) piece).symbols ++ out x)
      (fun x => ((field x).map key, rest x)) (lead :: leads) where
  avoids lead' hlead' hapart' x := by
    rw [List.forall_mem_cons] at hapart'
    cases field x with
    | none => exact ht.avoids lead' hlead' hapart'.2 x
    | some y => exact hapart'.1.avoids (hs.leads y) _
  inj x y := by
    have hx := ht.avoids lead hlead hapart x
    have hy := ht.avoids lead hlead hapart y
    rw [hs.ifGiven_append hx hy (hstop x) (hstop y), ht.inj, Prod.mk.injEq]

/-- A list at the end. -/
theorem join (hs : Shows piece key lead Stop) (hnext : ∀ x r, Stop ((piece x).symbols ++ r))
    (hstop : Stop []) (hlead : lead ≠ []) (field : σ → List α) :
    Tail (fun x => (Html.join ((field x).map piece)).symbols) (fun x => (field x).map key)
      [lead] where
  avoids lead' hlead' hapart x := by
    cases field x with
    | nil => exact avoids_nil hlead'
    | cons y l => exact (hapart lead (List.mem_singleton.2 rfl)).avoids (hs.leads y) _
  inj x y := by
    simpa using hs.join_append hnext (avoids_nil hlead) (avoids_nil hlead) hstop hstop (field x)
      (field y)

end Tail

end Shows

/-! ## Rows -/

/-- What a row with the label begins with. -/
def labelLead (label : String) : List Symbol :=
  .opening (HtmlTag.opening ⟨"tr", []⟩) :: .opening (classed "td" "label").opening ::
    (label.toList.map .char ++ [.closing (classed "td" "label").closing])

theorem shows_labelled (label : String) :
    Shows (labelled label) id (labelLead label) fun _ => True where
  leads value := by
    simp [labelled, line, row, labelLead, symbols_add, symbols_join, symbols]
  append_iff value value' r r' _ _ := by
    simp [labelled, row, cell, symbols_line_append, symbols_join, symbols_element_inj,
      symbols_text_inj]

theorem shows_number (label : String) :
    Shows (fun v : UInt32 => labelled label (toString v)) id (labelLead label) fun _ => True where
  leads v := (shows_labelled label).leads (toString v)
  append_iff v v' r r' h h' := by
    rw [(shows_labelled label).append_iff _ _ h h', id, id, id, id, toString_inj]

theorem shows_descriptionRows :
    Shows descriptionRows Description.trimmed (labelLead "Summary") fun _ => True where
  leads d := by
    rw [descriptionRows, symbols_add]
    exact ((shows_labelled "Summary").leads d.summary).trans (List.prefix_append ..)
  append_iff d d' r r' h h' := by
    rw [descriptionRows, descriptionRows, symbols_add, symbols_add, List.append_assoc,
      List.append_assoc, (shows_labelled "Summary").append_iff _ _ trivial trivial,
      (shows_labelled "Description").append_iff _ _ h h']
    simp [Description.trimmed, and_assoc]

theorem symbols_title_append {t t' : String} {r r' : List Symbol} :
    (title t).symbols ++ r = (title t').symbols ++ r' ↔ t = t' ∧ r = r' := by
  simp [title, row, symbols_line_append, symbols_join, symbols_element_inj, symbols_text_inj]

theorem shows_ofEntry :
    Shows ofEntry Entry.content [.opening (classed "tr" "entry").opening] fun _ => True where
  leads n := by simp [ofEntry, line, symbols_add, symbols]
  append_iff n n' r r' _ _ := by
    have hentry (n : Entry) : ofEntry n = line (element (classed "tr" "entry") (join [
        cell (text n.name), cell (text n.value),
        cell (text ((summary? n.summary n.description).getD "") ++
          text (sinceSuffix n.since))])) := rfl
    rw [hentry, hentry, symbols_line_append, EntryContent.ext_iff]
    simp [cell, symbols_join, symbols_element_append, symbols_element_inj, symbols_text_add,
      symbols_text_inj, Entry.content, summary?, and_assoc]

/-! ## Lists that are not shown if they are empty -/

/-- The list, if there is something in it. -/
def given? {α : Type} (l : List α) : Option (List α) := if l.isEmpty then none else some l

theorem map_given? {α κ : Type} (f : α → κ) (l : List α) :
    (given? l).map (List.map f) = given? (l.map f) := by
  cases l <;> rfl

theorem given?_inj {α : Type} {l l' : List α} : given? l = given? l' ↔ l = l' := by
  cases l <;> cases l' <;> simp [given?]

/-- A table inside of a row. -/
def table (cls : String) (columns : List String) (rows : List Html) : Html :=
  line <| row [element (spanning "td" 2) <|
    .newline ++ block (classed "table" cls) (line (row (columns.map heading)) ++ join rows)]

/-- Pieces with a heading. -/
def headed (name : String) (pieces : List Html) : Html :=
  line (element ⟨"h3", []⟩ (text name)) ++ join pieces

section Lists

variable {α κ : Type} {piece : α → Html} {key : α → κ} {lead : List Symbol}
  {Stop : List Symbol → Prop}

theorem innerTable_eq (cls : String) (columns : List String) (l : List α) :
    innerTable cls columns (l.map piece) =
      ifGiven (given? l) fun l => table cls columns (l.map piece) := by
  cases l <;> rfl

theorem part_eq (name : String) (l : List α) :
    part name (l.map piece) = ifGiven (given? l) fun l => headed name (l.map piece) := by
  cases l <;> rfl

def tableLead : List Symbol :=
  [.opening (HtmlTag.opening ⟨"tr", []⟩), .opening (spanning "td" 2).opening]

def headingLead (name : String) : List Symbol :=
  .opening (HtmlTag.opening ⟨"h3", []⟩) ::
    (name.toList.map .char ++ [.closing (HtmlTag.closing ⟨"h3", []⟩)])

/-- A table shows what its rows show. -/
theorem shows_table (hs : Shows piece key lead Stop)
    (hnext : ∀ x r, Stop ((piece x).symbols ++ r)) (hlead : lead ≠ []) (hstop : Stop [])
    (cls : String) (columns : List String) :
    Shows (fun l => table cls columns (l.map piece)) (List.map key) tableLead fun _ => True where
  leads l := by simp [table, line, row, tableLead, symbols_add, symbols_join, symbols]
  append_iff l l' r r' _ _ := by
    have hrows := hs.join_append hnext (avoids_nil hlead) (avoids_nil hlead) hstop hstop l l'
    simp only [List.append_nil, and_true, symbols_join] at hrows
    simp [table, row, symbols_line_append, symbols_join, symbols_element_inj, symbols_add,
      symbols_block_inj, hrows]

/-- What has a heading ends with its last piece. -/
theorem shows_headed (hs : Shows piece key lead Stop)
    (hnext : ∀ x r, Stop ((piece x).symbols ++ r)) (name : String) :
    Shows (fun l => headed name (l.map piece)) (List.map key) (headingLead name)
      fun r => Stop r ∧ Avoids lead r where
  leads l := by simp [headed, line, headingLead, symbols_add, symbols]
  append_iff l l' r r' h h' := by
    rw [headed, headed, symbols_add, symbols_add, List.append_assoc, List.append_assoc,
      symbols_line_append, hs.join_append hnext h.2 h'.2 h.1 h'.1]
    simp

end Lists

/-! ## Enums -/

theorem tail_ofEnum :
    Tail (fun e : Enum =>
        (ifGiven e.since fun since => labelled "Since" (toString since)).symbols ++
          ((ifGiven e.description descriptionRows).symbols ++
            ((innerTable "entries" ["Name", "Value", "Summary"]
              (e.entries.map ofEntry)).symbols ++ [])))
      (fun e => (e.since.map id, e.description.map Description.trimmed,
        (given? e.entries).map (List.map Entry.content), ()))
      [labelLead "Since", labelLead "Summary", tableLead] := by
  simp only [innerTable_eq]
  have hentries := shows_table shows_ofEntry (fun _ _ => trivial) (by decide) trivial "entries"
    ["Name", "Value", "Summary"]
  have htable := Tail.nil.ifGiven hentries (fun e : Enum => given? e.entries) (fun _ => trivial)
    (by decide) (by decide)
  have hdescription := htable.ifGiven shows_descriptionRows Enum.description (fun _ => trivial)
    (by decide) (by decide)
  exact hdescription.ifGiven (shows_number "Since") Enum.since (fun _ => trivial) (by decide)
    (by decide)

theorem shows_ofEnum :
    Shows ofEnum Enum.content [.opening (classed "table" "enum").opening] fun _ => True where
  leads e := by simp [ofEnum, block, line, symbols_add, symbols]
  append_iff e e' r r' _ _ := by
    simp only [ofEnum, symbols_block_append, symbols_join, List.flatMap_cons, List.flatMap_nil,
      symbols_title_append, tail_ofEnum.inj, EnumContent.ext_iff, String.append_assoc,
      String.append_right_inj]
    simp [Enum.content, map_given?, given?_inj, and_assoc]

/-! ## Messages -/

def argSummaryLead : List Symbol := [.opening (classed "tr" "arg-summary").opening]

theorem shows_argSummary :
    Shows (fun summary => line <| element (classed "tr" "arg-summary") <| join [
        cell .nothing, element (spanning "td" 3) (text summary)])
      id argSummaryLead fun _ => True where
  leads summary := by simp [line, argSummaryLead, symbols_add, symbols]
  append_iff summary summary' r r' _ _ := by
    simp [symbols_line_append, symbols_join, symbols_element_inj, symbols_text_inj]

/-- What comes behind the type of an argument. -/
def enumSuffix : Option String → String
  | some enum => s!" (enum {enum})"
  | none => ""

theorem enumSuffix_inj {enum enum' : Option String} :
    enumSuffix enum = enumSuffix enum' ↔ enum = enum' := by
  have hne (enum : String) : enumSuffix (some enum) ≠ "" := by
    intro h
    simp [enumSuffix, toString] at h
  cases enum with
  | none =>
    cases enum' with
    | none => simp
    | some enum' => simpa [enumSuffix] using (hne enum').symm
  | some enum =>
    cases enum' with
    | none => simpa [enumSuffix] using hne enum
    | some enum' => simp [enumSuffix, toString]

/-- The row with the summary of an argument belongs to it. -/
theorem shows_ofArg :
    Shows ofArg Arg.content [.opening (classed "tr" "arg").opening] (Avoids argSummaryLead) where
  leads a := by simp [ofArg, line, symbols_add, symbols]
  append_iff a a' r r' h h' := by
    have harg (a : Arg) : ofArg a =
        line (element (classed "tr" "arg") (join [cell (text a.name),
          cell (text (a.type.cType ++ enumSuffix a.enum)), cell (text (nullability a)),
          cell (text (a.interface.getD ""))])) ++
        ifGiven (summary? a.summary a.description) fun summary =>
          line <| element (classed "tr" "arg-summary") <| join [
            cell .nothing, element (spanning "td" 3) (text summary)] := rfl
    rw [harg, harg, symbols_add, symbols_add, List.append_assoc, List.append_assoc,
      symbols_line_append, shows_argSummary.ifGiven_append h h' trivial trivial,
      ArgContent.ext_iff]
    simp [cell, symbols_join, symbols_element_append, symbols_element_inj, symbols_text_inj,
      cType_append_inj, enumSuffix_inj, Arg.content, summary?, and_assoc]

theorem ifSo_eq {α : Type} (condition : Bool) (piece : α → Html) (x : α) :
    ifSo condition (piece x) = ifGiven (if condition then some x else none) piece := by
  cases condition <;> rfl

theorem tail_ofMessage :
    Tail (fun m : Message =>
        (ifGiven (if m.destructor then some "destructor" else none) (labelled "Type")).symbols ++
          ((ifGiven (if m.since != 1 then some m.since else none)
            fun since => labelled "Since" (toString since)).symbols ++
          ((ifGiven m.deprecatedSince
            fun since => labelled "Deprecated Since" (toString since)).symbols ++
          ((ifGiven m.description descriptionRows).symbols ++
          ((innerTable "args" ["Name", "Type", "Nullable", "Interface"]
            (m.args.map ofArg)).symbols ++ [])))))
      (fun m => ((if m.destructor then some "destructor" else none).map id,
        (if m.since != 1 then some m.since else none).map id, m.deprecatedSince.map id,
        m.description.map Description.trimmed, (given? m.args).map (List.map Arg.content), ()))
      [labelLead "Type", labelLead "Since", labelLead "Deprecated Since", labelLead "Summary",
        tableLead] := by
  simp only [innerTable_eq]
  have hargs := shows_table shows_ofArg (shows_ofArg.avoids (by decide)) (by decide)
    (avoids_nil (by decide)) "args" ["Name", "Type", "Nullable", "Interface"]
  have htable := Tail.nil.ifGiven hargs (fun m : Message => given? m.args) (fun _ => trivial)
    (by decide) (by decide)
  have hdescription := htable.ifGiven shows_descriptionRows Message.description
    (fun _ => trivial) (by decide) (by decide)
  have hdeprecated := hdescription.ifGiven (shows_number "Deprecated Since")
    Message.deprecatedSince (fun _ => trivial) (by decide) (by decide)
  have hsince := hdeprecated.ifGiven (shows_number "Since")
    (fun m => if m.since != 1 then some m.since else none) (fun _ => trivial) (by decide)
    (by decide)
  exact hsince.ifGiven (shows_labelled "Type")
    (fun m => if m.destructor then some "destructor" else none) (fun _ => trivial) (by decide)
    (by decide)

theorem shows_ofMessage (kind : MessageKind) :
    Shows (ofMessage kind) Message.content [.opening (classed "table" "message").opening]
      fun _ => True where
  leads m := by simp [ofMessage, block, line, symbols_add, symbols]
  append_iff m m' r r' _ _ := by
    have hdestructor (m : Message) := ifSo_eq m.destructor (labelled "Type") "destructor"
    have hsince (m : Message) := ifSo_eq (m.since != 1)
      (fun since : UInt32 => labelled "Since" (toString since)) m.since
    have hdestructors (d d' : Bool) : (if d then some "destructor" else none) =
        (if d' then some "destructor" else none) ↔ d = d' := by
      cases d <;> cases d' <;> simp
    have hsinces (v v' : UInt32) : (if v = 1 then none else some v) =
        (if v' = 1 then none else some v') ↔ v = v' := by
      grind
    simp only [ofMessage, hdestructor, hsince, symbols_block_append, symbols_join,
      List.flatMap_cons, List.flatMap_nil, symbols_title_append, tail_ofMessage.inj,
      MessageContent.ext_iff, String.append_assoc, String.append_right_inj]
    simp [Message.content, map_given?, given?_inj, hdestructors, hsinces, and_assoc]

/-! ## Interfaces -/

theorem tail_ofInterface :
    Tail (fun x : Interface =>
        (part "Enumerations" (x.enums.map ofEnum)).symbols ++
          ((part "Requests" (x.requests.map (ofMessage .request))).symbols ++
          ((part "Events" (x.events.map (ofMessage .event))).symbols ++ [])))
      (fun x => ((given? x.enums).map (List.map Enum.content),
        (given? x.requests).map (List.map Message.content),
        (given? x.events).map (List.map Message.content), ()))
      [headingLead "Enumerations", headingLead "Requests", headingLead "Events"] := by
  simp only [part_eq]
  have hheaded (kind : MessageKind) := shows_headed (shows_ofMessage kind) fun _ _ => trivial
  have hevents := Tail.nil.ifGiven (hheaded .event "Events")
    (fun x : Interface => given? x.events) (fun _ => ⟨trivial, avoids_nil (by decide)⟩)
    (by decide) (by decide)
  have hrequests := hevents.ifGiven (hheaded .request "Requests") (fun x => given? x.requests)
    (fun x => ⟨trivial, hevents.avoids _ (by decide) (by decide) x⟩) (by decide) (by decide)
  exact hrequests.ifGiven (shows_headed shows_ofEnum (fun _ _ => trivial) "Enumerations")
    (fun x => given? x.enums) (fun x => ⟨trivial, hrequests.avoids _ (by decide) (by decide) x⟩)
    (by decide) (by decide)

/-- What is shown for an interface without a description. -/
def noDescription : Description := ⟨"NONE", "NONE"⟩

theorem ofInterface_eq (x : Interface) : ofInterface x =
    block (classed "div" "interface") (join [
      line (element ⟨"h2", []⟩
        (text ("Interface Name:" ++ (x.name ++ " Version " ++ toString x.version)))),
      block (classed "table" "description")
        (descriptionRows (x.description.getD noDescription)),
      part "Enumerations" (x.enums.map ofEnum),
      part "Requests" (x.requests.map (ofMessage .request)),
      part "Events" (x.events.map (ofMessage .event))]) := by
  have hheader : s!"Interface Name:{x.name} Version {x.version}" =
      "Interface Name:" ++ (x.name ++ " Version " ++ toString x.version) := by
    simp [toString, String.append_assoc]
  have hbody : trim noDescription.body = "NONE" := by decide
  unfold ofInterface
  rw [hheader]
  cases x.description with
  | none => rw [Option.getD_none, descriptionRows, hbody]; rfl
  | some d => rfl

theorem shows_ofInterface :
    Shows ofInterface Interface.content [.opening (classed "div" "interface").opening]
      fun _ => True where
  leads x := by simp [ofInterface, block, line, symbols_add, symbols]
  append_iff x x' r r' _ _ := by
    have hdescription (x : Interface) :
        (x.description.getD noDescription).trimmed = x.content.description := rfl
    simp only [ofInterface_eq, symbols_block_append, symbols_join, List.flatMap_cons,
      List.flatMap_nil, symbols_line_append, symbols_text_inj, String.append_right_inj,
      name_version_inj, shows_descriptionRows.inj trivial, hdescription, tail_ofInterface.inj,
      InterfaceContent.ext_iff]
    simp [Interface.content, map_given?, given?_inj, and_assoc]

/-! ## Protocols -/

theorem shows_descriptionTable :
    Shows (fun d => block (classed "table" "description") (descriptionRows d))
      Description.trimmed [.opening (classed "table" "description").opening] fun _ => True where
  leads d := by simp [block, line, symbols_add, symbols]
  append_iff d d' r r' _ _ := by
    rw [symbols_block_append, shows_descriptionRows.inj trivial]

theorem shows_copyright :
    Shows (fun copyright => part "Copyright" [line (element ⟨"pre", []⟩ (text (trim copyright)))])
      trim (headingLead "Copyright") fun _ => True where
  leads copyright := by simp [part, line, headingLead, symbols_add, symbols]
  append_iff copyright copyright' r r' _ _ := by
    simp [part, symbols_add, symbols_join, symbols_line_append, symbols_text_inj]

theorem tail_body :
    Tail (fun p : Protocol =>
        (ifGiven p.description fun d =>
          block (classed "table" "description") (descriptionRows d)).symbols ++
          ((ifGiven p.copyright fun copyright =>
            part "Copyright" [line (element ⟨"pre", []⟩ (text (trim copyright)))]).symbols ++
          (join (p.interfaces.map ofInterface)).symbols))
      (fun p => (p.description.map Description.trimmed, p.copyright.map trim,
        p.interfaces.map Interface.content))
      [[.opening (classed "table" "description").opening], headingLead "Copyright",
        [.opening (classed "div" "interface").opening]] := by
  have hinterfaces := Tail.join shows_ofInterface (fun _ _ => trivial) trivial (by decide)
    Protocol.interfaces
  have hcopyright := hinterfaces.ifGiven shows_copyright Protocol.copyright (fun _ => trivial)
    (by decide) (by decide)
  exact hcopyright.ifGiven shows_descriptionTable Protocol.description (fun _ => trivial)
    (by decide) (by decide)

theorem symbols_body (p q : Protocol) :
    (body p).symbols = (body q).symbols ↔ p.content = q.content := by
  have hbody (p : Protocol) : (body p).symbols =
      (line (element ⟨"h1", []⟩ (text ("Protocol: " ++ p.name)))).symbols ++
        ((ifGiven p.description fun d =>
          block (classed "table" "description") (descriptionRows d)).symbols ++
        ((ifGiven p.copyright fun copyright =>
          part "Copyright" [line (element ⟨"pre", []⟩ (text (trim copyright)))]).symbols ++
        (join (p.interfaces.map ofInterface)).symbols)) := by
    rw [body, symbols_join]
    simp
  rw [hbody, hbody, symbols_line_append, symbols_text_inj, String.append_right_inj, tail_body.inj,
    ProtocolContent.ext_iff]
  simp only [Protocol.content, Prod.mk.injEq]
  tauto

theorem symbols_ofProtocol (p q : Protocol) :
    (ofProtocol p).symbols = (ofProtocol q).symbols ↔ p.content = q.content := by
  simp only [ofProtocol, symbols_block_inj, symbols_add, symbols_block_append, symbols_body,
    and_iff_right_iff_imp]
  intro h
  have hname : p.name = q.name := congrArg ProtocolContent.name h
  rw [hname]

end Page

/-- Two protocols have the same page if and only if it shows the same of both. -/
theorem Protocol.toHtml_eq_iff (p q : Protocol) :
    p.toHtml = q.toHtml ↔ ∃ c, p.Displays c ∧ q.Displays c := by
  have hpage (p : Protocol) : p.toHtml = "<!DOCTYPE html>\n" ++ (Page.ofProtocol p).render := rfl
  have hcontent : p.toHtml = q.toHtml ↔ p.content = q.content := by
    rw [hpage, hpage, String.append_right_inj,
      Html.render_inj (Page.clean_ofProtocol p) (Page.clean_ofProtocol q), Page.symbols_ofProtocol]
  simp only [hcontent, displays_iff_eq, exists_eq_left]

/-- White space around a copyright is not shown, but that inside of it is, and an integer is shown
like a file descriptor, but a new object not like a number. -/
theorem Protocol.toHtml_of_similar_trees :
    let tree (copyright : String) (type : ArgType) : Protocol := {
      name := "p", uppercaseName := "P", copyright := some copyright
      interfaces := [{
        name := "i", uppercaseName := "I", version := 1
        requests := [{ name := "r", uppercaseName := "R", args := [{ name := "x", type }] }] }] }
    (tree "\n a b\u3000" .int).toHtml = (tree "a b" .fd).toHtml ∧
      (tree "a b" .int).toHtml ≠ (tree "ab" .int).toHtml ∧
      (tree "a b" .uint).toHtml ≠ (tree "a b" .newId).toHtml := by
  intro tree
  have hcontent : (tree "\n a b\u3000" .int).Displays {
      name := "p", copyright := some "a b", description := none
      interfaces := [{
        name := "i", version := 1, description := ⟨"NONE", "NONE"⟩, enums := [], events := []
        requests := [{
          name := "r", destructor := false, since := 1, deprecatedSince := none
          description := none
          args := [{
            name := "x", cType := "int32_t", enum := none, nullability := "Not Supported"
            interface := "", summary := none }] }] }] } :=
    (displays_iff_eq _ _).2 (by decide)
  refine ⟨(toHtml_eq_iff _ _).2 ⟨_, hcontent, (displays_iff_eq _ _).2 (by decide)⟩, fun h => ?_,
    fun h => ?_⟩
  all_goals
    obtain ⟨c, hp, hq⟩ := (toHtml_eq_iff _ _).1 h
    rw [displays_iff_eq] at hp hq
    exact absurd (hp.symm.trans hq) (by decide)

end WaylandDoc
