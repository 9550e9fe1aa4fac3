import WaylandDoc.Proofs.Numerals
import WaylandDoc.Proofs.Written

/-!
# Written nodes come together

The start tag of a written node declares it as it is before it has children or a description: its
`bare` form. Adding what is written inside, piece by piece, completes it (`Has.foldl`).
-/

namespace WaylandDoc

open Attribute (find?)

/-! ## Fields -/

theorem isVersion_decimal (v : Option UInt32) : IsVersion (v.map decimal) v := by
  cases v with
  | none => rfl
  | some v => exact ⟨v, Numeral.read_decimal_eq_ok.2 (Numeral.denotes_toString v), rfl⟩

theorem Gives.exists_isVersion {given : Option String} {v default : UInt32}
    (h : Gives decimal given v default) : ∃ w, IsVersion given w ∧ v = w.getD default := by
  rcases h with rfl | ⟨rfl, rfl⟩
  · exact ⟨some v, isVersion_decimal (some v), rfl⟩
  · exact ⟨none, rfl, rfl⟩

theorem Gives.isBool {given : Option String} {b : Bool} (h : Gives toString given b false) :
    IsBool given b := by
  rcases h with rfl | ⟨rfl, rfl⟩
  · cases b <;> rfl
  · rfl

theorem Gives.eq_getD {given : Option String} {s default : String} (h : Gives id given s default) :
    s = given.getD default := by
  rcases h with rfl | ⟨rfl, rfl⟩ <;> rfl

/-! ## Start tags -/

/-! Nodes as they are before they have children and a description. -/

def Interface.bare (x : Interface) : Interface :=
  { x with since := 1, description := none, requests := [], events := [], enums := [] }

def Message.bare (m : Message) : Message :=
  { m with args := [], newIdCount := 0, description := none }

def Arg.bare (a : Arg) : Arg := { a with description := none }

def Enum.bare (e : Enum) : Enum := { e with entries := [], description := none }

def Entry.bare (n : Entry) : Entry := { n with description := none }

section Declares

variable {e : Element} {as : List (String × String)}

/-- Attributes declare a node if the values that are written do. -/
theorem Named.declares {α : Type} {declare : List Attribute → Except SchemaError α} {x : α}
    (has : Named as) (h : ∀ attributes : List Attribute,
      (∀ name, IsPlain name → find? attributes name = as.lookup name) →
        declare attributes = .ok x) : Declares declare (Mark.tag e as) x :=
  ⟨_, Mark.ofTag_tag has.plain has.nodup,
    h _ fun _ => Mark.find?_tag has.plain has.nodup⟩

theorem Description.declares {d : Description} (has : Named as)
    (hd : as.lookup "summary" = some d.summary) :
    Declares Description.declareSummary (Mark.tag e as) d.summary := by
  refine has.declares fun attributes hfind => required_eq_ok.2 ?_
  rw [hfind _ (by decide), hd]

theorem Protocol.declares {name : String} (has : Named as) (hname : as.lookup "name" = some name) :
    Declares Protocol.declare (Mark.tag e as) { name, uppercaseName := upperCase name } := by
  refine has.declares fun attributes hfind => Protocol.declare_eq_ok.2 ⟨name, ?_, rfl⟩
  rw [hfind _ (by decide), hname]

theorem Interface.declares {x : Interface} (hx : x.Valid) (has : Named as)
    (hgiven : x.Given (as.lookup ·)) : Declares Interface.declare (Mark.tag e as) x.bare := by
  refine has.declares fun attributes hfind => Interface.declare_eq_ok.2 ?_
  refine ⟨x.name, decimal x.version, x.version, ?_, ?_, ?_, ?_, ?_⟩
  · rw [hfind _ (by decide), hgiven.name]
  · rw [hfind _ (by decide), hgiven.version]
  · exact Numeral.read_decimal_eq_ok.2 (Numeral.denotes_toString x.version)
  · rintro h0
    have := hx.version
    rw [h0] at this
    exact absurd this (by decide)
  · rw [bare, hx.uppercaseName.eq]

theorem Message.declares {kind : MessageKind} {m : Message} (hm : m.Valid) (has : Named as)
    (hgiven : m.Given (as.lookup ·)) :
    Declares (Message.declare kind) (Mark.tag e as) m.bare := by
  refine has.declares fun attributes hfind => Message.declare_eq_ok.2 ?_
  have hdestructor : isDestructor attributes = m.destructor := by
    rw [isDestructor, hfind _ (by decide), hgiven.type]
    cases m.destructor <;> rfl
  obtain ⟨since, hsince, heq⟩ := hgiven.since.exists_isVersion
  refine ⟨m.name, since, m.deprecatedSince, ?_, ?_, ?_, ?_, ?_⟩
  · rw [hfind _ (by decide), hgiven.name]
  · rw [hdestructor]
    exact hm.destroy
  · rwa [hfind _ (by decide)]
  · rw [hfind _ (by decide), hgiven.deprecatedSince]
    exact isVersion_decimal _
  · rw [bare, hm.uppercaseName.eq, hdestructor, heq]

theorem Arg.declares {a : Arg} (ha : a.Valid) (has : Named as) (hgiven : a.Given (as.lookup ·)) :
    Declares Arg.declare (Mark.tag e as) a.bare := by
  refine has.declares fun attributes hfind => Arg.declare_eq_ok.2 ?_
  refine ⟨a.name, a.type, a.nullable, ?_, ?_, ?_, ?_, ?_, ?_⟩
  · rw [hfind _ (by decide), hgiven.name]
  · rw [hfind _ (by decide), hgiven.type]
  · rw [hfind _ (by decide), hgiven.interface]
    intro h
    rcases ha.interface h with h | h <;> rw [h] <;> rfl
  · rw [hfind _ (by decide), hgiven.nullable]
    cases a.nullable <;> rfl
  · rw [hfind _ (by decide), hgiven.nullable]
    intro h
    have hnullable : a.nullable := by
      by_contra hn
      simp [hn] at h
    rcases ha.nullable hnullable with h | h | h | h <;> rw [h] <;> rfl
  · rw [hfind _ (by decide), hfind _ (by decide),
      hfind _ (by decide), hgiven.interface, hgiven.enum, hgiven.summary, bare]

theorem Enum.declares {x : Enum} (hx : x.Valid) (has : Named as) (hgiven : x.Given (as.lookup ·)) :
    Declares Enum.declare (Mark.tag e as) x.bare := by
  refine has.declares fun attributes hfind => Enum.declare_eq_ok.2 ?_
  refine ⟨x.name, x.since, x.bitfield, ?_, ?_, ?_, ?_⟩
  · rw [hfind _ (by decide), hgiven.name]
  · rw [hfind _ (by decide), hgiven.since]
    exact isVersion_decimal _
  · rw [hfind _ (by decide)]
    exact hgiven.bitfield.isBool
  · rw [bare, hx.uppercaseName.eq]

theorem Entry.declares {n : Entry} (hn : n.Valid) (has : Named as)
    (hgiven : n.Given (as.lookup ·)) : Declares Entry.declare (Mark.tag e as) n.bare := by
  refine has.declares fun attributes hfind => Entry.declare_eq_ok.2 ?_
  refine ⟨n.name, n.since, ?_, ?_, ?_⟩
  · rw [hfind _ (by decide), hgiven.name]
  · rw [hfind _ (by decide), hgiven.since]
    exact isVersion_decimal _
  · rw [hfind _ (by decide), hfind _ (by decide), hgiven.summary,
      ← hgiven.value.eq_getD, bare, hn.uppercaseName.eq]

end Declares

/-! ## Children one after another -/

section Children

variable {α : Type} {children : List (Child α)}

theorem descriptionsOf_node (x : α) :
    descriptionsOf (.node x :: children) = descriptionsOf children := rfl

theorem mem_nodesOf {x : α} : x ∈ nodesOf children ↔ .node x ∈ children := by
  simp only [nodesOf, List.mem_filterMap]
  constructor
  · rintro ⟨c, hc, hx⟩
    cases c <;> cases hx
    exact hc
  · exact fun h => ⟨_, h, rfl⟩

theorem nodesOf_node (x : α) : nodesOf (.node x :: children) = x :: nodesOf children := rfl

/-- The last description is the one that stays. -/
theorem getLast?_descriptionsOf (d : Description) (o : Option Description) :
    (descriptionsOf (.description d :: children)).getLast?.or o =
      (descriptionsOf children).getLast?.or (some d) := by
  have hcons : descriptionsOf (.description d :: children) = d :: descriptionsOf children := rfl
  rw [hcons, List.getLast?_cons]
  cases (descriptionsOf children).getLast? <;> rfl

end Children

def Arg.describe (a : Arg) (d : Description) : Arg := { a with description := some d }

def Entry.describe (n : Entry) (d : Description) : Entry := { n with description := some d }

theorem Arg.foldl_describe (a : Arg) : a.description.toList.foldl describe a.bare = a := by
  obtain ⟨name, type, nullable, interface, enum, summary, description⟩ := a
  cases description <;> rfl

theorem Entry.foldl_describe (n : Entry) : n.description.toList.foldl describe n.bare = n := by
  obtain ⟨name, uppercaseName, value, summary, since, description⟩ := n
  cases description <;> rfl

def Message.addChild (m : Message) : Child Arg → Message
  | .description d => { m with description := some d }
  | .node a => m.addArg a

def Enum.addChild (e : Enum) : Child Entry → Enum
  | .description d => { e with description := some d }
  | .node n => e.addEntry n

def Interface.addChild (x : Interface) : Child Member → Interface
  | .description d => { x with description := some d }
  | .node (.message kind m) => x.addMessage kind m
  | .node (.enum e) => x.addEnum e

/-- Adds what comes before the interfaces. -/
def Protocol.addChild (p : Protocol) : Child String → Protocol
  | .description d => { p with description := some d }
  | .node text => { p with copyright := some text }

theorem Message.foldl_addChild (children : List (Child Arg)) (m : Message) :
    children.foldl addChild m = { m with
      args := m.args ++ nodesOf children
      newIdCount := m.newIdCount + .ofNat ((nodesOf children).countP (·.type = .newId))
      description := (descriptionsOf children).getLast?.or m.description } := by
  induction children generalizing m with
  | nil => simp [nodesOf, descriptionsOf]
  | cons c children ih =>
    rw [List.foldl_cons, ih]
    cases c with
    | description d =>
      rw [getLast?_descriptionsOf]
      rfl
    | node a =>
      simp only [addChild, addArg, nodesOf_node, descriptionsOf_node, List.append_assoc,
        List.singleton_append, List.countP_cons, decide_eq_true_eq]
      split <;> simp [UInt32.ofNat_add, UInt32.add_assoc, UInt32.add_comm]

theorem Enum.foldl_addChild (children : List (Child Entry)) (e : Enum) :
    children.foldl addChild e = { e with
      entries := e.entries ++ nodesOf children
      description := (descriptionsOf children).getLast?.or e.description } := by
  induction children generalizing e with
  | nil => simp [nodesOf, descriptionsOf]
  | cons c children ih =>
    rw [List.foldl_cons, ih]
    cases c with
    | description d =>
      rw [getLast?_descriptionsOf]
      rfl
    | node n =>
      simp [addChild, addEntry, nodesOf_node, descriptionsOf_node]

theorem Interface.Has.mem_messages {x : Interface} {children : List (Child Member)}
    {kind : MessageKind} {m : Message} (h : x.Has children)
    (hm : .message kind m ∈ nodesOf children) : m ∈ x.messages kind := by
  rw [← h.messages kind, List.mem_filterMap]
  exact ⟨_, hm, by simp [Member.message?]⟩

theorem Interface.Has.mem_enums {x : Interface} {children : List (Child Member)} {e : Enum}
    (h : x.Has children) (he : .enum e ∈ nodesOf children) : e ∈ x.enums := by
  rw [← h.enums, List.mem_filterMap]
  exact ⟨_, he, rfl⟩

theorem Interface.foldl_addChild (children : List (Child Member)) (x : Interface) :
    children.foldl addChild x = { x with
      requests := x.requests ++ (nodesOf children).filterMap (Member.message? .request)
      events := x.events ++ (nodesOf children).filterMap (Member.message? .event)
      enums := x.enums ++ (nodesOf children).filterMap Member.enum?
      since := ((nodesOf children).filterMap Member.since?).getLast?.getD x.since
      description := (descriptionsOf children).getLast?.or x.description } := by
  induction children generalizing x with
  | nil => simp [nodesOf, descriptionsOf]
  | cons c children ih =>
    rw [List.foldl_cons, ih]
    cases c with
    | description d =>
      rw [getLast?_descriptionsOf]
      rfl
    | node y =>
      rw [nodesOf_node, descriptionsOf_node]
      cases y with
      | message kind m =>
        cases kind <;> simp [addChild, addMessage, modifyMessages, Member.message?, Member.enum?,
          Member.since?, List.filterMap_cons, List.getLast?_cons]
      | enum e =>
        simp [addChild, addEnum, Member.message?, Member.enum?, Member.since?, List.filterMap_cons]

theorem Protocol.foldl_addChild (children : List (Child String)) (p : Protocol) :
    children.foldl addChild p = { p with
      copyright := (nodesOf children).getLast?.or p.copyright
      description := (descriptionsOf children).getLast?.or p.description } := by
  induction children generalizing p with
  | nil => simp [nodesOf, descriptionsOf]
  | cons c children ih =>
    rw [List.foldl_cons, ih]
    cases c with
    | description d =>
      rw [getLast?_descriptionsOf]
      rfl
    | node text =>
      rw [nodesOf_node, descriptionsOf_node, List.getLast?_cons]
      cases (nodesOf children).getLast? <;> rfl

theorem getLast?_toList {α : Type} (o : Option α) : o.toList.getLast?.or none = o := by
  cases o <;> rfl

/-! A node is what its children make of it. -/

theorem Message.Has.foldl {m : Message} {children : List (Child Arg)} (h : m.Has children)
    (hm : m.Valid) : children.foldl addChild m.bare = m := by
  rw [foldl_addChild, h.args, h.description, bare, getLast?_toList, ← hm.newIdCount]
  simp

theorem Enum.Has.foldl {e : Enum} {children : List (Child Entry)} (h : e.Has children) :
    children.foldl addChild e.bare = e := by
  rw [foldl_addChild, h.entries, h.description, bare, getLast?_toList]
  simp

theorem Interface.Has.foldl {x : Interface} {children : List (Child Member)}
    (h : x.Has children) : children.foldl addChild x.bare = x := by
  rw [foldl_addChild, h.messages, h.messages, h.enums, h.description, bare, getLast?_toList,
    ← h.since]
  simp

theorem Protocol.Has.foldl {p : Protocol} {children : List (Child String)} (h : p.Has children) :
    children.foldl addChild { name := p.name, uppercaseName := p.uppercaseName } =
      { p with interfaces := [] } := by
  rw [foldl_addChild, h.copyright, h.description, getLast?_toList, getLast?_toList]

end WaylandDoc
