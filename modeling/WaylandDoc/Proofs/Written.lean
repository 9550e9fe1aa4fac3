import WaylandDoc.Proofs.Validity
import WaylandDoc.Proofs.Writing

/-!
# Documents of a tree

How a protocol is written as a document. A node is an element with its fields as attributes, in any
order; a field that has its default value may be left out. Its children are elements inside of it,
those of different kinds in any mix, and its description is one of them. Only the copyright and the
description of a protocol come before its interfaces.
-/

namespace WaylandDoc

open Token (openAfter)

/-! ## Fields as attributes -/

/-- A field is given in the form that `print` has for it, or left out if it has the default
value. -/
def Gives {α : Type} (print : α → String) (given : Option String) (value default : α) : Prop :=
  given = some (print value) ∨ given = none ∧ value = default

def decimal (v : UInt32) : String := toString v.toNat

section Given

variable (given : String → Option String)

structure Interface.Given (x : Interface) : Prop where
  name : given "name" = some x.name
  version : given "version" = some (decimal x.version)

structure Message.Given (m : Message) : Prop where
  name : given "name" = some m.name
  type : given "type" = if m.destructor then some "destructor" else none
  since : Gives decimal (given "since") m.since 1
  deprecatedSince : given "deprecated-since" = m.deprecatedSince.map decimal

structure Arg.Given (a : Arg) : Prop where
  name : given "name" = some a.name
  type : given "type" = some a.type.name
  nullable : given "allow-null" = if a.nullable then some "true" else none
  interface : given "interface" = a.interface
  enum : given "enum" = a.enum
  summary : given "summary" = a.summary

structure Enum.Given (e : Enum) : Prop where
  name : given "name" = some e.name
  since : given "since" = e.since.map decimal
  bitfield : Gives toString (given "bitfield") e.bitfield false

structure Entry.Given (n : Entry) : Prop where
  name : given "name" = some n.name
  value : Gives id (given "value") n.value ""
  summary : given "summary" = n.summary
  since : given "since" = n.since.map decimal

end Given

/-! ## Elements -/

/-- Plain names, each of them used once. -/
structure Named (as : List (String × String)) : Prop where
  plain : ∀ a ∈ as, IsPlain a.1
  nodup : (as.map Prod.fst).Nodup

/-- The pieces of an element with some text and then others inside. One with nothing inside may be
an empty tag. -/
inductive Element.Encloses (e : Element) (as : List (String × String)) :
    String → List Piece → List Piece → Prop where
  | tags (text : String) (inner : List Piece) (after : String) :
      Encloses e as text inner (⟨.start e as, text⟩ :: inner ++ [⟨.close e, after⟩])
  | empty (after : String) : Encloses e as "" [] [⟨.empty e as, after⟩]

/-- The pieces of an element that is there for its text. -/
def Element.Collects (e : Element) (Given : (String → Option String) → Prop) (text : String)
    (ps : List Piece) : Prop :=
  ∃ as, Named as ∧ Given (as.lookup ·) ∧ e.Encloses as text [] ps

/-- The pieces of an element that is there for the pieces inside. -/
def Element.Contains (e : Element) (Given : (String → Option String) → Prop)
    (inner ps : List Piece) : Prop :=
  ∃ as text, Named as ∧ Given (as.lookup ·) ∧ e.Encloses as text inner ps

/-- The pieces of nodes one after another. -/
inductive Listed {α : Type} (Written : α → List Piece → Prop) :
    List α → List Piece → Prop where
  | nil : Listed Written [] []
  | cons {x : α} {xs : List α} {ps qs : List Piece} (hx : Written x ps)
      (hxs : Listed Written xs qs) : Listed Written (x :: xs) (ps ++ qs)

/-! ## Nodes -/

/-- What is inside of a node: descriptions among nodes of another kind. -/
inductive Child (α : Type) where
  | description (d : Description)
  | node (x : α)

namespace Child

variable {α : Type}

def description? : Child α → Option Description
  | description d => some d
  | node _ => none

def node? : Child α → Option α
  | description _ => none
  | node x => some x

end Child

def descriptionsOf {α : Type} (children : List (Child α)) : List Description :=
  children.filterMap Child.description?

def nodesOf {α : Type} (children : List (Child α)) : List α := children.filterMap Child.node?

def Description.Written (d : Description) : List Piece → Prop :=
  Element.description.Collects (fun given => given "summary" = some d.summary) d.body

def Child.Written {α : Type} (Written : α → List Piece → Prop) : Child α → List Piece → Prop
  | description d => d.Written
  | node x => Written x

def Arg.Written (a : Arg) (ps : List Piece) : Prop :=
  ∃ inner, Listed Description.Written a.description.toList inner ∧
    Element.arg.Contains a.Given inner ps

def Entry.Written (n : Entry) (ps : List Piece) : Prop :=
  ∃ inner, Listed Description.Written n.description.toList inner ∧
    Element.entry.Contains n.Given inner ps

/-- The message has the children, in their order. -/
structure Message.Has (m : Message) (children : List (Child Arg)) : Prop where
  description : descriptionsOf children = m.description.toList
  args : nodesOf children = m.args

def Message.Written (kind : MessageKind) (m : Message) (ps : List Piece) : Prop :=
  ∃ children inner, m.Has children ∧ Listed (Child.Written Arg.Written) children inner ∧
    kind.element.Contains m.Given inner ps

structure Enum.Has (e : Enum) (children : List (Child Entry)) : Prop where
  description : descriptionsOf children = e.description.toList
  entries : nodesOf children = e.entries

def Enum.Written (e : Enum) (ps : List Piece) : Prop :=
  ∃ children inner, e.Has children ∧ Listed (Child.Written Entry.Written) children inner ∧
    Element.enum.Contains e.Given inner ps

/-- What is inside of an interface. -/
inductive Member where
  | message (kind : MessageKind) (m : Message)
  | enum (e : Enum)

namespace Member

def message? (kind : MessageKind) : Member → Option Message
  | message kind' m => if kind' = kind then some m else none
  | enum _ => none

def enum? : Member → Option Enum
  | message _ _ => none
  | enum e => some e

/-- The version that an interface takes from the member. -/
def since? : Member → Option UInt32
  | message _ m => some m.since
  | enum _ => none

def Written : Member → List Piece → Prop
  | message kind m => m.Written kind
  | enum e => e.Written

end Member

/-- The interface has the children, those of every kind in their order. Its own version follows from
the last message among them. -/
structure Interface.Has (x : Interface) (children : List (Child Member)) : Prop where
  description : descriptionsOf children = x.description.toList
  messages (kind : MessageKind) :
    (nodesOf children).filterMap (Member.message? kind) = x.messages kind
  enums : (nodesOf children).filterMap Member.enum? = x.enums
  since : x.since = ((nodesOf children).filterMap Member.since?).getLast?.getD 1

def Interface.Written (x : Interface) (ps : List Piece) : Prop :=
  ∃ children inner, x.Has children ∧ Listed (Child.Written Member.Written) children inner ∧
    Element.interface.Contains x.Given inner ps

/-- The text of a copyright. -/
def WrittenCopyright (text : String) : List Piece → Prop :=
  Element.copyright.Collects (fun _ => True) text

structure Protocol.Has (p : Protocol) (children : List (Child String)) : Prop where
  description : descriptionsOf children = p.description.toList
  copyright : nodesOf children = p.copyright.toList

def Protocol.Written (p : Protocol) (ps : List Piece) : Prop :=
  ∃ children lead inner, p.Has children ∧ Listed (Child.Written WrittenCopyright) children lead ∧
    Listed Interface.Written p.interfaces inner ∧
    Element.protocol.Contains (fun given => given "name" = some p.name) (lead ++ inner) ps

/-! ## Balanced tags -/

/-- The pieces have plain names and leave open what was open before. -/
structure Sound (ps : List Piece) : Prop where
  plain : ∀ piece ∈ ps, piece.Plain
  openAfter (names : List Bytes) : openAfter names (ps.map (·.mark.token)) = some names

theorem sound_nil : Sound [] := ⟨nofun, fun _ => rfl⟩

theorem Sound.append {ps qs : List Piece} (hps : Sound ps) (hqs : Sound qs) : Sound (ps ++ qs) := by
  refine ⟨fun piece h => ?_, fun names => ?_⟩
  · rcases List.mem_append.1 h with h | h
    · exact hps.plain piece h
    · exact hqs.plain piece h
  · rw [List.map_append, Token.openAfter_append, hps.openAfter, Option.bind_some, hqs.openAfter]

section Sound

variable {e : Element} {as : List (String × String)} {Given : (String → Option String) → Prop}
  {text : String} {inner ps : List Piece}

theorem Element.Encloses.sound (h : e.Encloses as text inner ps) (has : Named as)
    (hinner : Sound inner) : Sound ps := by
  have hnames : ∀ name ∈ as.map Prod.fst, IsPlain name := List.forall_mem_map.2 has.plain
  cases h with
  | tags text inner after =>
    refine ⟨fun piece h => ?_, fun names => ?_⟩
    · rw [List.cons_append, List.mem_cons, List.mem_append, List.mem_singleton] at h
      rcases h with rfl | h | rfl
      · exact hnames
      · exact hinner.plain piece h
      · exact nofun
    · have hstart : Token.nest names (.start (Mark.tag e as)) = some (ascii e.name :: names) := by
        rw [Token.nest, (Mark.tag_span e as).1]
      have hclose : Token.nest (ascii e.name :: names) (.close (ascii e.name)) = some names := by
        rw [Token.nest_close_eq_some, e.endName_name]
      rw [List.cons_append, List.map_cons, List.map_append, Token.openAfter_cons, Mark.token,
        hstart, Option.bind_some, Token.openAfter_append, hinner.openAfter, Option.bind_some,
        List.map_singleton, Token.openAfter_cons, Mark.token, hclose]
      rfl
  | empty after =>
    refine ⟨fun piece h => ?_, fun names => rfl⟩
    obtain rfl := List.mem_singleton.1 h
    exact hnames

theorem Element.Collects.sound (h : e.Collects Given text ps) : Sound ps := by
  obtain ⟨as, has, -, h⟩ := h
  exact h.sound has sound_nil

theorem Element.Contains.sound (h : e.Contains Given inner ps) (hinner : Sound inner) :
    Sound ps := by
  obtain ⟨as, text, has, -, h⟩ := h
  exact h.sound has hinner

theorem Listed.sound {α : Type} {Written : α → List Piece → Prop} {xs : List α}
    (h : Listed Written xs ps) (hW : ∀ {x qs}, Written x qs → Sound qs) : Sound ps := by
  induction h with
  | nil => exact sound_nil
  | cons hx _ ih => exact (hW hx).append ih

theorem Description.Written.sound {d : Description} (h : d.Written ps) : Sound ps :=
  Element.Collects.sound h

theorem Child.Written.sound {α : Type} {Written : α → List Piece → Prop} {c : Child α}
    (h : c.Written Written ps) (hW : ∀ {x qs}, Written x qs → Sound qs) : Sound ps := by
  cases c with
  | description d => exact Description.Written.sound h
  | node x => exact hW h

theorem Arg.Written.sound {a : Arg} (h : a.Written ps) : Sound ps := by
  obtain ⟨inner, hinner, h⟩ := h
  exact h.sound (hinner.sound Description.Written.sound)

theorem Entry.Written.sound {n : Entry} (h : n.Written ps) : Sound ps := by
  obtain ⟨inner, hinner, h⟩ := h
  exact h.sound (hinner.sound Description.Written.sound)

theorem Message.Written.sound {kind : MessageKind} {m : Message} (h : m.Written kind ps) :
    Sound ps := by
  obtain ⟨children, inner, -, hinner, h⟩ := h
  exact h.sound (hinner.sound fun hc => hc.sound Arg.Written.sound)

theorem Enum.Written.sound {e : Enum} (h : e.Written ps) : Sound ps := by
  obtain ⟨children, inner, -, hinner, h⟩ := h
  exact h.sound (hinner.sound fun hc => hc.sound Entry.Written.sound)

theorem Member.Written.sound {x : Member} (h : x.Written ps) : Sound ps := by
  cases x with
  | message kind m => exact Message.Written.sound h
  | enum e => exact Enum.Written.sound h

theorem Interface.Written.sound {x : Interface} (h : x.Written ps) : Sound ps := by
  obtain ⟨children, inner, -, hinner, h⟩ := h
  exact h.sound (hinner.sound fun hc => hc.sound Member.Written.sound)

theorem Protocol.Written.sound {p : Protocol} (h : p.Written ps) : Sound ps := by
  obtain ⟨children, lead, inner, -, hlead, hinner, h⟩ := h
  exact h.sound ((hlead.sound fun hc => hc.sound Element.Collects.sound).append
    (hinner.sound Interface.Written.sound))

end Sound

/-! ## Every tree can be written -/

/-- Attributes with the names and those of the values that are there. -/
theorem exists_named (names : List String) (values : List (Option String))
    (hplain : ∀ name ∈ names, IsPlain name) (hnodup : names.Nodup) :
    ∃ as, Named as ∧ ∀ name, as.lookup name = ((names.zip values).lookup name).join := by
  induction names generalizing values with
  | nil => exact ⟨[], ⟨nofun, .nil⟩, fun _ => rfl⟩
  | cons name names ih =>
    cases values with
    | nil => exact ⟨[], ⟨nofun, .nil⟩, fun _ => rfl⟩
    | cons value values =>
      rw [List.forall_mem_cons] at hplain
      obtain ⟨hname, hplain⟩ := hplain
      obtain ⟨hnew, hnodup⟩ := List.nodup_cons.1 hnodup
      obtain ⟨as, has, hlookup⟩ := ih values hplain hnodup
      have hnone : as.lookup name = none := by
        have hzip : (names.zip values).lookup name = none := by
          refine List.lookup_eq_none_iff.2 fun a ha => ?_
          have hmem := (List.of_mem_zip ha).1
          simpa using fun heq : name = a.1 => hnew (heq ▸ hmem)
        rw [hlookup, hzip]
        rfl
      cases value with
      | none =>
        refine ⟨as, has, fun other => ?_⟩
        rw [List.zip_cons_cons, List.lookup_cons]
        split
        · rename_i heq
          rw [beq_iff_eq.1 heq, hnone]
          rfl
        · exact hlookup other
      | some s =>
        refine ⟨(name, s) :: as, ⟨?_, ?_⟩, fun other => ?_⟩
        · exact List.forall_mem_cons.2 ⟨hname, has.plain⟩
        · refine List.nodup_cons.2 ⟨fun hmem => ?_, has.nodup⟩
          obtain ⟨a, ha, rfl⟩ := List.mem_map.1 hmem
          simpa using List.lookup_eq_none_iff.1 hnone a ha
        · rw [List.zip_cons_cons, List.lookup_cons, List.lookup_cons, hlookup]
          split <;> rfl

theorem Listed.exists_of_forall {α : Type} {Written : α → List Piece → Prop} {xs : List α}
    (h : ∀ x ∈ xs, ∃ ps, Written x ps) : ∃ ps, Listed Written xs ps := by
  induction xs with
  | nil => exact ⟨[], .nil⟩
  | cons x xs ih =>
    rw [List.forall_mem_cons] at h
    obtain ⟨⟨ps, hps⟩, hxs⟩ := h
    obtain ⟨qs, hqs⟩ := ih hxs
    exact ⟨ps ++ qs, .cons hps hqs⟩

theorem Description.exists_written (d : Description) : ∃ ps, d.Written ps := by
  obtain ⟨as, has, hlookup⟩ := exists_named ["summary"] [some d.summary] (by decide) (by decide)
  exact ⟨_, as, has, hlookup "summary", .tags d.body [] ""⟩

/-- The description first, then the nodes. -/
def childrenOf {α : Type} (d : Option Description) (xs : List α) : List (Child α) :=
  d.toList.map .description ++ xs.map .node

section Children

variable {α : Type} (d : Option Description) (xs : List α)

theorem descriptionsOf_childrenOf : descriptionsOf (childrenOf d xs) = d.toList := by
  cases d <;> simp [childrenOf, descriptionsOf, Child.description?]

theorem nodesOf_childrenOf : nodesOf (childrenOf d xs) = xs := by
  have hnodes : (xs.map Child.node).filterMap Child.node? = xs := by
    rw [List.filterMap_map]
    exact List.filterMap_some
  cases d with
  | none => exact hnodes
  | some d => exact hnodes

theorem exists_listed_childrenOf {Written : α → List Piece → Prop}
    (h : ∀ x ∈ xs, ∃ ps, Written x ps) :
    ∃ ps, Listed (Child.Written Written) (childrenOf d xs) ps := by
  refine Listed.exists_of_forall fun c hc => ?_
  rcases List.mem_append.1 hc with hc | hc
  · obtain ⟨d, -, rfl⟩ := List.mem_map.1 hc
    exact d.exists_written
  · obtain ⟨x, hx, rfl⟩ := List.mem_map.1 hc
    exact h x hx

end Children

theorem Arg.exists_written (a : Arg) : ∃ ps, a.Written ps := by
  obtain ⟨inner, hinner⟩ := Listed.exists_of_forall
    (fun d (_ : d ∈ a.description.toList) => d.exists_written)
  obtain ⟨as, has, hlookup⟩ := exists_named
    ["name", "type", "allow-null", "interface", "enum", "summary"]
    [some a.name, some a.type.name, if a.nullable then some "true" else none, a.interface, a.enum,
      a.summary] (by decide) (by decide)
  have hgiven : a.Given (as.lookup ·) :=
    ⟨hlookup "name", hlookup "type", hlookup "allow-null", hlookup "interface", hlookup "enum",
      hlookup "summary"⟩
  exact ⟨_, inner, hinner, as, "", has, hgiven, .tags "" inner ""⟩

theorem Entry.exists_written (n : Entry) : ∃ ps, n.Written ps := by
  obtain ⟨inner, hinner⟩ := Listed.exists_of_forall
    (fun d (_ : d ∈ n.description.toList) => d.exists_written)
  obtain ⟨as, has, hlookup⟩ := exists_named ["name", "value", "summary", "since"]
    [some n.name, some n.value, n.summary, n.since.map decimal] (by decide) (by decide)
  have hgiven : n.Given (as.lookup ·) :=
    ⟨hlookup "name", .inl (hlookup "value"), hlookup "summary", hlookup "since"⟩
  exact ⟨_, inner, hinner, as, "", has, hgiven, .tags "" inner ""⟩

theorem Message.exists_written (kind : MessageKind) (m : Message) : ∃ ps, m.Written kind ps := by
  obtain ⟨inner, hinner⟩ :=
    exists_listed_childrenOf m.description m.args fun a _ => a.exists_written
  obtain ⟨as, has, hlookup⟩ := exists_named ["name", "type", "since", "deprecated-since"]
    [some m.name, if m.destructor then some "destructor" else none, some (decimal m.since),
      m.deprecatedSince.map decimal] (by decide) (by decide)
  have hgiven : m.Given (as.lookup ·) :=
    ⟨hlookup "name", hlookup "type", .inl (hlookup "since"), hlookup "deprecated-since"⟩
  exact ⟨_, _, inner, ⟨descriptionsOf_childrenOf .., nodesOf_childrenOf ..⟩, hinner, as, "", has,
    hgiven, .tags "" inner ""⟩

theorem Enum.exists_written (e : Enum) : ∃ ps, e.Written ps := by
  obtain ⟨inner, hinner⟩ :=
    exists_listed_childrenOf e.description e.entries fun n _ => n.exists_written
  obtain ⟨as, has, hlookup⟩ := exists_named ["name", "since", "bitfield"]
    [some e.name, e.since.map decimal, some (toString e.bitfield)] (by decide) (by decide)
  have hgiven : e.Given (as.lookup ·) :=
    ⟨hlookup "name", hlookup "since", .inl (hlookup "bitfield")⟩
  exact ⟨_, _, inner, ⟨descriptionsOf_childrenOf .., nodesOf_childrenOf ..⟩, hinner, as, "", has,
    hgiven, .tags "" inner ""⟩

theorem Member.exists_written (x : Member) : ∃ ps, x.Written ps := by
  cases x with
  | message kind m => exact m.exists_written kind
  | enum e => exact e.exists_written

/-- Requests before events before enums. -/
def Interface.members (x : Interface) : List Member :=
  x.requests.map (.message .request) ++ x.events.map (.message .event) ++ x.enums.map .enum

/-- The version of the last event, or of the last request if there are no events. -/
def Interface.lastSince (x : Interface) : UInt32 :=
  ((x.requests ++ x.events).map Message.since).getLast?.getD 1

theorem Interface.has_members {x : Interface} (h : x.since = x.lastSince) :
    x.Has (childrenOf x.description x.members) := by
  have hrequests (kind : MessageKind) :
      (x.members).filterMap (Member.message? kind) = x.messages kind := by
    cases kind <;> simp [members, Member.message?, Function.comp_def]
  refine ⟨descriptionsOf_childrenOf .., ?_, ?_, ?_⟩
  · rwa [nodesOf_childrenOf]
  · rw [nodesOf_childrenOf]
    simp [members, Member.enum?, Function.comp_def]
  · rw [nodesOf_childrenOf, h, lastSince]
    have hsince :
        x.members.filterMap Member.since? = (x.requests ++ x.events).map Message.since := by
      simp [members, Member.since?, Function.comp_def, List.filterMap_eq_map']
    rw [hsince]

theorem Interface.exists_written {x : Interface} (h : x.since = x.lastSince) :
    ∃ ps, x.Written ps := by
  obtain ⟨inner, hinner⟩ :=
    exists_listed_childrenOf x.description x.members fun y _ => y.exists_written
  obtain ⟨as, has, hlookup⟩ := exists_named ["name", "version"]
    [some x.name, some (decimal x.version)] (by decide) (by decide)
  have hgiven : x.Given (as.lookup ·) := ⟨hlookup "name", hlookup "version"⟩
  exact ⟨_, _, inner, x.has_members h, hinner, as, "", has, hgiven, .tags "" inner ""⟩

/-- Every protocol can be written if its interfaces have the versions of their last messages. -/
theorem Protocol.exists_written {p : Protocol} (h : ∀ x ∈ p.interfaces, x.since = x.lastSince) :
    ∃ ps, p.Written ps := by
  have hcopyright (text : String) : ∃ ps, WrittenCopyright text ps :=
    ⟨_, [], ⟨nofun, .nil⟩, trivial, .tags text [] ""⟩
  obtain ⟨lead, hlead⟩ :=
    exists_listed_childrenOf p.description p.copyright.toList fun text _ => hcopyright text
  obtain ⟨inner, hinner⟩ := Listed.exists_of_forall fun x hx => Interface.exists_written (h x hx)
  obtain ⟨as, has, hlookup⟩ := exists_named ["name"] [some p.name] (by decide) (by decide)
  exact ⟨_, _, lead, inner, ⟨descriptionsOf_childrenOf .., nodesOf_childrenOf ..⟩, hlead, hinner,
    as, "", has, hlookup "name", .tags "" (lead ++ inner) ""⟩

end WaylandDoc
