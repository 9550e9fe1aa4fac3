import WaylandDoc.Proofs.Place
import WaylandDoc.Protocol.Declaration

/-!
# Declared nodes

`DeclaredBy` says of each kind of node how its fields come from the attributes of its start tag:
strings as they are, numbers and booleans read from them, with a default where an attribute may be
left out. `declare_eq_ok` lemmas say when attributes declare a node at all.
-/

namespace WaylandDoc

open Attribute (find?)

/-- The value that the tag gives under the name: that of the last attribute with this local name,
if all attributes can be read. -/
def Tag.value? (tag : Bytes) (name : String) : Option String :=
  (Attribute.ofTag tag).toOption.bind (find? · name)

/-- The attributes of the tag can be read and declare `x`. -/
def Declares {α : Type} (declare : List Attribute → Except SchemaError α) (tag : Bytes) (x : α) :
    Prop :=
  ∃ attributes, Attribute.ofTag tag = .ok attributes ∧ declare attributes = .ok x

theorem Tag.value?_eq {tag : Bytes} {as : List Attribute} (h : Attribute.ofTag tag = .ok as)
    (name : String) : Tag.value? tag name = find? as name := by
  rw [Tag.value?, h]
  rfl

/-- The attribute that `find?` finds is the last of its name. -/
theorem Attribute.find?_eq_some {as : List Attribute} {name v : String} :
    find? as name = some v ↔ ∃ before after, as = before ++ ⟨ascii name, v⟩ :: after ∧
      ∀ a ∈ after, a.name ≠ ascii name := by
  simp only [find?, Option.map_eq_some_iff, List.find?_eq_some_iff_append]
  constructor
  · rintro ⟨⟨n, v⟩, ⟨hn, after, before, has, hafter⟩, rfl⟩
    refine ⟨before.reverse, after.reverse, ?_, fun a ha => ?_⟩
    · have := congrArg List.reverse has
      rw [← beq_iff_eq.1 hn]
      simpa using this
    · simpa using hafter a (List.mem_reverse.1 ha)
  · rintro ⟨before, after, rfl, hafter⟩
    refine ⟨⟨ascii name, v⟩, ⟨by simp, after.reverse, before.reverse, by simp, fun a ha => ?_⟩, rfl⟩
    simpa using hafter a (List.mem_reverse.1 ha)

/-! ## Single attributes -/

/-- The version is that in the text, if there is one. -/
def IsVersion : Option String → Option UInt32 → Prop
  | none, version => version = none
  | some text, version => ∃ v, Numeral.read .decimal text = .ok v ∧ version = some v

theorem version?_eq_ok {as : List Attribute} {name : String}
    {invalid : String → Numeral.Fault → SchemaError} {v : Option UInt32} :
    version? as name invalid = .ok v ↔ IsVersion (find? as name) v := by
  cases h : find? as name with
  | none => simp [version?, h, IsVersion, eq_comm]
  | some text =>
    simp only [version?, h, IsVersion]
    cases Numeral.read .decimal text <;> simp [eq_comm]

/-- The boolean is that in the text, and false if there is none. -/
def IsBool : Option String → Bool → Prop
  | none, b => b = false
  | some text, b => text = if b then "true" else "false"

theorem bool?_eq_some {text : String} {b : Bool} :
    bool? text = some b ↔ text = if b then "true" else "false" := by
  unfold bool?
  split <;> cases b <;> simp_all

theorem required_eq_ok {as : List Attribute} {name v : String} {missing : SchemaError} :
    required as name missing = .ok v ↔ find? as name = some v := by
  cases h : find? as name <;> simp [required, h]

theorem bitfield?_eq_ok {name : String} {as : List Attribute} {b : Bool} :
    Enum.bitfield? name as = .ok b ↔ IsBool (find? as "bitfield") b := by
  cases h : find? as "bitfield" with
  | none => simp [Enum.bitfield?, h, IsBool]
  | some text =>
    rw [IsBool, ← bool?_eq_some]
    cases hb : bool? text <;> simp [Enum.bitfield?, h, hb]

theorem nullable?_eq_ok {name : String} {type : ArgType} {as : List Attribute} {b : Bool} :
    Arg.nullable? name type as = .ok b ↔ IsBool (find? as "allow-null") b ∧
      ((find? as "allow-null").isSome → type.isNullable) := by
  cases h : find? as "allow-null" with
  | none => simp [Arg.nullable?, h, IsBool]
  | some text =>
    rw [IsBool, ← bool?_eq_some]
    cases ht : type.isNullable <;> cases hb : bool? text <;> simp [Arg.nullable?, h, ht, hb]

theorem isDestructor_eq_true {as : List Attribute} :
    isDestructor as = true ↔ find? as "type" = some "destructor" := by
  simp [isDestructor]

/-! ## Nodes -/

structure Protocol.DeclaredBy (p : Protocol) (tag : Bytes) : Prop where
  name : Tag.value? tag "name" = some p.name
  uppercaseName : IsUpperCase p.name p.uppercaseName

structure Interface.DeclaredBy (x : Interface) (tag : Bytes) : Prop where
  name : Tag.value? tag "name" = some x.name
  uppercaseName : IsUpperCase x.name x.uppercaseName
  version : ∃ text, Tag.value? tag "version" = some text ∧
    Numeral.read .decimal text = .ok x.version

structure Message.DeclaredBy (m : Message) (tag : Bytes) : Prop where
  name : Tag.value? tag "name" = some m.name
  uppercaseName : IsUpperCase m.name m.uppercaseName
  destructor : m.destructor = true ↔ Tag.value? tag "type" = some "destructor"
  since : ∃ v, IsVersion (Tag.value? tag "since") v ∧ m.since = v.getD 1
  deprecatedSince : IsVersion (Tag.value? tag "deprecated-since") m.deprecatedSince

structure Arg.DeclaredBy (a : Arg) (tag : Bytes) : Prop where
  name : Tag.value? tag "name" = some a.name
  type : Tag.value? tag "type" = some a.type.name
  nullable : IsBool (Tag.value? tag "allow-null") a.nullable
  interface : a.interface = Tag.value? tag "interface"
  enum : a.enum = Tag.value? tag "enum"
  summary : a.summary = Tag.value? tag "summary"

structure Enum.DeclaredBy (e : Enum) (tag : Bytes) : Prop where
  name : Tag.value? tag "name" = some e.name
  uppercaseName : IsUpperCase e.name e.uppercaseName
  since : IsVersion (Tag.value? tag "since") e.since
  bitfield : IsBool (Tag.value? tag "bitfield") e.bitfield

structure Entry.DeclaredBy (n : Entry) (tag : Bytes) : Prop where
  name : Tag.value? tag "name" = some n.name
  uppercaseName : IsUpperCase n.name n.uppercaseName
  value : n.value = (Tag.value? tag "value").getD ""
  summary : n.summary = Tag.value? tag "summary"
  since : IsVersion (Tag.value? tag "since") n.since

/-! ## When attributes declare a node -/

/-- The summary of a description. -/
def Description.declareSummary (attributes : List Attribute) : Except SchemaError String :=
  required attributes "summary" .missingSummary

theorem Protocol.declare_eq_ok {as : List Attribute} {p : Protocol} :
    Protocol.declare as = .ok p ↔ ∃ name, find? as "name" = some name ∧
      p = { name, uppercaseName := upperCase name } := by
  simp only [Protocol.declare, bind_eq_ok, required_eq_ok, pure_eq_ok]
  grind

theorem Interface.declare_eq_ok {as : List Attribute} {x : Interface} :
    Interface.declare as = .ok x ↔ ∃ name text version, find? as "name" = some name ∧
      find? as "version" = some text ∧ Numeral.read .decimal text = .ok version ∧ version ≠ 0 ∧
      x = { name, uppercaseName := upperCase name, version } := by
  simp only [Interface.declare, bind_eq_ok, required_eq_ok]
  constructor
  · rintro ⟨name, hn, text, ht, h⟩
    split at h
    · cases h
    · rename_i version hv
      split at h
      · cases h
      · rename_i h0
        cases h
        exact ⟨name, text, version, hn, ht, hv, h0, rfl⟩
  · rintro ⟨name, text, version, hn, ht, hv, h0, rfl⟩
    exact ⟨name, hn, text, ht, by simp [hv, h0]⟩

theorem Message.declare_eq_ok {kind : MessageKind} {as : List Attribute} {m : Message} :
    Message.declare kind as = .ok m ↔ ∃ name since deprecatedSince,
      find? as "name" = some name ∧ (name = "destroy" → isDestructor as) ∧
      IsVersion (find? as "since") since ∧
      IsVersion (find? as "deprecated-since") deprecatedSince ∧
      m = { name, uppercaseName := upperCase name, since := since.getD 1, deprecatedSince
            destructor := isDestructor as } := by
  simp only [Message.declare, bind_eq_ok, required_eq_ok]
  constructor
  · rintro ⟨name, hn, h⟩
    split at h
    · cases h
    · rename_i hd
      simp only [bind_eq_ok, version?_eq_ok, pure_eq_ok] at h
      obtain ⟨since, hs, deprecatedSince, hds, rfl⟩ := h
      exact ⟨name, since, deprecatedSince, hn, by simpa using hd, hs, hds, rfl⟩
  · rintro ⟨name, since, deprecatedSince, hn, hd, hs, hds, rfl⟩
    refine ⟨name, hn, ?_⟩
    rw [if_neg (by simpa using hd)]
    simp only [bind_eq_ok, version?_eq_ok, pure_eq_ok]
    exact ⟨since, hs, deprecatedSince, hds, rfl⟩

theorem Arg.declare_eq_ok {as : List Attribute} {a : Arg} :
    Arg.declare as = .ok a ↔ ∃ name type nullable, find? as "name" = some name ∧
      find? as "type" = some type.name ∧
      ((find? as "interface").isSome → type.hasInterface) ∧
      IsBool (find? as "allow-null") nullable ∧
      ((find? as "allow-null").isSome → type.isNullable) ∧
      a = { name, type, nullable, interface := find? as "interface", enum := find? as "enum"
            summary := find? as "summary" } := by
  simp only [Arg.declare, bind_eq_ok, required_eq_ok]
  constructor
  · rintro ⟨name, hn, typeName, ht, h⟩
    split at h
    · cases h
    · rename_i type htype
      rw [ArgType.ofName?_eq_some] at htype
      split at h
      · cases h
      · rename_i hi
        simp only [bind_eq_ok, nullable?_eq_ok, pure_eq_ok] at h
        obtain ⟨nullable, ⟨hb, hnull⟩, rfl⟩ := h
        exact ⟨name, type, nullable, hn, htype ▸ ht, by simpa using hi, hb, hnull, rfl⟩
  · rintro ⟨name, type, nullable, hn, ht, hi, hb, hnull, rfl⟩
    refine ⟨name, hn, type.name, ht, ?_⟩
    rw [ArgType.ofName?_eq_some.2 rfl]
    dsimp only
    rw [if_neg (by simpa using hi)]
    simp only [bind_eq_ok, nullable?_eq_ok, pure_eq_ok]
    exact ⟨nullable, ⟨hb, hnull⟩, rfl⟩

theorem Enum.declare_eq_ok {as : List Attribute} {e : Enum} :
    Enum.declare as = .ok e ↔ ∃ name since bitfield, find? as "name" = some name ∧
      IsVersion (find? as "since") since ∧ IsBool (find? as "bitfield") bitfield ∧
      e = { name, uppercaseName := upperCase name, since, bitfield } := by
  simp only [Enum.declare, bind_eq_ok, required_eq_ok, version?_eq_ok, bitfield?_eq_ok,
    pure_eq_ok]
  grind

theorem Entry.declare_eq_ok {as : List Attribute} {n : Entry} :
    Entry.declare as = .ok n ↔ ∃ name since, find? as "name" = some name ∧
      IsVersion (find? as "since") since ∧
      n = { name, uppercaseName := upperCase name, since, value := (find? as "value").getD ""
            summary := find? as "summary" } := by
  simp only [Entry.declare, bind_eq_ok, required_eq_ok, version?_eq_ok, pure_eq_ok]
  grind

/-! ## Declared nodes are fresh and have the fields of their tag -/

theorem Protocol.declaredBy {tag : Bytes} {p : Protocol} (h : Declares Protocol.declare tag p) :
    p.DeclaredBy tag := by
  obtain ⟨as, has, h⟩ := h
  obtain ⟨name, hn, rfl⟩ := Protocol.declare_eq_ok.1 h
  exact ⟨by rwa [Tag.value?_eq has], isUpperCase_upperCase name⟩

theorem Protocol.interfaces_of_declares {tag : Bytes} {p : Protocol}
    (h : Declares Protocol.declare tag p) : p.interfaces = [] := by
  obtain ⟨as, has, h⟩ := h
  obtain ⟨name, hn, rfl⟩ := Protocol.declare_eq_ok.1 h
  rfl

theorem Protocol.slot?_of_declares {tag : Bytes} {p : Protocol}
    (h : Declares Protocol.declare tag p) (q : Place) :
    p.slot? q = if q = .protocol then some none else none := by
  obtain ⟨as, has, h⟩ := h
  obtain ⟨name, hn, rfl⟩ := Protocol.declare_eq_ok.1 h
  cases q <;> simp [slot?, interface?, message?, arg?, enum?, entry?]

theorem Interface.declaredBy {tag : Bytes} {x : Interface}
    (h : Declares Interface.declare tag x) : x.DeclaredBy tag ∧ x.Fresh := by
  obtain ⟨as, has, h⟩ := h
  obtain ⟨name, text, version, hn, ht, hv, -, rfl⟩ := Interface.declare_eq_ok.1 h
  simp only [← Tag.value?_eq has] at hn ht
  exact ⟨⟨hn, isUpperCase_upperCase name, text, ht, hv⟩, rfl, fun kind => by cases kind <;> rfl,
    rfl⟩

theorem Message.declaredBy {tag : Bytes} {kind : MessageKind} {m : Message}
    (h : Declares (Message.declare kind) tag m) : m.DeclaredBy tag ∧ m.Fresh := by
  obtain ⟨as, has, h⟩ := h
  obtain ⟨name, since, deprecatedSince, hn, -, hs, hds, rfl⟩ := Message.declare_eq_ok.1 h
  have hdestructor := @isDestructor_eq_true as
  simp only [← Tag.value?_eq has] at hn hs hds hdestructor
  exact ⟨⟨hn, isUpperCase_upperCase name, hdestructor, ⟨since, hs, rfl⟩, hds⟩, rfl, rfl⟩

theorem Arg.declaredBy {tag : Bytes} {a : Arg} (h : Declares Arg.declare tag a) :
    a.DeclaredBy tag ∧ a.description = none := by
  obtain ⟨as, has, h⟩ := h
  obtain ⟨name, type, nullable, hn, ht, -, hb, -, rfl⟩ := Arg.declare_eq_ok.1 h
  simp only [← Tag.value?_eq has] at hn ht hb ⊢
  exact ⟨⟨hn, ht, hb, rfl, rfl, rfl⟩, trivial⟩

theorem Enum.declaredBy {tag : Bytes} {e : Enum} (h : Declares Enum.declare tag e) :
    e.DeclaredBy tag ∧ e.Fresh := by
  obtain ⟨as, has, h⟩ := h
  obtain ⟨name, since, bitfield, hn, hs, hb, rfl⟩ := Enum.declare_eq_ok.1 h
  simp only [← Tag.value?_eq has] at hn hs hb
  exact ⟨⟨hn, isUpperCase_upperCase name, hs, hb⟩, rfl, rfl⟩

theorem Entry.declaredBy {tag : Bytes} {n : Entry} (h : Declares Entry.declare tag n) :
    n.DeclaredBy tag ∧ n.description = none := by
  obtain ⟨as, has, h⟩ := h
  obtain ⟨name, since, hn, hs, rfl⟩ := Entry.declare_eq_ok.1 h
  simp only [← Tag.value?_eq has] at hn hs ⊢
  exact ⟨⟨hn, isUpperCase_upperCase name, rfl, rfl, hs⟩, trivial⟩

end WaylandDoc
