import WaylandDoc.Protocol.ArgType

/-!
# Protocols

The tree of a protocol description. A protocol has interfaces; an interface has requests, events
and enums; requests and events have arguments, enums have entries. Children are kept in document
order, and every node may have a description.
-/

namespace WaylandDoc

structure Description where
  summary : String
  body : String
  deriving DecidableEq, Repr

structure Arg where
  name : String
  type : ArgType
  nullable : Bool := false
  interface : Option String := none
  enum : Option String := none
  summary : Option String := none
  description : Option Description := none
  deriving DecidableEq, Repr

/-- A request or an event. -/
structure Message where
  name : String
  uppercaseName : String
  args : List Arg := []
  /-- The number of arguments that create an object. -/
  newIdCount : UInt32 := 0
  since : UInt32 := 1
  deprecatedSince : Option UInt32 := none
  destructor : Bool := false
  description : Option Description := none
  deriving DecidableEq, Repr

structure Entry where
  name : String
  uppercaseName : String
  value : String
  summary : Option String := none
  since : Option UInt32 := none
  description : Option Description := none
  deriving DecidableEq, Repr

structure Enum where
  name : String
  uppercaseName : String
  since : Option UInt32 := none
  bitfield : Bool := false
  description : Option Description := none
  entries : List Entry := []
  deriving DecidableEq, Repr

structure Interface where
  name : String
  uppercaseName : String
  version : UInt32
  /-- The version of the message that was added last. -/
  since : UInt32 := 1
  description : Option Description := none
  requests : List Message := []
  events : List Message := []
  enums : List Enum := []
  deriving DecidableEq, Repr

structure Protocol where
  name : String
  uppercaseName : String
  copyright : Option String := none
  description : Option Description := none
  interfaces : List Interface := []
  deriving DecidableEq, Repr

inductive MessageKind where
  | request
  | event
  deriving DecidableEq, Repr

/-! ## Upper case -/

/-- The name with ASCII letters in upper case. -/
def upperCase (name : String) : String := .ofList (name.toList.map Char.toUpper)

/-- The letters `a` to `z` become `A` to `Z`, 32 code points below; no other character changes. -/
inductive IsUpperChar : Char → Char → Prop where
  | letter {c u : Char} (hfirst : 'a' ≤ c) (hlast : c ≤ 'z') (hu : u.toNat + 32 = c.toNat) :
    IsUpperChar c u
  | other {c : Char} (h : c < 'a' ∨ 'z' < c) : IsUpperChar c c

/-- `upper` is `name` in upper case, character by character. -/
structure IsUpperCase (name upper : String) : Prop where
  length : upper.toList.length = name.toList.length
  chars : ∀ cu ∈ name.toList.zip upper.toList, IsUpperChar cu.1 cu.2

section UpperCase

variable {c u : Char}

theorem toNat_toUpper (hfirst : 'a' ≤ c) (hlast : c ≤ 'z') :
    c.toUpper.toNat + 32 = c.toNat := by
  have hvals : 'a'.val ≤ c.val ∧ c.val ≤ 'z'.val := ⟨hfirst, hlast⟩
  have hshift : ('A'.val - 'a'.val).toNat = 2 ^ 32 - 32 := rfl
  have hupper : c.toUpper.val = c.val + ('A'.val - 'a'.val) := by
    delta Char.toUpper
    rw [dif_pos hvals]
  have hmin : 97 ≤ c.val.toNat := UInt32.le_iff_toNat_le.1 hfirst
  have hmax : c.val.toNat ≤ 122 := UInt32.le_iff_toNat_le.1 hlast
  rw [Char.toNat, hupper, UInt32.toNat_add, hshift, Char.toNat]
  omega

theorem toUpper_eq_self (h : c < 'a' ∨ 'z' < c) : c.toUpper = c :=
  dif_neg fun hc => h.elim (Char.not_lt.2 hc.1) (Char.not_lt.2 hc.2)

theorem isUpperChar_iff : IsUpperChar c u ↔ u = c.toUpper := by
  constructor
  · rintro (⟨hfirst, hlast, hu⟩ | h)
    · have := toNat_toUpper hfirst hlast
      exact Char.toNat_inj.1 (by omega)
    · exact (toUpper_eq_self h).symm
  · rintro rfl
    by_cases h : 'a' ≤ c ∧ c ≤ 'z'
    · exact .letter h.1 h.2 (toNat_toUpper h.1 h.2)
    · rw [Decidable.not_and_iff_or_not, Char.not_le, Char.not_le] at h
      rw [toUpper_eq_self h]
      exact .other h

/-- A name has one upper case, and `upperCase` gives it. -/
theorem isUpperCase_iff {name upper : String} :
    IsUpperCase name upper ↔ upper = upperCase name := by
  rw [← String.toList_inj, upperCase, String.toList_ofList]
  constructor
  · rintro ⟨hlength, hchars⟩
    refine List.ext_getElem (by simpa using hlength) fun i hi hi' => ?_
    have hmem : (name.toList[i], upper.toList[i]) ∈ name.toList.zip upper.toList := by
      rw [List.length_map] at hi'
      exact List.mem_iff_getElem.2 ⟨i, by simp; omega, by simp⟩
    rw [List.getElem_map]
    exact isUpperChar_iff.1 (hchars _ hmem)
  · intro h
    refine ⟨by rw [h, List.length_map], fun cu hcu => ?_⟩
    obtain ⟨i, hi, rfl⟩ := List.mem_iff_getElem.1 hcu
    rw [isUpperChar_iff, List.getElem_zip]
    simp [h]

theorem IsUpperCase.eq {name upper : String} (h : IsUpperCase name upper) :
    upper = upperCase name := isUpperCase_iff.1 h

theorem isUpperCase_upperCase (name : String) : IsUpperCase name (upperCase name) :=
  isUpperCase_iff.2 rfl

instance (name upper : String) : Decidable (IsUpperCase name upper) :=
  decidable_of_iff _ isUpperCase_iff.symm

end UpperCase

/-! ## Adding children -/

/-- Adds an argument at the end. -/
def Message.addArg (m : Message) (arg : Arg) : Message :=
  { m with
    args := m.args ++ [arg]
    newIdCount := if arg.type = .newId then m.newIdCount + 1 else m.newIdCount }

/-- Adds an entry at the end. -/
def Enum.addEntry (e : Enum) (entry : Entry) : Enum := { e with entries := e.entries ++ [entry] }

namespace Interface

def messages (i : Interface) : MessageKind → List Message
  | .request => i.requests
  | .event => i.events

def modifyMessages (i : Interface) (kind : MessageKind) (f : List Message → List Message) :
    Interface :=
  match kind with
  | .request => { i with requests := f i.requests }
  | .event => { i with events := f i.events }

/-- Adds a message at the end of the list of its kind. -/
def addMessage (i : Interface) (kind : MessageKind) (m : Message) : Interface :=
  { i.modifyMessages kind (· ++ [m]) with since := m.since }

/-- Adds an enum at the end. -/
def addEnum (i : Interface) (e : Enum) : Interface := { i with enums := i.enums ++ [e] }

end Interface

/-- Adds an interface at the end. -/
def Protocol.addInterface (p : Protocol) (i : Interface) : Protocol :=
  { p with interfaces := p.interfaces ++ [i] }

end WaylandDoc
