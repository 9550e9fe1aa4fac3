/-!
# Argument types

The eight types of arguments on the wire, each with its name in protocol descriptions and its C
type in generated bindings.
-/

namespace WaylandDoc

inductive ArgType where
  | newId
  | int
  | uint
  | fixed
  | string
  | object
  | array
  | fd
  deriving DecidableEq, Repr

namespace ArgType

def all : List ArgType := [newId, int, uint, fixed, string, object, array, fd]

def name : ArgType → String
  | newId => "new_id"
  | int => "int"
  | uint => "uint"
  | fixed => "fixed"
  | string => "string"
  | object => "object"
  | array => "array"
  | fd => "fd"

def ofName? (name : String) : Option ArgType := all.find? (·.name == name)

theorem ofName?_eq_some {name : String} {t : ArgType} : ofName? name = some t ↔ name = t.name := by
  constructor
  · intro h
    have := List.find?_some h
    exact (beq_iff_eq.1 this).symm
  · rintro rfl
    cases t <;> rfl

/-- The C type of such arguments in generated bindings. -/
def cType : ArgType → String
  | int | fd => "int32_t"
  | uint | newId => "uint32_t"
  | fixed => "wl_fixed_t"
  | string => "const char *"
  | array => "struct wl_array *"
  | object => "object"

/-- Bindings represent arguments of the type by the C type. -/
inductive HasCType : ArgType → String → Prop where
  | int : HasCType .int "int32_t"
  | fd : HasCType .fd "int32_t"
  | uint : HasCType .uint "uint32_t"
  | newId : HasCType .newId "uint32_t"
  | fixed : HasCType .fixed "wl_fixed_t"
  | string : HasCType .string "const char *"
  | array : HasCType .array "struct wl_array *"
  | object : HasCType .object "object"

theorem hasCType_iff {type : ArgType} {c : String} : type.HasCType c ↔ c = type.cType := by
  constructor
  · intro h
    cases h <;> rfl
  · rintro rfl
    cases type <;> constructor

def isNullable : ArgType → Bool
  | string | object | newId | array => true
  | _ => false

theorem isNullable_iff {type : ArgType} :
    type.isNullable ↔ type = .string ∨ type = .object ∨ type = .newId ∨ type = .array := by
  cases type <;> simp [isNullable]

def hasInterface : ArgType → Bool
  | object | newId => true
  | _ => false

theorem hasInterface_iff {type : ArgType} :
    type.hasInterface ↔ type = .object ∨ type = .newId := by
  cases type <;> simp [hasInterface]

end ArgType

end WaylandDoc
