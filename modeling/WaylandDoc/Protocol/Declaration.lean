import WaylandDoc.Protocol.Error
import WaylandDoc.Protocol.Notice

/-!
# Declarations

The node that the attributes of its start tag declare, before it has children or a description.
Of attributes with one local name the last counts, and unknown ones do not. Every rule of the
schema that looks at one tag alone is checked here, in a fixed order.
-/

namespace WaylandDoc

open Attribute (find?)

/-- The value of an attribute that names a version, if it is given. -/
def version? (attributes : List Attribute) (name : String)
    (invalid : String → Numeral.Fault → SchemaError) : Except SchemaError (Option UInt32) :=
  match find? attributes name with
  | none => .ok none
  | some text =>
    match Numeral.read .decimal text with
    | .ok version => .ok (some version)
    | .error fault => .error (invalid text fault)

def bool? : String → Option Bool
  | "true" => some true
  | "false" => some false
  | _ => none

/-- The value of the attribute `name`, which has to be given. -/
def required (attributes : List Attribute) (name : String) (missing : SchemaError) :
    Except SchemaError String :=
  match find? attributes name with
  | some value => .ok value
  | none => .error missing

def Protocol.declare (attributes : List Attribute) : Except SchemaError Protocol := do
  let name ← required attributes "name" .missingProtocolName
  return { name, uppercaseName := upperCase name }

def Interface.declare (attributes : List Attribute) : Except SchemaError Interface := do
  let name ← required attributes "name" (.missingName .interface)
  let text ← required attributes "version" (.missingVersion name)
  match Numeral.read .decimal text with
  | .error fault => .error (.invalidVersion name text fault)
  | .ok version =>
    if version = 0 then .error (.zeroVersion name)
    else .ok { name, uppercaseName := upperCase name, version }

/-- Messages have no type but `destructor`. -/
def isDestructor (attributes : List Attribute) : Bool :=
  find? attributes "type" == some "destructor"

/-- Tells of the type of a message if it is not one; a message without a name is not told of. -/
def Message.typeNotices (kind : MessageKind) (attributes : List Attribute) : List Notice :=
  match find? attributes "name", find? attributes "type" with
  | some name, some type =>
    if isDestructor attributes then [] else [.unknownType type kind name]
  | _, _ => []

/-- Messages named `destroy` have to be destructors. A message is as old as its interface unless
its version is given. -/
def Message.declare (kind : MessageKind) (attributes : List Attribute) :
    Except SchemaError Message := do
  let name ← required attributes "name" (.missingName kind.element)
  if name = "destroy" ∧ !isDestructor attributes then .error (.destroyNotDestructor kind name)
  else
    let since ← version? attributes "since" (.invalidSince name)
    let deprecatedSince ← version? attributes "deprecated-since" (.invalidDeprecatedSince name)
    return {
      name, uppercaseName := upperCase name, since := since.getD 1, deprecatedSince
      destructor := isDestructor attributes }

/-- Whether an argument may be null: only where its type leaves that open. -/
def Arg.nullable? (name : String) (type : ArgType) (attributes : List Attribute) :
    Except SchemaError Bool :=
  match find? attributes "allow-null" with
  | none => .ok false
  | some value =>
    if !type.isNullable then .error (.allowNullNotAllowed name type)
    else
      match bool? value with
      | some b => .ok b
      | none => .error (.invalidAllowNull name value)

def Arg.declare (attributes : List Attribute) : Except SchemaError Arg := do
  let name ← required attributes "name" (.missingName .arg)
  let typeName ← required attributes "type" (.missingArgType name)
  match ArgType.ofName? typeName with
  | none => .error (.unknownArgType name typeName)
  | some type =>
    let interface := find? attributes "interface"
    if interface.isSome ∧ !type.hasInterface then .error (.interfaceNotAllowed name type)
    else
      let nullable ← Arg.nullable? name type attributes
      return {
        name, type, nullable, interface
        enum := find? attributes "enum"
        summary := find? attributes "summary" }

def Enum.bitfield? (name : String) (attributes : List Attribute) : Except SchemaError Bool :=
  match find? attributes "bitfield" with
  | none => .ok false
  | some value =>
    match bool? value with
    | some b => .ok b
    | none => .error (.invalidBitfield name value)

def Enum.declare (attributes : List Attribute) : Except SchemaError Enum := do
  let name ← required attributes "name" (.missingName .enum)
  let since ← version? attributes "since" (.invalidSince name)
  let bitfield ← Enum.bitfield? name attributes
  return { name, uppercaseName := upperCase name, since, bitfield }

def Entry.declare (attributes : List Attribute) : Except SchemaError Entry := do
  let name ← required attributes "name" (.missingName .entry)
  let since ← version? attributes "since" (.invalidSince name)
  return {
    name, uppercaseName := upperCase name, since
    value := (find? attributes "value").getD ""
    summary := find? attributes "summary" }

end WaylandDoc
