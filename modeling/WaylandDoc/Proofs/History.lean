import WaylandDoc.Proofs.Call

/-!
# Histories

What the calls so far say of themselves, without a builder: how many nodes were started, which of
them are current and which elements are open. A history lists the calls with the latest first.

* A node is current if it was started and no later call ends it (`stillOpen`).
* Nodes are counted from the last start tag that begins a new list of them.
* `target` is the node that a description is for if it starts now.
-/

namespace WaylandDoc

/-- The kind of messages that the element declares. -/
def Element.messageKind? : Element → Option MessageKind
  | request => some .request
  | event => some .event
  | _ => none

theorem Element.beq_element (e : Element) (kind : MessageKind) :
    (e == kind.element) = (e.messageKind? == some kind) := by
  cases e <;> cases kind <;> rfl

namespace Call

/-- The element of the schema that the call starts. -/
def started? : Call → Option Element
  | start tag => Element.ofName? (localName (Tag.name tag))
  | _ => none

def closed? : Call → Option Element
  | close name => Element.ofName? name
  | _ => none

def starts (e : Element) (c : Call) : Bool := c.started? == some e

def closes (e : Element) (c : Call) : Bool := c.closed? == some e

def startsMessage (c : Call) : Bool := c.starts .request || c.starts .event

def closesMessage (c : Call) : Bool := c.closes .request || c.closes .event

def messageKind? (c : Call) : Option MessageKind := c.started?.bind Element.messageKind?

section Start

variable {tag : Bytes} {e : Element} (h : Element.ofName? (localName (Tag.name tag)) = some e)
include h

theorem started?_start : (start tag).started? = some e := h

theorem starts_start (e' : Element) : (start tag).starts e' = (e == e') := by
  simp [starts, started?_start h]

theorem startsMessage_start : (start tag).startsMessage = e.messageKind?.isSome := by
  simp only [startsMessage, starts_start h]
  cases e <;> rfl

theorem messageKind?_start : (start tag).messageKind? = e.messageKind? := by
  rw [messageKind?, started?_start h]
  rfl

end Start

theorem closes_close (name : Bytes) (e : Element) :
    (close name).closes e = (Element.ofName? name == some e) := rfl

@[simp] theorem starts_close (name : Bytes) (e : Element) : (close name).starts e = false := rfl

@[simp] theorem starts_text (s : String) (e : Element) : (text s).starts e = false := rfl

@[simp] theorem closes_start (tag : Bytes) (e : Element) : (start tag).closes e = false := rfl

@[simp] theorem closes_text (s : String) (e : Element) : (text s).closes e = false := rfl

@[simp] theorem startsMessage_close (name : Bytes) : (close name).startsMessage = false := rfl

@[simp] theorem startsMessage_text (s : String) : (text s).startsMessage = false := rfl

@[simp] theorem closesMessage_start (tag : Bytes) : (start tag).closesMessage = false := rfl

@[simp] theorem closesMessage_text (s : String) : (text s).closesMessage = false := rfl

@[simp] theorem messageKind?_close (name : Bytes) : (close name).messageKind? = none := rfl

@[simp] theorem messageKind?_text (s : String) : (text s).messageKind? = none := rfl

end Call

open Call (starts closes startsMessage closesMessage)

/-- The element has a text that is stored: no second one may start inside of it. -/
def isCollected (name : Bytes) : Bool :=
  Element.ofName? name == some .copyright || Element.ofName? name == some .description

/-- The calls so far, the latest first. -/
abbrev History := List Call

namespace History

/-! ## Counts -/

/-- The calls after the latest that starts a new list. -/
def since (begins : Call → Bool) (past : History) : History := past.takeWhile (!begins ·)

def interfaceCount (past : History) : Nat := past.countP (starts .interface)

/-- The messages of the kind in the current interface. -/
def messageCount (past : History) (kind : MessageKind) : Nat :=
  (past.since (starts .interface)).countP (starts kind.element)

/-- The enums in the current interface. -/
def enumCount (past : History) : Nat :=
  (past.since (starts .interface)).countP (starts .enum)

/-- The arguments of the latest message. -/
def argCount (past : History) : Nat := (past.since startsMessage).countP (starts .arg)

/-- The entries of the latest enum. -/
def entryCount (past : History) : Nat := (past.since (starts .enum)).countP (starts .entry)

/-- The kind of the latest message. -/
def latestKind : History → MessageKind
  | [] => .request
  | c :: past => c.messageKind?.getD (latestKind past)

/-! ## Current nodes -/

/-- The latest call that `begins` has no later one that `ends`. -/
def stillOpen (begins ends : Call → Bool) : History → Bool
  | [] => false
  | c :: past => begins c || (!ends c && stillOpen begins ends past)

def hasProtocol (past : History) : Bool := past.any (starts .protocol)

def hasInterface (past : History) : Bool := past.any (starts .interface)

def hasMessage : History → Bool :=
  stillOpen startsMessage fun c => c.starts .interface || c.closesMessage

def hasArg : History → Bool :=
  stillOpen (starts .arg) fun c =>
    c.startsMessage || c.starts .interface || c.closes .arg || c.closesMessage

def hasEnum : History → Bool :=
  stillOpen (starts .enum) fun c => c.starts .interface || c.closes .enum

def hasEntry : History → Bool :=
  stillOpen (starts .entry) fun c =>
    c.starts .enum || c.starts .interface || c.closes .entry || c.closes .enum

/-- The node that a description is for: the first that is current of an entry, an argument, a
message, an enum and the latest interface, or else the protocol. -/
def target (past : History) : Place :=
  let i := past.interfaceCount - 1
  let kind := past.latestKind
  let m := past.messageCount kind - 1
  let e := past.enumCount - 1
  if past.hasEntry then .entry i e (past.entryCount - 1)
  else if past.hasArg then .arg i kind m (past.argCount - 1)
  else if past.hasMessage then .message i kind m
  else if past.hasEnum then .enum i e
  else if past.hasInterface then .interface i
  else .protocol

/-! ### One more call -/

section Cons

variable (c : Call) (past : History)

@[simp] theorem interfaceCount_cons :
    interfaceCount (c :: past) = past.interfaceCount + if c.starts .interface then 1 else 0 :=
  List.countP_cons

@[simp] theorem messageCount_cons (kind : MessageKind) :
    messageCount (c :: past) kind = if c.starts .interface then 0
      else past.messageCount kind + if c.starts kind.element then 1 else 0 := by
  cases h : c.starts .interface <;> simp [messageCount, since, h, List.countP_cons]

@[simp] theorem enumCount_cons :
    enumCount (c :: past) = if c.starts .interface then 0
      else past.enumCount + if c.starts .enum then 1 else 0 := by
  cases h : c.starts .interface <;> simp [enumCount, since, h, List.countP_cons]

@[simp] theorem argCount_cons :
    argCount (c :: past) = if c.startsMessage then 0
      else past.argCount + if c.starts .arg then 1 else 0 := by
  cases h : c.startsMessage <;> simp [argCount, since, h, List.countP_cons]

@[simp] theorem entryCount_cons :
    entryCount (c :: past) = if c.starts .enum then 0
      else past.entryCount + if c.starts .entry then 1 else 0 := by
  cases h : c.starts .enum <;> simp [entryCount, since, h, List.countP_cons]

@[simp] theorem latestKind_cons :
    latestKind (c :: past) = c.messageKind?.getD past.latestKind := rfl

@[simp] theorem hasProtocol_cons :
    hasProtocol (c :: past) = (c.starts .protocol || past.hasProtocol) := rfl

@[simp] theorem hasInterface_cons :
    hasInterface (c :: past) = (c.starts .interface || past.hasInterface) := rfl

@[simp] theorem hasMessage_cons :
    hasMessage (c :: past) =
      (c.startsMessage || (!(c.starts .interface || c.closesMessage) && past.hasMessage)) := rfl

@[simp] theorem hasArg_cons :
    hasArg (c :: past) = (c.starts .arg ||
      (!(c.startsMessage || c.starts .interface || c.closes .arg || c.closesMessage) &&
        past.hasArg)) := rfl

@[simp] theorem hasEnum_cons :
    hasEnum (c :: past) =
      (c.starts .enum || (!(c.starts .interface || c.closes .enum) && past.hasEnum)) := rfl

@[simp] theorem hasEntry_cons :
    hasEntry (c :: past) = (c.starts .entry ||
      (!(c.starts .enum || c.starts .interface || c.closes .entry || c.closes .enum) &&
        past.hasEntry)) := rfl

end Cons

/-! ## Open elements -/

/-- The local names of the open elements, the innermost first. -/
def openNames : History → List Bytes
  | [] => []
  | .start tag :: past => localName (Tag.name tag) :: openNames past
  | .close _ :: past => (openNames past).tail
  | .text _ :: past => openNames past

/-- Every end tag was that of the innermost open element. -/
def Nested : History → Prop
  | [] => True
  | .close name :: past => (openNames past).head? = some name ∧ Nested past
  | .start _ :: past => Nested past
  | .text _ :: past => Nested past

/-- A copyright or a description is open. -/
def collecting (past : History) : Bool := past.openNames.any isCollected

theorem Nested.of_append {future past : History} (h : Nested (future ++ past)) : past.Nested := by
  induction future with
  | nil => exact h
  | cons c future ih =>
    cases c with
    | start tag => exact ih h
    | close name => exact ih h.2
    | text s => exact ih h

theorem openNames_texts (ss : List String) (past : History) :
    openNames (ss.map .text ++ past) = openNames past := by
  induction ss with
  | nil => rfl
  | cons s ss ih => exact ih

theorem nested_texts {ss : List String} {past : History} (h : past.Nested) :
    Nested (ss.map .text ++ past) := by
  induction ss with
  | nil => exact h
  | cons s ss ih => exact ih

/-- A token that fits the open elements keeps the history of its calls nested. -/
theorem nested_of_nest {past : History} {names names' : List Bytes} {t : Token}
    (h : past.Nested) (hopen : past.openNames = names.map localName)
    (ht : t.nest names = some names') :
    Nested (t.calls.reverse ++ past) ∧
      openNames (t.calls.reverse ++ past) = names'.map localName := by
  have texts (ss : List String) (hn : names = names') :
      Nested ((ss.map Call.text).reverse ++ past) ∧
        openNames ((ss.map Call.text).reverse ++ past) = names'.map localName := by
    rw [← List.map_reverse, openNames_texts, ← hn]
    exact ⟨nested_texts h, hopen⟩
  cases t with
  | start tag =>
    cases ht
    exact ⟨h, congrArg _ hopen⟩
  | empty tag =>
    cases ht
    exact ⟨⟨rfl, h⟩, hopen⟩
  | close tag =>
    rw [Token.nest_close_eq_some] at ht
    subst ht
    exact ⟨⟨by simp [hopen], h⟩, by simp [Token.calls, openNames, hopen]⟩
  | text data => exact texts _ (Option.some.inj ht)
  | cdata data => exact texts _ (Option.some.inj ht)
  | reference name => exact texts _ (Option.some.inj ht)
  | aside markup => exact texts [] (Option.some.inj ht)

theorem nested_of_openAfter {past : History} {names names' : List Bytes} {ts : List Token}
    (h : past.Nested) (hopen : past.openNames = names.map localName)
    (hts : Token.openAfter names ts = some names') :
    Nested ((ts.flatMap Token.calls).reverse ++ past) ∧
      openNames ((ts.flatMap Token.calls).reverse ++ past) = names'.map localName := by
  induction ts generalizing past names with
  | nil =>
    cases hts
    exact ⟨h, hopen⟩
  | cons t ts ih =>
    rw [Token.openAfter_cons, Option.bind_eq_some_iff] at hts
    obtain ⟨names₁, ht, hts⟩ := hts
    obtain ⟨h₁, hopen₁⟩ := nested_of_nest h hopen ht
    simpa using ih h₁ hopen₁ hts

/-- The calls of balanced tokens are nested and leave no element open. -/
theorem nested_of_balanced {ts : List Token} (h : Token.Balanced ts) :
    Nested (ts.flatMap Token.calls).reverse ∧ openNames (ts.flatMap Token.calls).reverse = [] := by
  have hnil : Nested [] := trivial
  simpa using nested_of_openAfter hnil rfl h

end History

end WaylandDoc
