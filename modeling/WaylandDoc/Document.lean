import WaylandDoc.Markup.Token
import WaylandDoc.Protocol.Builder

/-!
# Documents

`parse` reads a protocol description. The tokens of the document go to a builder one by one;
`Reading` is what is known between two of them. The first token that is in error ends the
reading, and the error is reported with its line. Notices that were written before are kept.
-/

namespace WaylandDoc

inductive DocumentError where
  | unreadable (e : MarkupError)
  | notUtf8 (fault : Utf8.Fault)
  | unknownReference (name : String)
  | unclosedElements (count : Nat)
  | schema (e : SchemaError)
  deriving DecidableEq, Repr

namespace DocumentError

/-- The text of the error and those of its causes. -/
def chain : DocumentError → List String
  | unreadable e => "Could not read the next event" :: e.chain
  | notUtf8 fault => ["Could not decode character data as UTF-8", fault.message]
  | unknownReference name => [s!"Unknown entity reference &{name};"]
  | unclosedElements count => [s!"The document ends with {count} unclosed elements"]
  | schema e => e.chain

def message (e : DocumentError) : String := ": ".intercalate e.chain

end DocumentError

/-- An error and the line it is on. -/
structure ParseError where
  line : Nat
  error : DocumentError
  deriving DecidableEq, Repr

/-- An error and the number of bytes before it. -/
structure Failure where
  offset : Nat
  error : DocumentError
  deriving DecidableEq, Repr

/-- What is known after the first `offset` bytes: the names of the open elements, the innermost
first, how many there are, and the tree so far. -/
structure Reading where
  offset : Nat := 0
  openNames : List Bytes := []
  depth : Nat := 0
  builder : Builder := {}
  deriving DecidableEq, Repr

namespace Reading

/-- The name for an error message, empty if it is not UTF-8. -/
def shown (name : Bytes) : String := (Utf8.decode name).toOption.getD ""

/-- The names that stay open after the end tag of `name`. -/
def closeName (openNames : List Bytes) (name : Bytes) : Except MarkupError (List Bytes) :=
  match openNames with
  | [] => .error (.unmatchedEnd (shown name))
  | innermost :: outer =>
    if innermost = name then .ok outer
    else .error (.mismatchedEnd (shown innermost) (shown name))

def decode (data : Bytes) : Except DocumentError String := (Utf8.decode data).mapError .notUtf8

/-- The text of a reference in character data. -/
def resolve (data : Bytes) : Except DocumentError String := do
  let name ← decode data
  match (Reference.ofName name).inText? with
  | some c => return c.toString
  | none => .error (.unknownReference name)

/-- Reads character data. -/
def addText (r : Reading) (t : Token) (text : Except DocumentError String) :
    Except Failure Reading :=
  match text with
  | .ok s => .ok { r with offset := r.offset + t.width, builder := r.builder.text s }
  | .error e => .error ⟨r.offset, e⟩

/-- Reads one token. Errors are before the token, but a wrong end tag is noticed after it. -/
def step (r : Reading) (t : Token) : Logged Notice Failure Reading :=
  let next := r.offset + t.width
  let schema := Failure.mk r.offset ∘ .schema
  match t with
  | .start tag => do
    let builder ← (r.builder.start tag).mapError schema
    return ⟨next, Tag.name tag :: r.openNames, r.depth + 1, builder⟩
  | .empty tag => do
    let builder ← (r.builder.start tag).mapError schema
    let builder ← (builder.close (localName (Tag.name tag))).mapError schema
    return { r with offset := next, builder }
  | .close tag => do
    let name := Tag.endName tag
    let openNames ← (closeName r.openNames name).mapError (Failure.mk next ∘ .unreadable)
    let builder ← (r.builder.close (localName name)).mapError schema
    return ⟨next, openNames, r.depth - 1, builder⟩
  | .text data => .ofExcept (r.addText t (decode data))
  | .cdata data => .ofExcept (r.addText t (decode data))
  | .reference name => .ofExcept (r.addText t (resolve name))
  | .aside _ => pure { r with offset := next }

/-- Reads the tokens after those that wrote `log`. -/
def runFrom (log : Array Notice) (r : Reading) : List Token → Logged Notice Failure Reading
  | [] => ⟨log.toList, .ok r⟩
  | t :: ts =>
    let x := r.step t
    let log := log ++ x.notices
    match x.result with
    | .ok r => runFrom log r ts
    | .error e => ⟨log.toList, .error e⟩

/-- Reads tokens in order. -/
def run (r : Reading) (ts : List Token) : Logged Notice Failure Reading := runFrom #[] r ts

theorem runFrom_eq (log : Array Notice) (r : Reading) (ts : List Token) :
    runFrom log r ts = ⟨log.toList ++ (ts.foldlM step r).notices, (ts.foldlM step r).result⟩ := by
  induction ts generalizing log r with
  | nil => simp [runFrom, pure]
  | cons t ts ih =>
    simp only [runFrom, List.foldlM_cons, bind, Logged.bind]
    cases h : (r.step t).result with
    | ok r' => simp [ih]
    | error e => simp

/-- Reading tokens is a fold of `step`. -/
theorem run_eq_foldlM (r : Reading) (ts : List Token) : r.run ts = ts.foldlM step r := by
  simp [run, runFrom_eq]

/-- The tree after the last token of a document of `size` bytes. -/
def finish (r : Reading) (size : Nat) : Token.Ending → Except Failure Protocol
  | .complete =>
    if 0 < r.depth then .error ⟨size, .unclosedElements r.depth⟩
    else r.builder.finish.mapError (Failure.mk size ∘ .schema)
  | .broken e width => .error ⟨r.offset + width, .unreadable e⟩

end Reading

/-- The input without a byte order mark at its start. Offsets do not count the mark. -/
def dropMark : Bytes → Bytes
  | 0xEF :: 0xBB :: 0xBF :: s => s
  | s => s

/-- The tree of a protocol description. -/
def parse (input : Bytes) : Logged Notice ParseError Protocol :=
  let (tokens, ending) := Token.lex (dropMark input)
  let tree : Logged Notice Failure Protocol := do
    let r ← Reading.run {} tokens
    r.finish input.length ending
  tree.mapError fun failure => ⟨lineAt input failure.offset, failure.error⟩

end WaylandDoc
