import WaylandDoc.Document

/-!
# The calls of a document

Reading a document comes down to the calls that it makes to a builder: one for every start tag,
end tag and piece of character data, in document order. An empty tag is a start tag and its end
tag. A document is accepted if its tokens can be cut out and decoded, its tags are balanced and
the builder takes all calls (`parse_eq_ok_iff`).
-/

namespace WaylandDoc

/-- What a builder is told. -/
inductive Call where
  | start (tag : Bytes)
  /-- The end tag of an element with the local name. -/
  | close (name : Bytes)
  | text (s : String)
  deriving DecidableEq, Repr

namespace Builder

def apply (b : Builder) : Call → Except SchemaError Builder
  | .start tag => (b.start tag).result
  | .close name => b.close name
  | .text s => .ok (b.text s)

def applyAll (b : Builder) (calls : List Call) : Except SchemaError Builder :=
  calls.foldlM apply b

@[simp] theorem applyAll_nil (b : Builder) : b.applyAll [] = .ok b := rfl

@[simp] theorem applyAll_cons_eq_ok {b b' : Builder} {c : Call} {cs : List Call} :
    b.applyAll (c :: cs) = .ok b' ↔ ∃ b₁, b.apply c = .ok b₁ ∧ b₁.applyAll cs = .ok b' := by
  rw [applyAll, List.foldlM_cons, bind_eq_ok]
  rfl

theorem applyAll_append (b : Builder) (cs ds : List Call) :
    b.applyAll (cs ++ ds) = b.applyAll cs >>= (·.applyAll ds) := List.foldlM_append

theorem applyAll_append_eq_ok {b b' : Builder} {cs ds : List Call} :
    b.applyAll (cs ++ ds) = .ok b' ↔ ∃ b₁, b.applyAll cs = .ok b₁ ∧ b₁.applyAll ds = .ok b' := by
  rw [applyAll_append, bind_eq_ok]

theorem text_text (b : Builder) (s u : String) : (b.text s).text u = b.text (s ++ u) := by
  cases h : b.pending <;> simp [text, h, String.append_assoc]

theorem text_empty (b : Builder) : b.text "" = b := by
  obtain ⟨protocol, interface, message, arg, enum, entry, pending⟩ := b
  cases pending <;> simp [text]

end Builder

namespace Token

/-- The calls of the token. Character data that cannot be decoded makes none. -/
def calls : Token → List Call
  | start tag => [.start tag]
  | empty tag => [.start tag, .close (localName (Tag.name tag))]
  | close tag => [.close (localName (Tag.endName tag))]
  | text data => (Reading.decode data).toOption.toList.map .text
  | cdata data => (Reading.decode data).toOption.toList.map .text
  | reference name => (Reading.resolve name).toOption.toList.map .text
  | aside _ => []

/-- Character data is UTF-8 and a reference stands for a character. -/
def Readable : Token → Prop
  | text data => ∃ s, Reading.decode data = .ok s
  | cdata data => ∃ s, Reading.decode data = .ok s
  | reference name => ∃ s, Reading.resolve name = .ok s
  | _ => True

/-- The names of the elements that are open after the token, the innermost first, if `names` were
before; none if it is the end tag of another element than the innermost. -/
def nest (names : List Bytes) : Token → Option (List Bytes)
  | start tag => some (Tag.name tag :: names)
  | close tag => if names.head? = some (Tag.endName tag) then some names.tail else none
  | _ => some names

/-- The elements that are open after the tokens, the innermost first, unless tags mismatch. -/
def openAfter (names : List Bytes) (ts : List Token) : Option (List Bytes) := ts.foldlM nest names

/-- Every end tag is that of the innermost open element, and none stays open. -/
def Balanced (ts : List Token) : Prop := openAfter [] ts = some []

@[simp] theorem openAfter_nil (names : List Bytes) : openAfter names [] = some names := rfl

theorem openAfter_cons (names : List Bytes) (t : Token) (ts : List Token) :
    openAfter names (t :: ts) = (nest names t).bind (openAfter · ts) := rfl

theorem openAfter_append (names : List Bytes) (ts us : List Token) :
    openAfter names (ts ++ us) = (openAfter names ts).bind (openAfter · us) := List.foldlM_append

theorem nest_close_eq_some {names names' : List Bytes} {tag : Bytes} :
    nest names (.close tag) = some names' ↔ names = Tag.endName tag :: names' := by
  cases names with
  | nil => simp [nest]
  | cons name outer =>
    simp only [nest, List.head?_cons, Option.some.injEq, List.tail_cons, List.cons.injEq]
    split <;> simp_all

end Token

namespace Reading

open Token (calls Readable nest openAfter)

theorem closeName_eq_ok {names names' : List Bytes} {name : Bytes} :
    closeName names name = .ok names' ↔ names = name :: names' := by
  cases names with
  | nil => simp [closeName]
  | cons n outer =>
    simp only [closeName, List.cons.injEq]
    split <;> simp_all

theorem addText_eq_ok {r r' : Reading} {t : Token} {text : Except DocumentError String} :
    r.addText t text = .ok r' ↔ ∃ s, text = .ok s ∧
      r' = { r with offset := r.offset + t.width, builder := r.builder.text s } := by
  cases text <;> simp [addText, eq_comm]

/-- The depth counts the open elements. -/
def Counted (r : Reading) : Prop := r.depth = r.openNames.length

theorem counted_mk (offset : Nat) (names : List Bytes) (b : Builder) :
    Counted ⟨offset, names, names.length, b⟩ := rfl

/-- A token of character data, if it is decoded to `text`. -/
theorem addText_eq_ok_of_calls {r r' : Reading} {t : Token} {text : Except DocumentError String}
    (hr : r.Counted) (hcalls : t.calls = text.toOption.toList.map .text)
    (hread : t.Readable ↔ ∃ s, text = .ok s) (hnest : nest r.openNames t = some r.openNames) :
    r.addText t text = .ok r' ↔ t.Readable ∧ ∃ names b, nest r.openNames t = some names ∧
      r.builder.applyAll t.calls = .ok b ∧ r' = ⟨r.offset + t.width, names, names.length, b⟩ := by
  have hdepth : r.depth = r.openNames.length := hr
  rw [addText_eq_ok, hread, hcalls, hnest]
  cases text <;> simp [Except.toOption, Builder.apply, hdepth]

/-- A token is read if it can be decoded, fits the open elements and its calls are taken. -/
theorem step_eq_ok {r r' : Reading} {t : Token} (hr : r.Counted) :
    (r.step t).result = .ok r' ↔ t.Readable ∧ ∃ names b, nest r.openNames t = some names ∧
      r.builder.applyAll t.calls = .ok b ∧ r' = ⟨r.offset + t.width, names, names.length, b⟩ := by
  have hdepth : r.depth = r.openNames.length := hr
  cases t with
  | start tag => simp [step, Readable, nest, calls, Builder.apply, hdepth, @eq_comm _ _ r']
  | empty tag =>
    simp [step, Readable, nest, calls, Builder.apply, hdepth, @eq_comm _ _ r']
    grind
  | close tag =>
    simp [step, Readable, calls, Builder.apply, hdepth, Token.nest_close_eq_some, closeName_eq_ok,
      @eq_comm _ _ r']
    grind
  | text data => exact addText_eq_ok_of_calls hr rfl .rfl rfl
  | cdata data => exact addText_eq_ok_of_calls hr rfl .rfl rfl
  | reference name => exact addText_eq_ok_of_calls hr rfl .rfl rfl
  | aside markup => simp [step, Readable, nest, calls, hdepth, @eq_comm _ _ r']

/-- Tokens are read if each of them can be decoded, they fit the open elements and their calls are
taken. -/
theorem run_eq_ok {r r' : Reading} {ts : List Token} (hr : r.Counted) :
    (r.run ts).result = .ok r' ↔ (∀ t ∈ ts, t.Readable) ∧ ∃ names b,
      openAfter r.openNames ts = some names ∧ r.builder.applyAll (ts.flatMap calls) = .ok b ∧
      r' = ⟨ts.foldl (fun n t => n + t.width) r.offset, names, names.length, b⟩ := by
  rw [run_eq_foldlM]
  induction ts generalizing r with
  | nil =>
    obtain ⟨offset, openNames, depth, builder⟩ := r
    have hdepth : depth = openNames.length := hr
    simp [hdepth, @eq_comm _ _ r']
  | cons t ts ih =>
    simp only [List.foldlM_cons, Logged.result_bind_eq_ok, step_eq_ok hr, List.forall_mem_cons,
      Token.openAfter_cons, Option.bind_eq_some_iff, List.flatMap_cons,
      Builder.applyAll_append_eq_ok, List.foldl_cons]
    constructor
    · rintro ⟨_, ⟨ht, names, b, hn, hb, rfl⟩, h⟩
      obtain ⟨hts, names', b', hn', hb', rfl⟩ := (ih (counted_mk ..)).1 h
      exact ⟨⟨ht, hts⟩, names', b', ⟨names, hn, hn'⟩, ⟨b, hb, hb'⟩, rfl⟩
    · rintro ⟨⟨ht, hts⟩, names', b', ⟨names, hn, hn'⟩, ⟨b, hb, hb'⟩, rfl⟩
      exact ⟨_, ⟨ht, names, b, hn, hb, rfl⟩,
        (ih (counted_mk ..)).2 ⟨hts, names', b', hn', hb', rfl⟩⟩

end Reading

/-- The calls of a document, as far as it can be cut into tokens. -/
def calls (input : Bytes) : List Call := (Token.lex (dropMark input)).1.flatMap Token.calls

/-- What has to be in order for a document to be accepted. -/
theorem parse_eq_ok_iff {input : Bytes} {p : Protocol} :
    (parse input).result = .ok p ↔ ∃ ts, Token.lex (dropMark input) = (ts, .complete) ∧
      Token.Balanced ts ∧ (∀ t ∈ ts, t.Readable) ∧
      ∃ b, Builder.applyAll {} (ts.flatMap Token.calls) = .ok b ∧ b.protocol = some p := by
  rcases h : Token.lex (dropMark input) with ⟨ts, ending⟩
  have hrun (r : Reading) := @Reading.run_eq_ok {} r ts rfl
  simp only [parse, h, Logged.result_mapError, mapError_eq_ok, Logged.result_bind_eq_ok, hrun,
    Logged.result_monadLift, Prod.mk.injEq]
  constructor
  · rintro ⟨_, ⟨hts, names, b, hn, hb, rfl⟩, hf⟩
    cases ending with
    | broken e width => simp [Reading.finish] at hf
    | complete =>
      cases names with
      | cons name names => simp [Reading.finish] at hf
      | nil =>
        refine ⟨ts, ⟨rfl, rfl⟩, hn, hts, b, hb, ?_⟩
        cases hp : b.protocol with
        | none => simp [Reading.finish, Builder.finish, hp] at hf
        | some q => simpa [Reading.finish, Builder.finish, hp] using hf
  · rintro ⟨_, ⟨rfl, rfl⟩, hn, hts, b, hb, hp⟩
    exact ⟨_, ⟨hts, [], b, hn, hb, rfl⟩, by simp [Reading.finish, Builder.finish, hp]⟩

end WaylandDoc
