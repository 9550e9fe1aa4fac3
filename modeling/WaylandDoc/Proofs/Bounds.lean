import WaylandDoc.Proofs.Grounded

/-!
# Bounds

Cursors are indices, and what they lead to is looked up in lists. Here the groundedness of builders
is said in terms of the lists: whatever calls a builder took, well nested or not, each cursor is
within the list that it is for. So a lookup never fails, neither in a call (`inBounds_applyAll`) nor
for a document (`finds_parse`), an end tag is never refused, and where a start tag is, the error is
about this tag (`avoids_start`).
-/

namespace WaylandDoc

/-! ## Errors that no tag is the reason for -/

/-- The computation does not look for a node that is not there. -/
def Finds {α : Type} (x : Except SchemaError α) : Prop := x ≠ .error .danglingCursor

/-- The error says nothing of a single tag. -/
def SchemaError.isGeneral : SchemaError → Bool
  | noProtocol | danglingCursor => true
  | _ => false

/-- The computation does not fail with the error. -/
def Avoids {α : Type} (e : SchemaError) (x : Except SchemaError α) : Prop := x ≠ .error e

section Avoids

variable {α β : Type} {e e' : SchemaError} {x : Except SchemaError α}

theorem avoids_ok (a : α) : Avoids e (.ok a) := nofun

theorem avoids_pure (a : α) : Avoids e (pure a) := avoids_ok a

theorem avoids_error (he : e.isGeneral) (he' : e'.isGeneral = false) :
    Avoids e (.error e' : Except SchemaError α) := by
  rintro ⟨⟩
  cases he.symm.trans he'

theorem Avoids.bind {f : α → Except SchemaError β} (hx : Avoids e x)
    (hf : ∀ a, x = .ok a → Avoids e (f a)) : Avoids e (x >>= f) := by
  intro h
  rcases bind_eq_error.1 h with h | ⟨a, ha, h⟩
  · exact hx h
  · exact hf a ha h

theorem avoids_of_eq_ok {a : α} (h : x = .ok a) : Avoids e x := h ▸ avoids_ok a

end Avoids

/-! ## Declarations -/

section Declare

variable {e : SchemaError} (he : e.isGeneral) {as : List Attribute} {name : String}
include he

theorem avoids_attributes (tag : Bytes) : Avoids e (Builder.attributes tag) := by
  unfold Builder.attributes
  cases Attribute.ofTag tag with
  | ok as => exact avoids_ok as
  | error fault => exact avoids_error he rfl

theorem avoids_required {missing : SchemaError} (h : missing.isGeneral = false) :
    Avoids e (required as name missing) := by
  unfold required
  split
  · exact avoids_ok _
  · exact avoids_error he h

theorem avoids_version? {invalid : String → Numeral.Fault → SchemaError}
    (h : ∀ text fault, (invalid text fault).isGeneral = false) :
    Avoids e (version? as name invalid) := by
  unfold version?
  split
  · exact avoids_ok _
  · split
    · exact avoids_ok _
    · exact avoids_error he (h _ _)

theorem Protocol.avoids_declare : Avoids e (Protocol.declare as) :=
  .bind (avoids_required he rfl) fun _ _ => avoids_pure _

theorem Interface.avoids_declare : Avoids e (Interface.declare as) := by
  refine .bind (avoids_required he rfl) fun _ _ => .bind (avoids_required he rfl) fun _ _ => ?_
  split
  · exact avoids_error he rfl
  · split
    · exact avoids_error he rfl
    · exact avoids_ok _

theorem Message.avoids_declare {kind : MessageKind} : Avoids e (Message.declare kind as) := by
  refine .bind (avoids_required he rfl) fun _ _ => ?_
  split
  · exact avoids_error he rfl
  · exact .bind (avoids_version? he fun _ _ => rfl) fun _ _ =>
      .bind (avoids_version? he fun _ _ => rfl) fun _ _ => avoids_pure _

theorem Arg.avoids_nullable? {type : ArgType} : Avoids e (Arg.nullable? name type as) := by
  unfold Arg.nullable?
  split
  · exact avoids_ok _
  · split
    · exact avoids_error he rfl
    · split
      · exact avoids_ok _
      · exact avoids_error he rfl

theorem Arg.avoids_declare : Avoids e (Arg.declare as) := by
  refine .bind (avoids_required he rfl) fun _ _ => .bind (avoids_required he rfl) fun _ _ => ?_
  split
  · exact avoids_error he rfl
  · dsimp only
    split
    · exact avoids_error he rfl
    · exact .bind (Arg.avoids_nullable? he) fun _ _ => avoids_pure _

theorem Enum.avoids_bitfield? : Avoids e (Enum.bitfield? name as) := by
  unfold Enum.bitfield?
  split
  · exact avoids_ok _
  · split
    · exact avoids_ok _
    · exact avoids_error he rfl

theorem Enum.avoids_declare : Avoids e (Enum.declare as) :=
  .bind (avoids_required he rfl) fun _ _ => .bind (avoids_version? he fun _ _ => rfl) fun _ _ =>
    .bind (Enum.avoids_bitfield? he) fun _ _ => avoids_pure _

theorem Entry.avoids_declare : Avoids e (Entry.declare as) :=
  .bind (avoids_required he rfl) fun _ _ => .bind (avoids_version? he fun _ _ => rfl) fun _ _ =>
    avoids_pure _

end Declare

/-! ## Calls -/

namespace Builder

/-- Every cursor is an index of the list that it is for, and collected text is for a node. -/
structure InBounds (b : Builder) : Prop where
  interface {i : Nat} (h : b.interface = some i) :
    ∃ p, b.protocol = some p ∧ i < p.interfaces.length
  message {kind : MessageKind} {m : Nat} (h : b.message = some (kind, m)) :
    ∃ p i x, b.protocol = some p ∧ b.interface = some i ∧ p.interfaces[i]? = some x ∧
      m < (x.messages kind).length
  arg {a : Nat} (h : b.arg = some a) :
    ∃ p i x kind m y, b.protocol = some p ∧ b.interface = some i ∧
      b.message = some (kind, m) ∧ p.interfaces[i]? = some x ∧ (x.messages kind)[m]? = some y ∧
      a < y.args.length
  enum {e : Nat} (h : b.enum = some e) :
    ∃ p i x, b.protocol = some p ∧ b.interface = some i ∧ p.interfaces[i]? = some x ∧
      e < x.enums.length
  entry {n : Nat} (h : b.entry = some n) :
    ∃ p i x e y, b.protocol = some p ∧ b.interface = some i ∧ b.enum = some e ∧
      p.interfaces[i]? = some x ∧ x.enums[e]? = some y ∧ n < y.entries.length
  description {place : Place} {summary text : String}
    (h : b.pending = some ⟨.description place summary, text⟩) :
    ∃ p, b.protocol = some p ∧ p.has place
  copyright {text : String} (h : b.pending = some ⟨.copyright, text⟩) :
    ∃ p, b.protocol = some p

variable {b : Builder}

theorem Grounded.inBounds (hb : b.Grounded) : b.InBounds := by
  constructor
  · intro i h
    obtain ⟨p, hp, hhas⟩ := hb.interface h
    exact ⟨p, hp, by simpa [Protocol.has, Protocol.interface?] using hhas⟩
  · intro kind m h
    obtain ⟨i, hi, p, hp, hhas⟩ := hb.message h
    obtain ⟨y, hy⟩ := Option.isSome_iff_exists.1 hhas
    obtain ⟨x, hx, hy⟩ := Option.bind_eq_some_iff.1 hy
    exact ⟨p, i, x, hp, hi, hx, (List.getElem?_eq_some_iff.1 hy).1⟩
  · intro a h
    obtain ⟨i, kind, m, hi, hm, p, hp, hhas⟩ := hb.arg h
    obtain ⟨z, hz⟩ := Option.isSome_iff_exists.1 hhas
    obtain ⟨y, hy, hz⟩ := Option.bind_eq_some_iff.1 hz
    obtain ⟨x, hx, hy⟩ := Option.bind_eq_some_iff.1 hy
    exact ⟨p, i, x, kind, m, y, hp, hi, hm, hx, hy, (List.getElem?_eq_some_iff.1 hz).1⟩
  · intro e h
    obtain ⟨i, hi, p, hp, hhas⟩ := hb.enum h
    obtain ⟨y, hy⟩ := Option.isSome_iff_exists.1 hhas
    obtain ⟨x, hx, hy⟩ := Option.bind_eq_some_iff.1 hy
    exact ⟨p, i, x, hp, hi, hx, (List.getElem?_eq_some_iff.1 hy).1⟩
  · intro n h
    obtain ⟨i, e, hi, he, p, hp, hhas⟩ := hb.entry h
    obtain ⟨z, hz⟩ := Option.isSome_iff_exists.1 hhas
    obtain ⟨y, hy, hz⟩ := Option.bind_eq_some_iff.1 hz
    obtain ⟨x, hx, hy⟩ := Option.bind_eq_some_iff.1 hy
    exact ⟨p, i, x, e, y, hp, hi, he, hx, hy, (List.getElem?_eq_some_iff.1 hz).1⟩
  · intro place summary text h
    exact hb.pending h
  · intro text h
    obtain ⟨p, hp, -⟩ := hb.pending h
    exact ⟨p, hp⟩

section Avoids

variable {e : SchemaError} (he : e.isGeneral)
include he

theorem avoids_currentProtocol (el : Element) : Avoids e (b.currentProtocol el) := by
  unfold currentProtocol
  split
  · exact avoids_ok _
  · exact avoids_error he rfl

/-- The interface cursor leads to an interface, if it is set. -/
theorem Grounded.avoids_currentInterface (hb : b.Grounded) (el : Element) :
    Avoids e (b.currentInterface el) := by
  cases hi : b.interface with
  | none =>
    rw [currentInterface, hi]
    exact avoids_error he rfl
  | some i =>
    obtain ⟨p, hp, hhas⟩ := hb.interface hi
    obtain ⟨x, hx⟩ := Option.isSome_iff_exists.1 hhas
    exact avoids_of_eq_ok (currentInterface_eq_ok.2 ⟨hi, p, hp, hx⟩)

theorem Grounded.avoids_currentMessage (hb : b.Grounded) (el : Element) :
    Avoids e (b.currentMessage el) := by
  cases hm : b.message with
  | none =>
    rw [currentMessage, hm]
    exact avoids_error he rfl
  | some c =>
    obtain ⟨i, hi, p, hp, hhas⟩ := hb.message hm
    obtain ⟨x, hx⟩ := Option.isSome_iff_exists.1 hhas
    exact avoids_of_eq_ok (currentMessage_eq_ok.2 ⟨hm, hi, p, hp, hx⟩)

theorem Grounded.avoids_currentEnum (hb : b.Grounded) (el : Element) :
    Avoids e (b.currentEnum el) := by
  cases hn : b.enum with
  | none =>
    rw [currentEnum, hn]
    exact avoids_error he rfl
  | some n =>
    obtain ⟨i, hi, p, hp, hhas⟩ := hb.enum hn
    obtain ⟨x, hx⟩ := Option.isSome_iff_exists.1 hhas
    exact avoids_of_eq_ok (currentEnum_eq_ok.2 ⟨hn, hi, p, hp, hx⟩)

theorem avoids_checkNotCollecting (el : Element) : Avoids e (b.checkNotCollecting el) := by
  unfold checkNotCollecting
  split
  · exact avoids_error he rfl
  · exact avoids_ok _

theorem avoids_descriptionPlace : Avoids e b.descriptionPlace := by
  unfold descriptionPlace
  split
  · exact avoids_error he rfl
  · exact avoids_ok _
  · split <;> exact avoids_ok _

theorem avoids_startProtocol (tag : Bytes) : Avoids e (b.startProtocol tag).result := by
  unfold startProtocol
  split
  · exact avoids_error he rfl
  · simp only [Logged.result_bind, Logged.result_monadLift, Logged.result_note]
    refine .bind (avoids_attributes he tag) fun _ _ =>
      .bind (Protocol.avoids_declare he) fun _ _ => ?_
    exact .bind (avoids_ok _) fun _ _ => avoids_pure _

theorem avoids_startCopyright : Avoids e b.startCopyright :=
  .bind (avoids_currentProtocol he _) fun _ _ =>
    .bind (avoids_checkNotCollecting he _) fun _ _ => avoids_pure _

theorem avoids_startInterface (tag : Bytes) : Avoids e (b.startInterface tag).result := by
  simp only [startInterface, Logged.result_bind, Logged.result_monadLift, Logged.result_note]
  refine .bind (avoids_attributes he tag) fun _ _ =>
    .bind (Interface.avoids_declare he) fun _ _ => ?_
  exact .bind (avoids_ok _) fun _ _ =>
    .bind (avoids_currentProtocol he _) fun _ _ => avoids_pure _

theorem Grounded.avoids_startMessage (hb : b.Grounded) (kind : MessageKind) (tag : Bytes) :
    Avoids e (b.startMessage kind tag).result := by
  simp only [startMessage, Logged.result_bind, Logged.result_monadLift, Logged.result_note]
  refine .bind (avoids_attributes he tag) fun _ _ => .bind (avoids_ok _) fun _ _ =>
    .bind (Message.avoids_declare he) fun _ _ =>
      .bind (hb.avoids_currentInterface he _) fun _ _ => ?_
  exact .bind (avoids_ok _) fun _ _ => avoids_pure _

theorem Grounded.avoids_startArg (hb : b.Grounded) (tag : Bytes) : Avoids e (b.startArg tag) :=
  .bind (avoids_attributes he tag) fun _ _ => .bind (Arg.avoids_declare he) fun _ _ =>
    .bind (hb.avoids_currentMessage he _) fun _ _ => avoids_pure _

theorem Grounded.avoids_startEnum (hb : b.Grounded) (tag : Bytes) : Avoids e (b.startEnum tag) :=
  .bind (avoids_attributes he tag) fun _ _ => .bind (Enum.avoids_declare he) fun _ _ =>
    .bind (hb.avoids_currentInterface he _) fun _ _ => avoids_pure _

theorem Grounded.avoids_startEntry (hb : b.Grounded) (tag : Bytes) :
    Avoids e (b.startEntry tag) :=
  .bind (avoids_attributes he tag) fun _ _ => .bind (Entry.avoids_declare he) fun _ _ =>
    .bind (hb.avoids_currentEnum he _) fun _ _ => avoids_pure _

theorem avoids_startDescription (tag : Bytes) : Avoids e (b.startDescription tag) :=
  .bind (avoids_attributes he tag) fun _ _ => .bind (avoids_required he rfl) fun _ _ =>
    .bind (avoids_checkNotCollecting he _) fun _ _ =>
      .bind (avoids_descriptionPlace he) fun _ _ => avoids_pure _

/-- If a start tag is refused, the error is about this tag. -/
theorem Grounded.avoids_start (hb : b.Grounded) (tag : Bytes) : Avoids e (b.start tag).result := by
  cases hname : Element.ofName? (localName (Tag.name tag)) with
  | none =>
    simp only [Builder.start, hname]
    exact avoids_ok b
  | some el =>
    simp only [Builder.start, hname]
    cases el with
    | protocol => exact avoids_startProtocol he tag
    | copyright => exact avoids_startCopyright he
    | interface => exact avoids_startInterface he tag
    | request => exact hb.avoids_startMessage he .request tag
    | event => exact hb.avoids_startMessage he .event tag
    | arg => exact hb.avoids_startArg he tag
    | enum => exact hb.avoids_startEnum he tag
    | entry => exact hb.avoids_startEntry he tag
    | description => exact avoids_startDescription he tag

end Avoids

theorem Grounded.finds_currentInterface (hb : b.Grounded) (e : Element) :
    Finds (b.currentInterface e) := hb.avoids_currentInterface rfl e

theorem Grounded.finds_currentMessage (hb : b.Grounded) (e : Element) :
    Finds (b.currentMessage e) := hb.avoids_currentMessage rfl e

theorem Grounded.finds_currentEnum (hb : b.Grounded) (e : Element) :
    Finds (b.currentEnum e) := hb.avoids_currentEnum rfl e

theorem Grounded.finds_close (hb : b.Grounded) (name : Bytes) : Finds (b.close name) :=
  avoids_of_eq_ok (close_eq hb name)

theorem Grounded.finds_apply (hb : b.Grounded) (c : Call) : Finds (b.apply c) := by
  cases c with
  | start tag => exact hb.avoids_start rfl tag
  | close name => exact hb.finds_close name
  | text s => exact avoids_ok _

/-- Whatever calls a new builder took, its cursors are in bounds. So the nodes under them are always
found, no call fails for want of a node, and an end tag does not fail at all. -/
theorem inBounds_applyAll {cs : List Call} (h : Builder.applyAll {} cs = .ok b) :
    b.InBounds ∧
      (∀ e, Finds (b.currentInterface e) ∧ Finds (b.currentMessage e) ∧ Finds (b.currentEnum e)) ∧
      (∀ c, Finds (b.apply c)) ∧ ∀ name, ∃ b', b.close name = .ok b' := by
  have hb := grounded_empty.applyAll h
  refine ⟨hb.inBounds, fun e => ?_, hb.finds_apply, fun name => ⟨_, close_eq hb name⟩⟩
  exact ⟨hb.finds_currentInterface e, hb.finds_currentMessage e, hb.finds_currentEnum e⟩

/-- Cursors of a message and an enum stay set beside each other when end tags are stray. -/
theorem inBounds_of_stray_ends :
    let cs := [
      Call.start (ascii "protocol name='p'"), .close (ascii "arg"),
      .start (ascii "interface name='i' version='1'"), .start (ascii "event name='v'"),
      .start (ascii "enum name='e'"), .start (ascii "entry name='x'"),
      .start (ascii "description summary='s'"), .start (ascii "arg name='a' type='fd'"),
      .close (ascii "interface"), .text "b"]
    ∃ b, Builder.applyAll {} cs = .ok b ∧ b.message = some (.event, 0) ∧ b.arg = some 0 ∧
      b.enum = some 0 ∧ b.entry = some 0 ∧
      b.pending = some ⟨.description (.entry 0 0 0) "s", "b"⟩ ∧ b.InBounds := by
  intro cs
  have h : (Builder.applyAll {} cs).toOption = some {
      protocol := some {
        name := "p", uppercaseName := "P"
        interfaces := [{
          name := "i", uppercaseName := "I", version := 1
          events := [{
            name := "v", uppercaseName := "V"
            args := [{ name := "a", type := .fd }] }]
          enums := [{
            name := "e", uppercaseName := "E"
            entries := [{ name := "x", uppercaseName := "X", value := "" }] }] }] }
      interface := some 0, message := some (.event, 0), arg := some 0, enum := some 0
      entry := some 0
      pending := some ⟨.description (.entry 0 0 0) "s", "b"⟩ } := by decide +kernel
  have h := toOption_eq_some.1 h
  exact ⟨_, h, rfl, rfl, rfl, rfl, rfl, (inBounds_applyAll h).1⟩

end Builder

/-! ## Documents -/

/-- The reading does not fail for want of a node. -/
def Reading.Finds {α : Type} (x : Except Failure α) : Prop :=
  ∀ offset, x ≠ .error ⟨offset, .schema .danglingCursor⟩

namespace Reading

variable {r : Reading} {α β : Type}

@[simp] theorem finds_ok (a : α) : Reading.Finds (.ok a) := nofun

@[simp] theorem finds_pure (a : α) : Reading.Finds (pure a) := finds_ok a

@[simp] theorem finds_error {offset : Nat} {e : DocumentError} :
    Reading.Finds (.error ⟨offset, e⟩ : Except Failure α) ↔ e ≠ .schema .danglingCursor := by
  simp [Reading.Finds]

theorem Finds.bind {x : Except Failure α} {f : α → Except Failure β} (hx : Reading.Finds x)
    (hf : ∀ a, x = .ok a → Reading.Finds (f a)) : Reading.Finds (x >>= f) := by
  intro offset h
  rcases bind_eq_error.1 h with h | ⟨a, ha, h⟩
  · exact hx offset h
  · exact hf a ha offset h

theorem finds_schema {x : Except SchemaError α} (h : WaylandDoc.Finds x) (offset : Nat) :
    Reading.Finds (x.mapError (Failure.mk offset ∘ .schema)) := by
  intro offset' hx
  cases x with
  | ok a => cases hx
  | error e =>
    cases hx
    exact h rfl

theorem finds_addText (t : Token) {text : Except DocumentError String}
    (h : text ≠ .error (.schema .danglingCursor)) : Reading.Finds (r.addText t text) := by
  intro offset ht
  unfold addText at ht
  split at ht
  · cases ht
  · cases ht
    exact h rfl

theorem decode_ne_error {data : Bytes} {e : SchemaError} : decode data ≠ .error (.schema e) := by
  unfold decode
  cases Utf8.decode data <;> nofun

theorem resolve_ne_error {data : Bytes} {e : SchemaError} : resolve data ≠ .error (.schema e) := by
  intro h
  rcases bind_eq_error.1 h with h | ⟨name, -, h⟩
  · exact decode_ne_error h
  · split at h <;> cases h

theorem finds_step (hb : r.builder.Grounded) (t : Token) : Reading.Finds (r.step t).result := by
  cases t with
  | start tag =>
    simp only [step, Logged.result_bind, Logged.result_mapError]
    exact .bind (finds_schema (hb.avoids_start rfl tag) _) fun _ _ => finds_pure _
  | empty tag =>
    simp only [step, Logged.result_bind, Logged.result_mapError, Logged.result_monadLift]
    refine .bind (finds_schema (hb.avoids_start rfl tag) _) fun b h => ?_
    have hstart : r.builder.applyAll [.start tag] = .ok b := by simpa [Builder.apply] using h
    have hb' := hb.applyAll hstart
    exact .bind (finds_schema (hb'.finds_close _) _) fun _ _ => finds_pure _
  | close tag =>
    simp only [step, Logged.result_bind, Logged.result_monadLift]
    refine .bind ?_ fun _ _ => .bind (finds_schema (hb.finds_close _) _) fun _ _ => finds_pure _
    cases closeName r.openNames (Tag.endName tag) with
    | ok names => exact finds_ok names
    | error e => exact finds_error.2 (by simp)
  | text data => exact finds_addText _ decode_ne_error
  | cdata data => exact finds_addText _ decode_ne_error
  | reference name => exact finds_addText _ resolve_ne_error
  | aside markup => exact finds_ok _

theorem finds_run (hr : r.Counted) (hb : r.builder.Grounded) (ts : List Token) :
    Reading.Finds (r.run ts).result := by
  rw [run_eq_foldlM]
  induction ts generalizing r with
  | nil => exact finds_ok r
  | cons t ts ih =>
    rw [List.foldlM_cons, Logged.result_bind]
    refine .bind (finds_step hb t) fun r' h => ?_
    obtain ⟨-, names, b, -, hcalls, rfl⟩ := (step_eq_ok hr).1 h
    exact ih (counted_mk ..) (hb.applyAll hcalls)

theorem finds_finish (size : Nat) (ending : Token.Ending) :
    Reading.Finds (r.finish size ending) := by
  unfold finish
  split
  · split
    · simp
    · refine finds_schema ?_ size
      unfold Builder.finish
      split <;> nofun
  · simp

end Reading

/-- No document makes a lookup of a node fail. -/
theorem finds_parse (input : Bytes) (line : Nat) :
    (parse input).result ≠ .error ⟨line, .schema .danglingCursor⟩ := by
  intro h
  rcases hlex : Token.lex (dropMark input) with ⟨ts, ending⟩
  simp only [parse, hlex, Logged.result_mapError, Logged.result_bind, Logged.result_monadLift] at h
  have hfinds : Reading.Finds
      ((Reading.run {} ts).result >>= fun r => r.finish input.length ending) :=
    .bind (Reading.finds_run (r := {}) rfl Builder.grounded_empty ts) fun _ _ =>
      Reading.finds_finish _ _
  cases htree : (Reading.run {} ts).result >>= fun r => r.finish input.length ending with
  | ok p =>
    rw [htree] at h
    cases h
  | error e =>
    rw [htree] at h
    obtain ⟨offset, error⟩ := e
    cases h
    exact hfinds offset htree

end WaylandDoc
