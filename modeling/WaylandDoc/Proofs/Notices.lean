import WaylandDoc.Proofs.Call

/-!
# The notices of a document

A builder writes notices when it takes calls (`Builder.performAll`). If a document is accepted, they
are the notices of reading it, in the same order (`parse_eq_iff`).
-/

namespace WaylandDoc

namespace Builder

/-- Takes a call and writes the notices of it. -/
def perform (b : Builder) : Call → Logged Notice SchemaError Builder
  | .start tag => b.start tag
  | .close name => .ofExcept (b.close name)
  | .text s => pure (b.text s)

def performAll (b : Builder) (calls : List Call) : Logged Notice SchemaError Builder :=
  calls.foldlM perform b

theorem result_perform (b : Builder) (c : Call) : (b.perform c).result = b.apply c := by
  cases c <;> rfl

@[simp] theorem performAll_nil (b : Builder) : b.performAll [] = pure b := rfl

theorem performAll_cons (b : Builder) (c : Call) (cs : List Call) :
    b.performAll (c :: cs) = b.perform c >>= (·.performAll cs) := List.foldlM_cons

theorem performAll_append (b : Builder) (cs ds : List Call) :
    b.performAll (cs ++ ds) = b.performAll cs >>= (·.performAll ds) := List.foldlM_append

theorem result_performAll (b : Builder) (cs : List Call) :
    (b.performAll cs).result = b.applyAll cs := by
  induction cs generalizing b with
  | nil => rfl
  | cons c cs ih =>
    rw [performAll_cons, Logged.result_bind, result_perform, applyAll, List.foldlM_cons]
    exact congrArg _ (funext ih)

end Builder

namespace Reading

variable {r r' : Reading} {t : Token} {ts : List Token}

theorem notices_addText {text : Except DocumentError String}
    (h : (Logged.ofExcept (r.addText t text) : Logged Notice _ _).result = .ok r') :
    (r.builder.performAll (text.toOption.toList.map .text)).notices = [] := by
  obtain ⟨s, rfl, -⟩ := addText_eq_ok.1 h
  rfl

/-- A token that is read writes the notices of its calls. -/
theorem notices_step (h : (r.step t).result = .ok r') :
    (r.step t).notices = (r.builder.performAll t.calls).notices := by
  cases t with
  | start tag =>
    simp only [step, Logged.result_bind_eq_ok] at h
    obtain ⟨b, hb, -⟩ := h
    have hstart : (r.builder.perform (.start tag)).result = .ok b := mapError_eq_ok.1 hb
    rw [step, Logged.notices_bind_of_ok hb, Token.calls, Builder.performAll_cons,
      Logged.notices_bind_of_ok hstart]
    rfl
  | empty tag =>
    simp only [step, Logged.result_bind_eq_ok] at h
    obtain ⟨b, hb, b', hb', -⟩ := h
    have hstart : (r.builder.perform (.start tag)).result = .ok b := mapError_eq_ok.1 hb
    have hclose : (b.perform (.close (localName (Tag.name tag)))).result = .ok b' :=
      mapError_eq_ok.1 hb'
    rw [step, Logged.notices_bind_of_ok hb, Logged.notices_bind_of_ok hb', Token.calls,
      Builder.performAll_cons, Logged.notices_bind_of_ok hstart, Builder.performAll_cons,
      Logged.notices_bind_of_ok hclose]
    rfl
  | close tag =>
    simp only [step, Logged.result_bind_eq_ok] at h
    obtain ⟨names, hnames, b, hb, -⟩ := h
    have hclose : (r.builder.perform (.close (localName (Tag.endName tag)))).result = .ok b :=
      mapError_eq_ok.1 hb
    rw [step, Logged.notices_bind_of_ok hnames, Logged.notices_bind_of_ok hb, Token.calls,
      Builder.performAll_cons, Logged.notices_bind_of_ok hclose]
    rfl
  | text data => exact (notices_addText h).symm
  | cdata data => exact (notices_addText h).symm
  | reference name => exact (notices_addText h).symm
  | aside markup => rfl

/-- Tokens that are read write the notices of their calls. -/
theorem notices_run (hr : r.Counted) (h : (r.run ts).result = .ok r') :
    (r.run ts).notices = (r.builder.performAll (ts.flatMap Token.calls)).notices := by
  rw [run_eq_foldlM] at h ⊢
  induction ts generalizing r with
  | nil => rfl
  | cons t ts ih =>
    rw [List.foldlM_cons] at h ⊢
    obtain ⟨r₁, hr₁, h⟩ := Logged.result_bind_eq_ok.1 h
    obtain ⟨-, names, b, -, hb, rfl⟩ := (step_eq_ok hr).1 hr₁
    rw [← Builder.result_performAll] at hb
    rw [Logged.notices_bind_of_ok hr₁, notices_step hr₁, ih (counted_mk ..) h, List.flatMap_cons,
      Builder.performAll_append, Logged.notices_bind_of_ok hb]

end Reading

theorem notices_parse {input : Bytes} {ts : List Token} {r : Reading}
    (hlex : Token.lex (dropMark input) = (ts, .complete))
    (hr : (Reading.run {} ts).result = .ok r) :
    (parse input).notices = (Builder.performAll {} (ts.flatMap Token.calls)).notices := by
  have hparse : (parse input).notices = (Reading.run {} ts >>= fun r =>
      (Logged.ofExcept (r.finish input.length .complete) :
        Logged Notice Failure Protocol)).notices := by
    rw [parse, hlex]
    rfl
  rw [hparse, Logged.notices_bind_of_ok hr, Reading.notices_run (r := {}) rfl hr]
  exact List.append_nil _

/-- What has to be in order for a document to be accepted, and what is written then. -/
theorem parse_eq_iff {input : Bytes} {ns : List Notice} {p : Protocol} :
    parse input = ⟨ns, .ok p⟩ ↔ ∃ ts, Token.lex (dropMark input) = (ts, .complete) ∧
      Token.Balanced ts ∧ (∀ t ∈ ts, t.Readable) ∧
      ∃ b, Builder.performAll {} (ts.flatMap Token.calls) = ⟨ns, .ok b⟩ ∧
        b.protocol = some p := by
  simp only [Logged.eq_mk_iff, parse_eq_ok_iff, Builder.result_performAll]
  have hnotices {ts : List Token} {b : Builder}
      (hlex : Token.lex (dropMark input) = (ts, .complete)) (hbalanced : Token.Balanced ts)
      (hread : ∀ t ∈ ts, t.Readable)
      (hb : Builder.applyAll {} (ts.flatMap Token.calls) = .ok b) :=
    notices_parse hlex ((Reading.run_eq_ok (r := {}) rfl).2 ⟨hread, [], b, hbalanced, hb, rfl⟩)
  constructor
  · rintro ⟨rfl, ts, hlex, hbalanced, hread, b, hb, hp⟩
    exact ⟨ts, hlex, hbalanced, hread, b, ⟨(hnotices hlex hbalanced hread hb).symm, hb⟩, hp⟩
  · rintro ⟨ts, hlex, hbalanced, hread, b, ⟨rfl, hb⟩, hp⟩
    exact ⟨hnotices hlex hbalanced hread hb, ts, hlex, hbalanced, hread, b, hb, hp⟩

end WaylandDoc
