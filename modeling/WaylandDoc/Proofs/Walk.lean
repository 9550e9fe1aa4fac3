import WaylandDoc.Proofs.CharacterData
import WaylandDoc.Proofs.Notices

/-!
# Walks

A walk is a reading that does not know where it is: of the tokens before it only the open elements
and the builder count, and errors are not told apart. The outcome of a document is that of the walk
over its tokens (`parse_eq_ok_iff_walk`, `notices_parse_eq_walk`). Tokens that end none of the outer
elements do not see these (`walk_frame`).
-/

namespace WaylandDoc

open Token (Readable nest openAfter Balanced)

namespace Logged

variable {ν ε ε' ε'' α β : Type} (g : ε → ε')

@[simp] theorem mapError_pure (a : α) : (pure a : Logged ν ε α).mapError g = pure a := rfl

@[simp] theorem mapError_bind (x : Logged ν ε α) (f : α → Logged ν ε β) :
    (x >>= f).mapError g = x.mapError g >>= fun a => (f a).mapError g := by
  obtain ⟨ns, e | a⟩ := x <;> rfl

@[simp] theorem mapError_map (f : α → β) (x : Logged ν ε α) :
    (f <$> x).mapError g = f <$> x.mapError g := by
  obtain ⟨ns, e | a⟩ := x <;> rfl

@[simp] theorem mapError_mapError (g' : ε' → ε'') (x : Logged ν ε α) :
    (x.mapError g).mapError g' = x.mapError (g' ∘ g) := by
  obtain ⟨ns, e | a⟩ := x <;> rfl

@[simp] theorem mapError_monadLift (x : Except ε α) :
    (monadLift x : Logged ν ε α).mapError g = ofExcept (x.mapError g) := rfl

@[simp] theorem mapError_ofExcept (x : Except ε α) :
    (ofExcept x : Logged ν ε α).mapError g = ofExcept (x.mapError g) := rfl

@[simp] theorem ofExcept_ok (a : α) : (ofExcept (.ok a) : Logged ν ε α) = pure a := rfl

@[simp] theorem ofExcept_error (e : ε) : (ofExcept (.error e) : Logged ν ε α) = fail e := rfl

@[simp] theorem fail_bind (e : ε) (f : α → Logged ν ε β) : (fail e >>= f) = fail e := rfl

@[simp] theorem map_fail (f : α → β) (e : ε) : f <$> (fail e : Logged ν ε α) = fail e := rfl

end Logged

@[simp] theorem mapError_ok {ε ε' α : Type} (g : ε → ε') (a : α) :
    (.ok a : Except ε α).mapError g = .ok a := rfl

@[simp] theorem mapError_error {ε ε' α : Type} (g : ε → ε') (e : ε) :
    (.error e : Except ε α).mapError g = .error (g e) := rfl

@[simp] theorem mapError_comp {ε ε' ε'' α : Type} (g : ε → ε') (g' : ε' → ε'') (x : Except ε α) :
    (x.mapError g).mapError g' = x.mapError (g' ∘ g) := by
  cases x <;> rfl

/-- The names of the open elements, the innermost first, and the builder. -/
abbrev Stage := List Bytes × Builder

namespace Reading

def stage (r : Reading) : Stage := (r.openNames, r.builder)

/-- The outcome without the offset and without the error. -/
def bare (x : Logged Notice Failure Reading) : Logged Notice Unit Stage :=
  stage <$> x.mapError fun _ => ()

/-- What a builder does with the token. -/
def told (b : Builder) (t : Token) : Logged Notice Unit Builder :=
  (b.performAll t.calls).mapError fun _ => ()

section Step

variable {r r' : Reading} {t : Token} {names : List Bytes}

/-- A token that can be decoded and fits the open elements goes to the builder. -/
theorem bare_step (ht : t.Readable) (hnest : nest r.openNames t = some names) :
    bare (r.step t) = (names, ·) <$> told r.builder t := by
  have htext {text : Except DocumentError String} (htext : ∃ s, text = .ok s)
      (hnames : r.openNames = names) :
      bare (.ofExcept (r.addText t text)) =
        (names, ·) <$> ((r.builder.performAll (text.toOption.toList.map .text)).mapError
          fun _ => ()) := by
    obtain ⟨s, rfl⟩ := htext
    subst hnames
    rfl
  cases t with
  | start tag =>
    cases hnest
    simp [bare, stage, step, told, Token.calls, Builder.performAll_cons, Builder.perform,
      Function.comp_def]
  | empty tag =>
    cases hnest
    simp [bare, stage, step, told, Token.calls, Builder.performAll_cons, Builder.perform, liftM,
      Function.comp_def]
  | close tag =>
    rw [Token.nest_close_eq_some, ← closeName_eq_ok] at hnest
    simp [bare, stage, step, told, Token.calls, Builder.performAll_cons, Builder.perform, liftM,
      hnest, Function.comp_def]
  | text data => exact htext ht (Option.some.inj hnest)
  | cdata data => exact htext ht (Option.some.inj hnest)
  | reference name => exact htext ht (Option.some.inj hnest)
  | aside markup =>
    cases hnest
    rfl

/-- Any other token ends the reading, and the builder does not hear of it. -/
theorem bare_step_of_not (h : t.Readable → nest r.openNames t = none) :
    bare (r.step t) = .fail () := by
  have htext {text : Except DocumentError String} (htext : ¬∃ s, text = .ok s) :
      bare (.ofExcept (r.addText t text)) = .fail () := by
    cases text with
    | error e => rfl
    | ok s => exact absurd ⟨s, rfl⟩ htext
  cases t with
  | start tag | empty tag | aside markup => cases h trivial
  | close tag =>
    have hclose : ∀ names, closeName r.openNames (Tag.endName tag) ≠ .ok names := by
      intro names hnames
      rw [closeName_eq_ok, ← Token.nest_close_eq_some, h trivial] at hnames
      cases hnames
    cases hnames : closeName r.openNames (Tag.endName tag) with
    | ok names => exact absurd hnames (hclose names)
    | error e => simp [bare, step, liftM, hnames]
  | text data | cdata data | reference name => exact htext fun hs => by cases h hs

theorem bare_step_congr (h : r.stage = r'.stage) : bare (r.step t) = bare (r'.step t) := by
  obtain ⟨hnames, hbuilder⟩ : r.openNames = r'.openNames ∧ r.builder = r'.builder := by
    simpa [stage] using h
  by_cases ht : t.Readable → nest r.openNames t = none
  · rw [bare_step_of_not ht, bare_step_of_not (hnames ▸ ht)]
  · rw [Classical.not_imp] at ht
    obtain ⟨names, hnest⟩ := Option.ne_none_iff_exists'.1 ht.2
    rw [bare_step ht.1 hnest, bare_step ht.1 (hnames ▸ hnest), hbuilder]

end Step

/-- What follows an outcome does not see more of it than the stage. -/
theorem bare_bind {x : Logged Notice Failure Reading} {f : Reading → Logged Notice Failure Reading}
    {g : Stage → Logged Notice Unit Stage} (h : ∀ r, bare (f r) = g r.stage) :
    bare (x >>= f) = bare x >>= g := by
  rw [bare, Logged.mapError_bind, map_bind, bare, bind_map_left]
  exact congrArg _ (funext h)

end Reading

open Reading (stage bare told)

/-- Reads one token. -/
def advance (s : Stage) (t : Token) : Logged Notice Unit Stage :=
  bare (Reading.step { openNames := s.1, builder := s.2 } t)

/-- Reads the tokens from a stage on. -/
def walk (s : Stage) (ts : List Token) : Logged Notice Unit Stage := ts.foldlM advance s

section Walk

variable {names names' : List Bytes} {b b' : Builder} {t : Token} {ts us : List Token}

@[simp] theorem walk_nil (s : Stage) : walk s [] = pure s := rfl

theorem walk_cons (s : Stage) (t : Token) (ts : List Token) :
    walk s (t :: ts) = advance s t >>= (walk · ts) := List.foldlM_cons

theorem walk_append (s : Stage) (ts us : List Token) :
    walk s (ts ++ us) = walk s ts >>= (walk · us) := List.foldlM_append

/-- A walk is a reading, wherever it begins. -/
theorem bare_run (r : Reading) (ts : List Token) : bare (r.run ts) = walk r.stage ts := by
  rw [Reading.run_eq_foldlM]
  induction ts generalizing r with
  | nil => rfl
  | cons t ts ih =>
    have hadvance : bare (r.step t) = advance r.stage t := Reading.bare_step_congr rfl
    rw [List.foldlM_cons, walk_cons, Reading.bare_bind (g := (walk · ts)) ih, hadvance]

theorem advance_eq (ht : t.Readable) (hnest : nest names t = some names') :
    advance (names, b) t = (names', ·) <$> told b t :=
  Reading.bare_step (r := { openNames := names, builder := b }) ht hnest

theorem advance_of_not_readable (s : Stage) (ht : ¬ t.Readable) : advance s t = .fail () :=
  Reading.bare_step_of_not fun hread => absurd hread ht

/-- A builder that is told the same goes on from the same stage but for the open elements. -/
theorem walk_cons_congr {f : Stage → Stage} {u : Token} {outer outer' : List Bytes}
    (ht : t.Readable) (hu : u.Readable) (hnest : nest names t = some names')
    (hnest' : nest outer u = some outer') (htold : told b u = told b t)
    (h : ∀ b, walk (outer', b) us = f <$> walk (names', b) ts) :
    walk (outer, b) (u :: us) = f <$> walk (names, b) (t :: ts) := by
  rw [walk_cons, walk_cons, advance_eq hu hnest', advance_eq ht hnest, htold, bind_map_left,
    bind_map_left, map_bind]
  exact congrArg _ (funext h)

/-- Tokens that end no element of the `outer` ones leave them open and do not see them. -/
theorem walk_frame (h : openAfter names ts = some names') (outer outer' : List Bytes) :
    walk (names ++ outer', b) ts =
      (fun s => (names' ++ outer', s.2)) <$> walk (names ++ outer, b) ts := by
  induction ts generalizing names b with
  | nil =>
    cases h
    rfl
  | cons t ts ih =>
    rw [Token.openAfter_cons, Option.bind_eq_some_iff] at h
    obtain ⟨names₁, hnest, h⟩ := h
    by_cases ht : t.Readable
    · exact walk_cons_congr ht ht (Token.nest_append hnest outer) (Token.nest_append hnest outer')
        rfl fun b' => ih h
    · rw [walk_cons, walk_cons, advance_of_not_readable _ ht, advance_of_not_readable _ ht]
      rfl

theorem walk_eq_ok : (walk (names, b) ts).result = .ok (names', b') ↔ (∀ t ∈ ts, t.Readable) ∧
    openAfter names ts = some names' ∧ b.applyAll (ts.flatMap Token.calls) = .ok b' := by
  have hwalk := bare_run ⟨0, names, names.length, b⟩ ts
  rw [stage] at hwalk
  simp only [← hwalk, bare, Logged.result_map_eq_ok, Logged.result_mapError, mapError_eq_ok,
    Reading.run_eq_ok (Reading.counted_mk 0 names b)]
  constructor
  · rintro ⟨r, ⟨hread, names₁, b₁, hopen, hb, rfl⟩, hstage⟩
    cases hstage
    exact ⟨hread, hopen, hb⟩
  · rintro ⟨hread, hopen, hb⟩
    exact ⟨_, ⟨hread, names', b', hopen, hb, rfl⟩, rfl⟩

/-- Balanced tokens do not see what is open around them. -/
theorem walk_of_balanced (h : Balanced ts) (outer outer' : List Bytes) :
    walk (outer', b) ts = (fun s => (outer', s.2)) <$> walk (outer, b) ts := walk_frame h ..

end Walk

/-! ## Documents -/

theorem notices_parse_eq_walk (input : Bytes) :
    (parse input).notices = (walk ([], {}) (tokens input)).notices := by
  have hwalk : bare (Reading.run {} (tokens input)) = walk ([], {}) (tokens input) := bare_run {} _
  rw [← hwalk, bare, parse, tokens]
  rcases Token.lex (dropMark input) with ⟨ts, ending⟩
  dsimp only
  rcases Reading.run {} ts with ⟨ns, f | r⟩ <;> rfl

/-- A document is accepted if its tokens are, they leave nothing open and a protocol is there. -/
theorem parse_eq_ok_iff_walk {input : Bytes} {p : Protocol} :
    (parse input).result = .ok p ↔ (Token.lex (dropMark input)).2 = .complete ∧
      ∃ b, (walk ([], {}) (tokens input)).result = .ok ([], b) ∧ b.protocol = some p := by
  simp only [walk_eq_ok, parse_eq_ok_iff, tokens]
  constructor
  · rintro ⟨ts, hlex, hbalanced, hread, b, hb, hp⟩
    rw [hlex]
    exact ⟨rfl, b, ⟨hread, hbalanced, hb⟩, hp⟩
  · rintro ⟨hend, b, ⟨hread, hbalanced, hb⟩, hp⟩
    exact ⟨_, Prod.ext rfl hend, hbalanced, hread, b, hb, hp⟩

end WaylandDoc
