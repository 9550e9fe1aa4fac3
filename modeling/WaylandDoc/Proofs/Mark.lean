import WaylandDoc.Proofs.Lines

/-!
# The byte order mark

A mark in front of a document is dropped, so the tokens are the same, and with them the notices, the
tree and the error. The offset of a token does not count the mark, but newlines are counted from the
beginning of the input. So behind a mark the last three bytes before a failure do not count for its
line (`parse_marked`).
-/

namespace WaylandDoc

namespace Logged

/-- Errors are changed in the same way if the one that there is is. -/
theorem mapError_inj {ν ε ε' α : Type} {g g' : ε → ε'} {x : Logged ν ε α} :
    x.mapError g = x.mapError g' ↔ ∀ e, x.result = .error e → g e = g' e := by
  obtain ⟨ns, e | a⟩ := x <;> simp [mapError]

theorem mapError_eq_self {ν ε α : Type} {g : ε → ε} {x : Logged ν ε α}
    (h : ∀ e, x.result = .error e → g e = e) : x.mapError g = x := by
  obtain ⟨ns, e | a⟩ := x
  · rw [mapError, mapError_error, h e rfl]
  · rfl

end Logged

/-! ## Failures -/

/-- The document with a mark in front of it. -/
def marked (d : Bytes) : Bytes := [0xEF, 0xBB, 0xBF] ++ d

/-- The failure behind a mark: only the size of the input counts it. -/
def Failure.pastMark (f : Failure) : Failure :=
  { f with offset := if f.error.isOfDocument then f.offset + 3 else f.offset }

namespace Reading

/-- No error of a token is that of the whole document. -/
theorem pastMark_of_run_eq_error {ts : List Token} {f : Failure}
    (h : (Reading.run {} ts).result = .error f) : f.pastMark = f := by
  obtain ⟨before, t, after, names, b, -, hbefore, ⟨e, ht, rfl⟩ | ⟨tag, e, -, -, rfl⟩⟩ :=
    run_eq_error.1 h
  · have htoken := ht.isOfToken hbefore.grounded
    simp [Failure.pastMark, DocumentError.isOfDocument_of_isOfToken htoken]
  · rfl

theorem finish_add_three (r : Reading) (size : Nat) (ending : Token.Ending) :
    r.finish (size + 3) ending = (r.finish size ending).mapError Failure.pastMark := by
  cases ending with
  | broken e width => rfl
  | complete =>
    simp only [finish]
    split
    · rfl
    · cases hp : r.builder.protocol with
      | none =>
        simp only [Builder.finish, hp]
        rfl
      | some p => simp [Builder.finish, hp]

end Reading

variable {d : Bytes}

theorem located_marked (hd : dropMark d = d) :
    located (marked d) = (located d).mapError Failure.pastMark := by
  have hdrop : dropMark (marked d) = dropMark d := hd.symm
  have htokens : tokens (marked d) = tokens d := by rw [tokens, tokens, hdrop]
  have hsize : (marked d).length = d.length + 3 := rfl
  rw [located, located, htokens, hdrop, hsize, Logged.mapError_bind,
    Logged.mapError_eq_self fun _ => Reading.pastMark_of_run_eq_error]
  refine bind_congr fun r => ?_
  rw [Reading.finish_add_three]
  rfl

/-! ## Lines -/

theorem lineAt_marked (d : Bytes) (n : Nat) : lineAt (marked d) n = lineAt d (n - 3) := by
  have hmark : (([0xEF, 0xBB, 0xBF] : Bytes).take n).count newline = 0 :=
    List.count_eq_zero.2 fun h => absurd (List.mem_of_mem_take h) (by decide)
  rw [lineAt, lineAt, marked, List.take_append, List.count_append, hmark, Nat.zero_add]
  rfl

/-- Three bytes less are on another line if one of them is a newline. -/
theorem lineAt_sub_three (d : Bytes) (n : Nat) :
    lineAt d (n - 3) = lineAt d n ↔ newline ∉ (d.take n).drop (n - 3) := by
  have hsplit := List.take_append_drop (n - 3) (d.take n)
  rw [List.take_take, Nat.min_eq_left (Nat.sub_le ..)] at hsplit
  have hcount : (d.take n).count newline =
      (d.take (n - 3)).count newline + ((d.take n).drop (n - 3)).count newline := by
    conv_lhs => rw [← hsplit]
    rw [List.count_append]
  rw [lineAt, lineAt, hcount, ← List.count_eq_zero]
  omega

/-- The line that is reported for the failure if there is a mark in front of the document. -/
def Failure.lineBehindMark (d : Bytes) (f : Failure) : Nat :=
  lineAt d (if f.error.isOfDocument then f.offset else f.offset - 3)

theorem Failure.lineBehindMark_eq {f : Failure} : f.lineBehindMark d = lineAt d f.offset ↔
    f.error.isOfDocument ∨ newline ∉ (d.take f.offset).drop (f.offset - 3) := by
  rw [lineBehindMark]
  by_cases h : f.error.isOfDocument
  · simp [h]
  · simp [h, lineAt_sub_three]

theorem parse_marked_eq (hd : dropMark d = d) :
    parse (marked d) = (located d).mapError fun f => ⟨f.lineBehindMark d, f.error⟩ := by
  have hline (f : Failure) : lineAt (marked d) f.pastMark.offset = f.lineBehindMark d := by
    rw [lineAt_marked, Failure.pastMark, Failure.lineBehindMark]
    split <;> rfl
  rw [parse_eq_located, located_marked hd, Logged.mapError_mapError]
  congr 1
  funext f
  exact congrArg (ParseError.mk · f.error) (hline f)

/-- A mark in front of a document changes nothing but the line of an error. The line changes if the
error is not that of the whole document and one of the last three bytes before it is a newline. -/
theorem parse_marked (hd : ¬ [0xEF, 0xBB, 0xBF] <+: d) :
    (parse (marked d)).notices = (parse d).notices ∧
    (∀ p, (parse (marked d)).result = .ok p ↔ (parse d).result = .ok p) ∧
    (∀ e, (parse d).result = .error e → ∃ f, Fails d f ∧ e = ⟨lineAt d f.offset, f.error⟩ ∧
      (parse (marked d)).result = .error ⟨f.lineBehindMark d, f.error⟩) ∧
    (parse (marked d) = parse d ↔ ∀ f, Fails d f →
      f.error.isOfDocument ∨ newline ∉ (d.take f.offset).drop (f.offset - 3)) := by
  rw [parse_marked_eq (dropMark_eq_self.2 hd), parse_eq_located]
  refine ⟨rfl, fun p => ?_, fun e he => ?_, ?_⟩
  · simp
  · obtain ⟨f, hf, rfl⟩ := mapError_eq_error.1 he
    refine ⟨f, located_eq_error.1 hf, rfl, ?_⟩
    rw [Logged.result_mapError, hf, mapError_error]
  · simp only [Logged.mapError_inj, located_eq_error, ParseError.mk.injEq, and_true,
      Failure.lineBehindMark_eq]

/-- The newline is not among the last three bytes before the argument. -/
theorem parse_marked_of_indented :
    let d := ascii "<protocol name='p'>\n   <arg name='a' type='fd'/></protocol>"
    ¬ [0xEF, 0xBB, 0xBF] <+: d ∧
      (parse d).result = .error ⟨2, .schema (.misplaced .arg .message)⟩ ∧
      parse (marked d) = parse d := by
  intro d
  have hd : ¬ [0xEF, 0xBB, 0xBF] <+: d := by decide
  have hlocated : (located d).result = .error ⟨23, .schema (.misplaced .arg .message)⟩ := by
    decide +kernel
  refine ⟨hd, by decide +kernel, (parse_marked hd).2.2.2.2 fun f hf => ?_⟩
  rw [← located_eq_error, hlocated] at hf
  cases hf
  decide

/-- A newline right before the argument is not counted behind a mark. -/
theorem line_behind_mark_ne :
    let d := ascii "<protocol name='p'>\n<arg name='a' type='fd'/></protocol>"
    ¬ [0xEF, 0xBB, 0xBF] <+: d ∧
      (parse d).result = .error ⟨2, .schema (.misplaced .arg .message)⟩ ∧
      (parse (marked d)).result = .error ⟨1, .schema (.misplaced .arg .message)⟩ := by
  decide +kernel

end WaylandDoc
