import WaylandDoc.Markup.Tiling
import WaylandDoc.Proofs.Attributes

/-!
# Tokens of a part of a document

`Cuts s ts rest` says that `s` begins with the tokens `ts` and that `rest` is left. Every token but
text ends at a byte of its own, so what follows decides nothing about it: bytes may be put behind
the rest (`Cuts.append`) and taken away from there (`Cuts.of_append`). Only a text at the end of a
document would go on.
-/

namespace WaylandDoc

namespace Delimiter

variable {σ : Type} {d : Delimiter σ}

theorem cut_append {state : σ} {seen s content rest : Bytes} (u : Bytes) :
    d.cut state seen (s ++ u) = some (content, rest ++ u) ↔
      d.cut state seen s = some (content, rest) := by
  induction s generalizing state seen with
  | nil =>
    simp only [List.nil_append, cut, reduceCtorEq, iff_false]
    intro h
    have hlength := length_lt_of_cut h
    rw [List.length_append] at hlength
    omega
  | cons b s ih =>
    simp only [List.cons_append, cut]
    split
    · simp
    · exact ih

end Delimiter

namespace Token

def isText : Token → Bool
  | text _ => true
  | _ => false

/-! ## The first token -/

theorem ofCut_eq_token {e : MarkupError} {form : Bytes → Except MarkupError Token}
    {cut : Option (Bytes × Bytes)} {t : Token} {rest : Bytes} :
    Scan.ofCut e form cut = .token t rest ↔
      ∃ content, cut = some (content, rest) ∧ form content = .ok t := by
  unfold Scan.ofCut
  split
  · simp
  · rename_i content rest'
    simp only [Option.some.injEq, Prod.mk.injEq]
    split
    · rename_i hform
      simp [hform, and_comm]
    · rename_i hform
      simp [hform]

theorem ofCut_append {σ : Type} {d : Delimiter σ} {state : σ} {seen s rest : Bytes}
    {e : MarkupError} {form : Bytes → Except MarkupError Token} {t : Token} (u : Bytes) :
    Scan.ofCut e form (d.cut state seen (s ++ u)) = .token t (rest ++ u) ↔
      Scan.ofCut e form (d.cut state seen s) = .token t rest := by
  simp only [ofCut_eq_token, Delimiter.cut_append]

section Append

variable {s rest : Bytes} {t : Token} (u : Bytes)

theorem scanDeclaration_append :
    scanDeclaration (s ++ u) = .token t (rest ++ u) ↔ scanDeclaration s = .token t rest := by
  cases s with
  | nil =>
    simp only [List.nil_append, scanDeclaration, reduceCtorEq, iff_false]
    intro h
    have hlength := length_lt_of_scanDeclaration h
    rw [List.length_append] at hlength
    omega
  | cons b s =>
    simp only [List.cons_append, scanDeclaration]
    split
    · cases s with
      | nil =>
        cases u with
        | nil => simp
        | cons c u =>
          simp only [List.nil_append, reduceCtorEq, iff_false]
          intro h
          have hlength := length_lt_of_ofCut h
          rw [List.length_append, List.length_cons] at hlength
          omega
      | cons c s => exact ofCut_append u
    · split
      · exact ofCut_append u
      · split
        · exact ofCut_append u
        · simp

theorem scanMarkup_append :
    scanMarkup (s ++ u) = .token t (rest ++ u) ↔ scanMarkup s = .token t rest := by
  cases s with
  | nil =>
    simp only [List.nil_append, scanMarkup, reduceCtorEq, iff_false]
    intro h
    have hlength := length_lt_of_scanMarkup h
    rw [List.length_append] at hlength
    omega
  | cons b s =>
    simp only [List.cons_append, scanMarkup]
    split
    · exact scanDeclaration_append u
    · split
      · exact ofCut_append u
      · split
        · exact ofCut_append u
        · exact ofCut_append (s := b :: s) u

theorem scanReference_eq_token :
    scanReference s = .token t rest ↔ ∃ name, s = name ++ byte ';' :: rest ∧
      (∀ b ∈ name, inReference b) ∧ t = .reference name := by
  constructor
  · intro h
    unfold scanReference at h
    split at h
    · cases h
    · rename_i b r hs
      split at h
      · rename_i hb
        cases h
        obtain ⟨hs, -⟩ := eq_append_of_dropWhile hs
        exact ⟨_, hb ▸ hs, fun c => List.mem_takeWhile_imp, rfl⟩
      · cases h
  · rintro ⟨name, rfl, hname, rfl⟩
    simp [scanReference, dropWhile_append_cons hname, takeWhile_append_cons hname, inReference]

theorem scanReference_append :
    scanReference (s ++ u) = .token t (rest ++ u) ↔ scanReference s = .token t rest := by
  simp only [scanReference_eq_token, ← List.cons_append, ← List.append_assoc,
    List.append_cancel_right_eq]

/-- A text goes on as far as it can, and what is behind the rest is not in it. -/
theorem span_of_append {l r : Bytes} (h : (l ++ u).dropWhile inText = r ++ u) :
    l.dropWhile inText = r ∧ l.takeWhile inText = (l ++ u).takeWhile inText := by
  have hl : (l ++ u).takeWhile inText ++ r = l := by
    have hlu : (l ++ u).takeWhile inText ++ r ++ u = l ++ u := by
      rw [List.append_assoc, ← h, List.takeWhile_append_dropWhile]
    exact List.append_cancel_right hlu
  have htext : ∀ b ∈ (l ++ u).takeWhile inText, inText b := fun b => List.mem_takeWhile_imp
  generalize (l ++ u).takeWhile inText = data at hl htext
  subst hl
  cases r with
  | nil => simpa using htext
  | cons b r =>
    obtain ⟨-, hb⟩ := eq_append_of_dropWhile h
    exact ⟨dropWhile_append_cons htext hb, takeWhile_append_cons htext hb⟩

theorem scan_of_append (h : scan (s ++ u) = .token t (rest ++ u)) : scan s = .token t rest := by
  cases s with
  | nil =>
    have hlength := length_lt_of_scan h
    rw [List.nil_append, List.length_append] at hlength
    omega
  | cons b s =>
    simp only [List.cons_append, scan] at h ⊢
    split at h
    · rename_i hb
      rw [if_pos hb]
      exact (scanMarkup_append u).1 h
    · rename_i hb
      rw [if_neg hb]
      split at h
      · rename_i hb
        rw [if_pos hb]
        exact (scanReference_append u).1 h
      · rename_i hb
        rw [if_neg hb]
        simp only [Scan.token.injEq] at h ⊢
        obtain ⟨rfl, hdrop⟩ := h
        obtain ⟨hdrop, htake⟩ := span_of_append u hdrop
        exact ⟨by rw [htake], hdrop⟩

theorem scan_append (h : scan s = .token t rest) (ht : t.isText → rest ≠ []) :
    scan (s ++ u) = .token t (rest ++ u) := by
  cases s with
  | nil => cases h
  | cons b s =>
    simp only [List.cons_append, scan] at h ⊢
    split at h
    · rename_i hb
      rw [if_pos hb]
      exact (scanMarkup_append u).2 h
    · rename_i hb
      rw [if_neg hb]
      split at h
      · rename_i hb
        rw [if_pos hb]
        exact (scanReference_append u).2 h
      · rename_i hb
        rw [if_neg hb]
        cases h
        obtain ⟨c, r, hs⟩ := List.exists_cons_of_ne_nil (ht rfl)
        obtain ⟨hsplit, hc⟩ := eq_append_of_dropWhile hs
        have htext : ∀ d ∈ s.takeWhile inText, inText d := fun d => List.mem_takeWhile_imp
        rw [hs, hsplit]
        generalize s.takeWhile inText = data at htext
        simp [takeWhile_append_cons htext hc, dropWhile_append_cons htext hc]

end Append

/-! ## The first tokens -/

/-- The tokens are the first ones of `s`, and `rest` follows them. -/
inductive Cuts : Bytes → List Token → Bytes → Prop where
  | nil (s : Bytes) : Cuts s [] s
  | cons {s mid rest : Bytes} {t : Token} {ts : List Token} (h : scan s = .token t mid)
      (hts : Cuts mid ts rest) : Cuts s (t :: ts) rest

namespace Cuts

variable {s mid rest : Bytes} {ts us : List Token}

theorem eq_append (h : Cuts s ts rest) : s = ts.flatMap render ++ rest := by
  induction h with
  | nil => rfl
  | cons h _ ih => rw [eq_render_append h, ih, List.flatMap_cons, List.append_assoc]

theorem trans (h : Cuts s ts mid) (h' : Cuts mid us rest) : Cuts s (ts ++ us) rest := by
  induction h with
  | nil => exact h'
  | cons hs _ ih => exact .cons hs (ih h')

theorem exists_of_append (h : Cuts s (ts ++ us) rest) :
    ∃ mid, Cuts s ts mid ∧ Cuts mid us rest := by
  induction ts generalizing s with
  | nil => exact ⟨s, .nil s, h⟩
  | cons t ts ih =>
    cases h with
    | cons hs hts =>
      obtain ⟨mid, hts, hus⟩ := ih hts
      exact ⟨mid, .cons hs hts, hus⟩

theorem of_append (u : Bytes) (h : Cuts (s ++ u) ts (rest ++ u)) : Cuts s ts rest := by
  induction ts generalizing s with
  | nil =>
    have hs : s ++ u = rest ++ u := h.eq_append
    rw [List.append_cancel_right hs]
    exact .nil rest
  | cons t ts ih =>
    cases h with
    | cons hs hts =>
      have hmid := hts.eq_append
      rw [← List.append_assoc] at hmid
      rw [hmid] at hs hts
      exact .cons (scan_of_append u hs) (ih hts)

/-- A last text needs something behind it. -/
theorem append (u : Bytes) (h : Cuts s ts rest)
    (hlast : ∀ t ∈ ts.getLast?, t.isText → rest ≠ []) : Cuts (s ++ u) ts (rest ++ u) := by
  induction h with
  | nil => exact .nil _
  | @cons s mid rest t ts hs hts ih =>
    -- A text that is not the last is ended by the token behind it.
    refine .cons (scan_append u hs fun ht => ?_) (ih fun t' ht' => hlast t' ?_)
    · cases hts with
      | nil => exact hlast t rfl ht
      | cons hmid => exact fun hnil => by simp [hnil, scan] at hmid
    · cases ts with
      | nil => cases ht'
      | cons => exact ht'

/-- Tokens are the same if the document ends behind them. -/
theorem render (h : Cuts s ts rest) : Cuts (ts.flatMap Token.render) ts [] :=
  of_append rest (h.eq_append ▸ h)

end Cuts

/-! ## All tokens -/

/-- What is left behind the last token. -/
inductive Ends (s : Bytes) : Ending → Prop where
  | complete (h : scan s = .done) : Ends s .complete
  | broken {e : MarkupError} {left : Bytes} (h : scan s = .failed e left) :
      Ends s (.broken e (s.length - left.length))

section Lex

variable {s mid rest : Bytes} {ts : List Token} {t : Token} {e : Ending}

theorem lexFrom_of_scan {seen : List Token} (h : scan s = .token t rest) :
    lexFrom seen s = lexFrom (t :: seen) rest := by
  rw [lexFrom]
  split
  · rename_i hs
    cases h.symm.trans hs
  · rename_i hs
    cases h.symm.trans hs
    rfl
  · rename_i hs
    cases h.symm.trans hs

theorem Cuts.lexFrom (h : Cuts s ts rest) (seen : List Token) :
    lexFrom seen s = Token.lexFrom (ts.reverse ++ seen) rest := by
  induction h generalizing seen with
  | nil => rfl
  | cons hs _ ih =>
    rw [lexFrom_of_scan hs, ih, List.reverse_cons, List.append_assoc, List.singleton_append]

theorem Ends.lexFrom (h : Ends s e) (seen : List Token) : lexFrom seen s = (seen.reverse, e) := by
  rw [Token.lexFrom]
  split
  · rename_i hs
    cases h with
    | complete => rfl
    | broken h => cases h.symm.trans hs
  · rename_i hs
    cases h with
    | complete h => cases h.symm.trans hs
    | broken h => cases h.symm.trans hs
  · rename_i hs
    cases h with
    | complete h => cases h.symm.trans hs
    | broken h =>
      cases h.symm.trans hs
      rfl

theorem exists_cuts_of_lexFrom {seen : List Token} (h : lexFrom seen s = (ts, e)) :
    ∃ new rest, ts = seen.reverse ++ new ∧ Cuts s new rest ∧ Ends rest e := by
  fun_induction lexFrom seen s with
  | case1 seen s hs =>
    cases h
    exact ⟨[], s, by simp, .nil s, .complete hs⟩
  | case2 seen s t rest hs ih =>
    obtain ⟨new, left, rfl, hnew, hleft⟩ := ih h
    exact ⟨t :: new, left, by simp, .cons hs hnew, hleft⟩
  | case3 seen s e rest hs =>
    cases h
    exact ⟨[], s, by simp, .nil s, .broken hs⟩

theorem lex_eq_iff : lex s = (ts, e) ↔ ∃ rest, Cuts s ts rest ∧ Ends rest e := by
  constructor
  · intro h
    obtain ⟨new, rest, rfl, hcuts, hends⟩ := exists_cuts_of_lexFrom h
    exact ⟨rest, hcuts, hends⟩
  · rintro ⟨rest, hcuts, hends⟩
    rw [lex, hcuts.lexFrom, hends.lexFrom]
    simp

theorem lex_eq_complete : lex s = (ts, .complete) ↔ Cuts s ts [] := by
  rw [lex_eq_iff]
  constructor
  · rintro ⟨rest, hcuts, hends⟩
    cases hends with
    | complete h => rwa [scan_eq_done.1 h] at hcuts
  · intro h
    exact ⟨[], h, .complete rfl⟩

theorem Cuts.lex_fst (h : Cuts s ts mid) : (lex s).1 = ts ++ (lex mid).1 := by
  rcases hmid : lex mid with ⟨us, e⟩
  obtain ⟨rest, hcuts, hends⟩ := lex_eq_iff.1 hmid
  rw [lex_eq_iff.2 ⟨rest, h.trans hcuts, hends⟩]

end Lex

end Token

end WaylandDoc
