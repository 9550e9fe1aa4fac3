import Mathlib.Data.List.Forall2
import Mathlib.Data.List.TakeWhile
import WaylandDoc.Log
import WaylandDoc.Markup.Attribute

/-!
# The form of attributes

`Spelled` says how attributes are written in a tag: a name, an equals sign and a value in quotes,
with blanks around them as one likes. Attributes can be read just if they are spelled so, no name
is used twice and every value can be decoded (`ofTag_eq_ok`).
-/

namespace WaylandDoc

/-! ## Where a span ends -/

section Span

variable {α : Type} {p : α → Bool} {l r s : List α} {x : α}

theorem takeWhile_append_cons (hl : ∀ a ∈ l, p a) (hx : p x = false) :
    (l ++ x :: r).takeWhile p = l := by
  simp [List.takeWhile_append_of_pos hl, hx]

theorem dropWhile_append_cons (hl : ∀ a ∈ l, p a) (hx : p x = false) :
    (l ++ x :: r).dropWhile p = x :: r := by
  simp [List.dropWhile_append_of_pos hl, hx]

theorem eq_append_of_dropWhile (h : s.dropWhile p = x :: r) :
    s = s.takeWhile p ++ x :: r ∧ p x = false := by
  refine ⟨by rw [← h, List.takeWhile_append_dropWhile], ?_⟩
  have hne : s.dropWhile p ≠ [] := by simp [h]
  have hhead := List.head_dropWhile_not p hne
  simpa [h] using hhead

theorem all_of_dropWhile_nil (h : s.dropWhile p = []) : ∀ a ∈ s, p a :=
  List.dropWhile_eq_nil_iff.1 h

end Span

namespace Attribute

/-- The bytes spell the attributes. -/
inductive Spelled : Bytes → List Raw → Prop where
  | nil {blanks : Bytes} (h : ∀ c ∈ blanks, isBlank c) : Spelled blanks []
  | cons {blanks name before after value rest : Bytes} {b quote : UInt8} {raws : List Raw}
      (hblanks : ∀ c ∈ blanks, isBlank c) (hb : isBlank b = false) (hname : ∀ c ∈ name, inName c)
      (hbefore : ∀ c ∈ before, isBlank c) (hafter : ∀ c ∈ after, isBlank c)
      (hquote : quote = byte '"' ∨ quote = byte '\'') (hvalue : quote ∉ value)
      (hrest : Spelled rest raws) :
      Spelled
        (blanks ++ b :: name ++ before ++ byte '=' :: after ++ quote :: value ++ quote :: rest)
        (⟨b :: name, value⟩ :: raws)

/-- The value of the attribute can be decoded. -/
def Decodes (r : Raw) (a : Attribute) : Prop :=
  a.name = localName r.name ∧ AttributeValue.read r.value = .ok a.value

theorem isBlank_quote {quote : UInt8} (h : quote = byte '"' ∨ quote = byte '\'') :
    isBlank quote = false := by
  rcases h with rfl | rfl <;> decide

theorem quoted_eq_ok {position : Nat} {s value rest : Bytes} :
    quoted position s = .ok (value, rest) ↔ ∃ after quote,
      s = after ++ quote :: value ++ quote :: rest ∧ (∀ c ∈ after, isBlank c) ∧
        (quote = byte '"' ∨ quote = byte '\'') ∧ quote ∉ value := by
  constructor
  · intro h
    unfold quoted at h
    dsimp only at h
    split at h
    · cases h
    · rename_i quote t hs
      split at h
      · rename_i hquote
        split at h
        · cases h
        · rename_i q r ht
          cases h
          obtain ⟨hs, -⟩ := eq_append_of_dropWhile hs
          obtain ⟨ht, hq⟩ := eq_append_of_dropWhile ht
          obtain rfl : q = quote := by simpa using hq
          refine ⟨s.takeWhile isBlank, q, ?_, fun c => List.mem_takeWhile_imp, hquote, ?_⟩
          · rw [List.append_assoc, List.cons_append, ← ht]
            exact hs
          · intro hmem
            simpa using List.mem_takeWhile_imp hmem
      · cases h
  · rintro ⟨after, quote, rfl, hafter, hquote, hvalue⟩
    simp only [List.append_assoc, List.cons_append]
    have hdrop : (after ++ quote :: (value ++ quote :: rest)).dropWhile isBlank =
        quote :: (value ++ quote :: rest) :=
      dropWhile_append_cons hafter (isBlank_quote hquote)
    have hne : ∀ c ∈ value, (c != quote) = true := by
      intro c hc
      rw [bne_iff_ne]
      rintro rfl
      exact hvalue hc
    simp [quoted, hdrop, hquote, takeWhile_append_cons hne, dropWhile_append_cons hne]

theorem previous?_eq_none {seen : List (Bytes × Nat)} {name : Bytes} :
    previous? seen name = none ↔ name ∉ seen.map Prod.fst := by
  simp only [previous?, Option.map_eq_none_iff, List.find?_eq_none, beq_iff_eq, List.mem_map,
    not_exists, not_and]

/-- Blanks and an equals sign end a name. -/
theorem takeWhile_inName {name before : Bytes} (hname : ∀ c ∈ name, inName c)
    (hbefore : ∀ c ∈ before, isBlank c) (after : Bytes) :
    (name ++ (before ++ byte '=' :: after)).takeWhile inName = name ∧
      (name ++ (before ++ byte '=' :: after)).dropWhile inName = before ++ byte '=' :: after := by
  cases before with
  | nil => exact ⟨takeWhile_append_cons hname rfl, dropWhile_append_cons hname rfl⟩
  | cons c before =>
    have hc : inName c = false := by simp [inName, hbefore c List.mem_cons_self]
    exact ⟨takeWhile_append_cons hname hc, dropWhile_append_cons hname hc⟩

theorem raw_eq_ok {seen : List (Bytes × Nat)} {position : Nat} {b : UInt8} {s rest : Bytes}
    {r : Raw} :
    raw seen position b s = .ok (r, rest) ↔ ∃ name before after quote,
      r.name = b :: name ∧
        s = name ++ before ++ byte '=' :: after ++ quote :: r.value ++ quote :: rest ∧
        (∀ c ∈ name, inName c) ∧ (∀ c ∈ before, isBlank c) ∧ (∀ c ∈ after, isBlank c) ∧
        (quote = byte '"' ∨ quote = byte '\'') ∧ quote ∉ r.value ∧
        r.name ∉ seen.map Prod.fst := by
  constructor
  · intro h
    unfold raw at h
    dsimp only at h
    split at h
    · cases h
    · rename_i c t hs
      split at h
      · rename_i hc
        subst hc
        split at h
        · cases h
        · rename_i hseen
          obtain ⟨hs, -⟩ := eq_append_of_dropWhile hs
          obtain ⟨⟨value, rest'⟩, hq, heq⟩ := map_eq_ok.1 h
          cases heq
          obtain ⟨after, quote, rfl, hafter, hquote, hvalue⟩ := quoted_eq_ok.1 hq
          refine ⟨s.takeWhile inName, (s.dropWhile inName).takeWhile isBlank, after, quote, rfl, ?_,
            fun c => List.mem_takeWhile_imp, fun c => List.mem_takeWhile_imp, hafter, hquote,
            hvalue, previous?_eq_none.1 hseen⟩
          have hsplit := (List.takeWhile_append_dropWhile (p := inName) (l := s)).symm
          rw [hs] at hsplit
          simpa using hsplit
      · cases h
  · rintro ⟨name, before, after, quote, hname, rfl, hin, hbefore, hafter, hquote, hvalue, hseen⟩
    obtain ⟨rname, value⟩ := r
    obtain rfl : rname = b :: name := hname
    have hquoted (position : Nat) :
        quoted position (after ++ quote :: value ++ quote :: rest) = .ok (value, rest) :=
      quoted_eq_ok.2 ⟨after, quote, rfl, hafter, hquote, hvalue⟩
    have hin := takeWhile_inName hin hbefore (after ++ quote :: value ++ quote :: rest)
    have hblank : (before ++ byte '=' :: (after ++ quote :: value ++ quote :: rest)).dropWhile
        isBlank = byte '=' :: (after ++ quote :: value ++ quote :: rest) :=
      dropWhile_append_cons hbefore rfl
    have hs : name ++ before ++ byte '=' :: after ++ quote :: value ++ quote :: rest =
        name ++ (before ++ byte '=' :: (after ++ quote :: value ++ quote :: rest)) := by simp
    simp only [raw, hs, hin, hblank, if_true, previous?_eq_none.2 hseen, hquoted]
    rfl

/-! ## Tags -/

section Spelled

variable {s t rest : Bytes} {b : UInt8} {raws : List Raw} {seen : List (Bytes × Nat)}

theorem Spelled.eq_nil (h : Spelled s raws) (hs : s.dropWhile isBlank = []) : raws = [] := by
  cases h with
  | nil => rfl
  | @cons _ _ _ _ _ _ b _ _ _ hb =>
    have hblank := all_of_dropWhile_nil hs b (by simp)
    simp [hb] at hblank

theorem Spelled.of_raw {position : Nat} {r : Raw} (hs : s.dropWhile isBlank = b :: t)
    (hraw : raw seen position b t = .ok (r, rest)) (h : Spelled rest raws) :
    Spelled s (r :: raws) := by
  obtain ⟨hs, hb⟩ := eq_append_of_dropWhile hs
  obtain ⟨name, before, after, quote, hname, rfl, hin, hbefore, hafter, hquote, hvalue, -⟩ :=
    raw_eq_ok.1 hraw
  obtain ⟨rname, value⟩ := r
  obtain rfl : rname = b :: name := hname
  have hblanks : ∀ c ∈ s.takeWhile isBlank, isBlank c := fun c => List.mem_takeWhile_imp
  have hspelled := Spelled.cons hblanks hb hin hbefore hafter hquote hvalue h
  have heq : s = s.takeWhile isBlank ++ b :: name ++ before ++ byte '=' :: after ++
      quote :: value ++ quote :: rest := by
    simpa using hs
  rwa [← heq] at hspelled

/-- Spelled attributes begin with one that can be cut out. -/
theorem Spelled.exists_raw (h : Spelled s raws) (position : Nat) (hs : s.dropWhile isBlank = b :: t)
    (hseen : ∀ r ∈ raws, r.name ∉ seen.map Prod.fst) :
    ∃ r rest raws', raws = r :: raws' ∧ raw seen position b t = .ok (r, rest) ∧
      Spelled rest raws' := by
  cases h with
  | nil hblanks =>
    have hnil := List.dropWhile_eq_nil_iff.2 hblanks
    simp [hs] at hnil
  | @cons blanks name before after value rest b' quote raws' hblanks hb' hname hbefore hafter
      hquote hvalue hrest =>
    simp only [List.append_assoc, List.cons_append] at hs
    rw [dropWhile_append_cons hblanks hb'] at hs
    cases hs
    refine ⟨_, rest, raws', rfl, raw_eq_ok.2 ?_, hrest⟩
    exact ⟨name, before, after, quote, rfl, by simp, hname, hbefore, hafter, hquote, hvalue,
      hseen _ List.mem_cons_self⟩

end Spelled

theorem readFrom_eq_ok {seen : List (Bytes × Nat)} {acc as : List Attribute} {position : Nat}
    {s : Bytes} :
    readFrom seen acc position s = .ok as ↔ ∃ raws bs, Spelled s raws ∧
      (raws.map Raw.name).Nodup ∧ (∀ r ∈ raws, r.name ∉ seen.map Prod.fst) ∧
      List.Forall₂ Decodes raws bs ∧ as = acc.reverse ++ bs := by
  fun_induction readFrom seen acc position s with
  | case1 seen acc position s hs =>
    constructor
    · rintro ⟨rfl⟩
      exact ⟨[], [], .nil (all_of_dropWhile_nil hs), .nil, nofun, .nil, by simp⟩
    · rintro ⟨raws, bs, hspelled, -, -, hbs, rfl⟩
      cases hspelled.eq_nil hs
      cases hbs
      simp
  | case2 seen acc position s start b t hs fault hraw =>
    constructor
    · rintro ⟨⟩
    · rintro ⟨raws, bs, hspelled, -, hseen, -, -⟩
      obtain ⟨r, rest, raws', -, hok, -⟩ := hspelled.exists_raw start hs hseen
      simp [hraw] at hok
  | case3 seen acc position s start b t hs r rest hraw fault hvalue =>
    constructor
    · rintro ⟨⟩
    · rintro ⟨raws, bs, hspelled, -, hseen, hbs, -⟩
      obtain ⟨r', rest', raws', rfl, hok, -⟩ := hspelled.exists_raw start hs hseen
      cases hraw.symm.trans hok
      cases hbs with
      | cons hd _ => simp [Decodes, hvalue] at hd
  | case4 seen acc position s start b t hs r rest hraw text hvalue ih =>
    obtain ⟨-, -, -, -, -, -, -, -, -, -, -, hnew⟩ := raw_eq_ok.1 hraw
    rw [ih]
    constructor
    · rintro ⟨raws, bs, hspelled, hnodup, hseen, hbs, rfl⟩
      have hr : r.name ∉ raws.map Raw.name := by
        intro hmem
        obtain ⟨r', hr', heq⟩ := List.mem_map.1 hmem
        exact hseen r' hr' (by simp [heq])
      refine ⟨r :: raws, ⟨localName r.name, text⟩ :: bs, .of_raw hs hraw hspelled,
        List.nodup_cons.2 ⟨hr, hnodup⟩, ?_, .cons ⟨rfl, hvalue⟩ hbs, by simp⟩
      rintro r' (_ | ⟨_, hr'⟩)
      · exact hnew
      · exact fun hmem => hseen r' hr' (by simp [hmem])
    · rintro ⟨raws, bs, hspelled, hnodup, hseen, hbs, rfl⟩
      obtain ⟨r', rest', raws', rfl, hok, hrest⟩ :=
        hspelled.exists_raw start hs hseen
      cases hraw.symm.trans hok
      cases hbs with
      | @cons _ a _ bs hd hbs =>
        obtain ⟨aname, avalue⟩ := a
        obtain ⟨hname, hread⟩ := hd
        cases hvalue.symm.trans hread
        obtain rfl : aname = localName r.name := hname
        refine ⟨raws', bs, hrest, (List.nodup_cons.1 hnodup).2, ?_, hbs, by simp⟩
        intro r' hr'
        have hne : r'.name ≠ r.name := fun heq =>
          (List.nodup_cons.1 hnodup).1 (List.mem_map.2 ⟨r', hr', heq⟩)
        simpa [hne] using hseen r' (List.mem_cons_of_mem _ hr')

/-- The attributes of a tag can be read just if they are spelled after its name, with each name
used once and all values decoded. -/
theorem ofTag_eq_ok {tag : Bytes} {as : List Attribute} :
    ofTag tag = .ok as ↔ ∃ raws, Spelled (tag.dropWhile (!isBlank ·)) raws ∧
      (raws.map Raw.name).Nodup ∧ List.Forall₂ Decodes raws as := by
  rw [ofTag, readFrom_eq_ok]
  constructor
  · rintro ⟨raws, bs, hspelled, hnodup, -, hbs, rfl⟩
    exact ⟨raws, hspelled, hnodup, hbs⟩
  · rintro ⟨raws, hspelled, hnodup, has⟩
    exact ⟨raws, as, hspelled, hnodup, fun _ _ => by simp, has, rfl⟩

end Attribute

end WaylandDoc
