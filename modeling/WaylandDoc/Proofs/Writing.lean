import Mathlib.Data.List.Nodup
import WaylandDoc.Proofs.Call
import WaylandDoc.Proofs.Cuts
import WaylandDoc.Proofs.Declared
import WaylandDoc.Proofs.Encoding

/-!
# Writing marked text

Tags are written with their attributes in double quotes, and text and values are escaped. Reading
goes back: a tag is one token again (`Mark.scan_bytes`), with the values that were written
(`Mark.find?_tag`), and escaped text is cut at its references into tokens that come down to the text
(`Token.exists_spell`). So a builder sees of a document the tags and texts that were written
(`parse_pieces`).
-/

namespace WaylandDoc

open Utf8 (encode)
open String (utf8EncodeChar)

/-- A name of ASCII letters and dashes. -/
def IsPlain (name : String) : Prop :=
  name.toList ≠ [] ∧ ∀ c ∈ name.toList, c.isAlpha ∨ c = '-'

-- Named, since an instance that goes through all characters could be found first.
instance (name : String) : Decidable (IsPlain name) :=
  @instDecidableAnd _ _ _ (List.decidableBAll _ _)

theorem mem_ascii {b : UInt8} {s : String} : b ∈ ascii s ↔ ∃ c ∈ s.toList, byte c = b := by
  simp [ascii, byte]

namespace IsPlain

variable {name name' : String}

theorem ascii_ne_nil (h : IsPlain name) : ascii name ≠ [] := by
  simpa [ascii] using h.1

theorem toNat_lt (h : IsPlain name) : ∀ c ∈ name.toList, c.toNat < 0x80 := by
  intro c hc
  rcases h.2 c hc with halpha | rfl
  · have hrange : ('A'.val ≤ c.val ∧ c.val ≤ 'Z'.val) ∨ 'a'.val ≤ c.val ∧ c.val ≤ 'z'.val := by
      simpa using show (decide (_ ∧ _) || (decide _ && decide _)) = true from halpha
    simp only [UInt32.le_iff_toNat_le] at hrange
    have hval : c.val.toNat = c.toNat := rfl
    have hz : UInt32.toNat 'z'.val = 122 := rfl
    have hZ : UInt32.toNat 'Z'.val = 90 := rfl
    omega
  · decide

/-- No other character has a byte of a plain name. -/
theorem byte_notMem (h : IsPlain name) {d : Char} (hd : d.toNat < 0x80)
    (hplain : ¬ (d.isAlpha ∨ d = '-')) : byte d ∉ ascii name := by
  intro hmem
  obtain ⟨c, hc, heq⟩ := mem_ascii.1 hmem
  exact hplain (Utf8.byte_inj (h.toNat_lt c hc) hd heq ▸ h.2 c hc)

theorem not_isBlank (h : IsPlain name) : ∀ b ∈ ascii name, isBlank b = false := by
  intro b hb
  have hne {d : Char} (hd : d.toNat < 0x80) (hplain : ¬ (d.isAlpha ∨ d = '-')) : b ≠ byte d :=
    fun heq => h.byte_notMem hd hplain (heq ▸ hb)
  have hspace : b ≠ byte ' ' := hne (by decide) (by decide)
  have htab : b ≠ byte '\t' := hne (by decide) (by decide)
  have hreturn : b ≠ byte '\r' := hne (by decide) (by decide)
  have hnewline : b ≠ byte '\n' := hne (by decide) (by decide)
  simp [isBlank, newline, hspace, htab, hreturn, hnewline]

theorem inName (h : IsPlain name) : ∀ b ∈ ascii name, Attribute.inName b := by
  intro b hb
  have hequals : b ≠ byte '=' := fun heq => h.byte_notMem (by decide) (by decide) (heq ▸ hb)
  simp [Attribute.inName, h.not_isBlank b hb, hequals]

theorem localName (h : IsPlain name) : localName (ascii name) = ascii name := by
  have hcolon : (ascii name).dropWhile (· != byte ':') = [] := by
    rw [List.dropWhile_eq_nil_iff]
    intro b hb
    rw [bne_iff_ne]
    rintro rfl
    exact h.byte_notMem (by decide) (by decide) hb
  rw [WaylandDoc.localName, hcolon]

theorem ascii_inj (h : IsPlain name) (h' : IsPlain name') (heq : ascii name = ascii name') :
    name = name' := by
  have hdecode := Utf8.decode_encode name
  rw [Utf8.encode_eq_ascii h.toNat_lt, heq, ← Utf8.encode_eq_ascii h'.toNat_lt,
    Utf8.decode_encode] at hdecode
  exact (Except.ok.inj hdecode).symm

end IsPlain

namespace Element

theorem isPlain (e : Element) : IsPlain e.name := by
  cases e <;> decide

theorem endName_name (e : Element) : Tag.endName (ascii e.name) = ascii e.name := by
  cases e <;> decide

end Element

/-! ## Attributes -/

/-- A tag of an element of the schema, with the names and the values of its attributes. -/
inductive Mark where
  | start (e : Element) (attributes : List (String × String))
  | empty (e : Element) (attributes : List (String × String))
  | close (e : Element)

namespace Mark

def attributeBytes (a : String × String) : Bytes :=
  ascii " " ++ ascii a.1 ++ ascii "=\"" ++ encode (escape a.2) ++ ascii "\""

/-- The bytes of a start tag between the angle brackets. -/
def tag (e : Element) (attributes : List (String × String)) : Bytes :=
  ascii e.name ++ attributes.flatMap attributeBytes

def bytes : Mark → Bytes
  | start e attributes => ascii "<" ++ tag e attributes ++ ascii ">"
  | empty e attributes => ascii "<" ++ tag e attributes ++ ascii "/>"
  | close e => ascii "</" ++ ascii e.name ++ ascii ">"

def token : Mark → Token
  | start e attributes => .start (tag e attributes)
  | empty e attributes => .empty (tag e attributes)
  | close e => .close (ascii e.name)

/-- The names of the attributes of the tag. -/
def names : Mark → List String
  | start _ attributes => attributes.map Prod.fst
  | empty _ attributes => attributes.map Prod.fst
  | close _ => []

section Tag

open Attribute (Raw Spelled Decodes)

variable {e : Element} {as : List (String × String)}

/-- The name of the element ends at the first attribute or at the end of the tag. -/
theorem tag_span (e : Element) (as : List (String × String)) :
    Tag.name (tag e as) = ascii e.name ∧
      (tag e as).dropWhile (!isBlank ·) = as.flatMap attributeBytes := by
  have hname : ∀ b ∈ ascii e.name, (!isBlank b) = true := fun b hb => by
    rw [e.isPlain.not_isBlank b hb, Bool.not_false]
  cases as with
  | nil =>
    simp [Tag.name, tag, List.takeWhile_eq_self_iff.2 hname, List.dropWhile_eq_nil_iff.2 hname]
  | cons a as =>
    have htag : tag e (a :: as) = ascii e.name ++ byte ' ' :: (ascii a.1 ++ ascii "=\"" ++
        encode (escape a.2) ++ ascii "\"" ++ as.flatMap attributeBytes) := by
      simp [tag, attributeBytes, ascii, byte]
    rw [Tag.name, htag, takeWhile_append_cons hname rfl, dropWhile_append_cons hname rfl]
    simp [attributeBytes, ascii, byte]

theorem spelled_attributes (hplain : ∀ a ∈ as, IsPlain a.1) :
    Spelled (as.flatMap attributeBytes)
      (as.map fun a => ⟨ascii a.1, encode (escape a.2)⟩) := by
  induction as with
  | nil => exact .nil (List.forall_mem_nil _)
  | cons a as ih =>
    rw [List.forall_mem_cons] at hplain
    obtain ⟨ha, has⟩ := hplain
    obtain ⟨b, name, hname⟩ := List.exists_cons_of_ne_nil ha.ascii_ne_nil
    have hin := ha.inName
    have hblank := ha.not_isBlank
    rw [hname, List.forall_mem_cons] at hin hblank
    have hbytes : (a :: as).flatMap attributeBytes = [byte ' '] ++ b :: name ++ [] ++ byte '=' ::
        [] ++ byte '"' :: encode (escape a.2) ++ byte '"' :: as.flatMap attributeBytes := by
      rw [List.flatMap_cons, attributeBytes, hname]
      simp [ascii, byte]
    rw [hbytes, List.map_cons, hname]
    exact .cons (List.all_eq_true.1 rfl) hblank.1 hin.2 (List.forall_mem_nil _)
      (List.forall_mem_nil _) (.inl rfl) (quote_notMem_escape a.2) (ih has)

theorem ofTag_tag (hplain : ∀ a ∈ as, IsPlain a.1) (hnodup : (as.map Prod.fst).Nodup) :
    Attribute.ofTag (tag e as) = .ok (as.map fun a => ⟨ascii a.1, a.2⟩) := by
  refine Attribute.ofTag_eq_ok.2 ⟨as.map fun a => ⟨ascii a.1, encode (escape a.2)⟩, ?_, ?_, ?_⟩
  · rw [(tag_span e as).2]
    exact spelled_attributes hplain
  · have hnames : (as.map fun a => (⟨ascii a.1, encode (escape a.2)⟩ : Raw)).map Raw.name =
        (as.map Prod.fst).map ascii := by simp
    rw [hnames]
    refine List.Nodup.map_on (fun x hx y hy heq => ?_) hnodup
    obtain ⟨a, ha, rfl⟩ := List.mem_map.1 hx
    obtain ⟨b, hb, rfl⟩ := List.mem_map.1 hy
    exact (hplain a ha).ascii_inj (hplain b hb) heq
  · rw [List.forall₂_map_left_iff, List.forall₂_map_right_iff, List.forall₂_same]
    intro a ha
    exact ⟨(hplain a ha).localName.symm, AttributeValue.read_encode_escape a.2⟩

/-- The value under a name is the one that is written. -/
theorem find?_tag (hplain : ∀ a ∈ as, IsPlain a.1) (hnodup : (as.map Prod.fst).Nodup)
    {name : String} (hname : IsPlain name) :
    Attribute.find? (as.map fun a => ⟨ascii a.1, a.2⟩) name = as.lookup name := by
  have hne {a : String × String} (ha : IsPlain a.1) (h : a.1 ≠ name) : ascii a.1 ≠ ascii name :=
    fun heq => h (ha.ascii_inj hname heq)
  cases hlookup : as.lookup name with
  | some v =>
    obtain ⟨before, after, rfl, -⟩ := List.lookup_eq_some_iff.1 hlookup
    rw [Attribute.find?_eq_some]
    refine ⟨_, _, by rw [List.map_append, List.map_cons], fun x hx => ?_⟩
    obtain ⟨a, ha, rfl⟩ := List.mem_map.1 hx
    refine hne (hplain a (by simp [ha])) ?_
    rintro rfl
    rw [List.map_append, List.map_cons, List.nodup_append] at hnodup
    exact (List.nodup_cons.1 hnodup.2.1).1 (List.mem_map.2 ⟨a, ha, rfl⟩)
  | none =>
    rw [List.lookup_eq_none_iff] at hlookup
    rw [Attribute.find?, Option.map_eq_none_iff, List.find?_eq_none]
    intro x hx
    obtain ⟨a, ha, rfl⟩ := List.mem_map.1 (List.mem_reverse.1 hx)
    have hname' : a.1 ≠ name := fun heq => by simpa [heq] using hlookup a ha
    simpa using hne (hplain a ha) hname'

end Tag

/-! ## Tags -/

open Delimiter (quotes)

/-- No quote is open after the bytes, and they have no `>` that ends a tag. -/
def Whole (s : Bytes) : Prop :=
  ∀ seen t, quotes.cut none seen (s ++ t) = quotes.cut none (s.reverse ++ seen) t

theorem Whole.append {s t : Bytes} (hs : Whole s) (ht : Whole t) : Whole (s ++ t) := by
  intro seen u
  rw [List.append_assoc, hs, ht, List.reverse_append, List.append_assoc]

theorem whole_of_forall {s : Bytes} (h : ∀ b ∈ s, b ≠ byte '"' ∧ b ≠ byte '\'' ∧ b ≠ byte '>') :
    Whole s := by
  intro seen t
  induction s generalizing seen with
  | nil => rfl
  | cons b s ih =>
    rw [List.forall_mem_cons] at h
    obtain ⟨⟨hquot, hapos, hgt⟩, hs⟩ := h
    have hnext : quotes.next none b = none := by simp [quotes, hquot, hapos]
    have hend : (b == byte '>' && quotes.closes none) = false := by simp [hgt]
    rw [List.cons_append, Delimiter.cut, if_neg (by simp [hend]), hnext, ih hs]
    simp

theorem whole_singleton {b : UInt8} (h : b ≠ byte '"' ∧ b ≠ byte '\'' ∧ b ≠ byte '>') :
    Whole [b] :=
  whole_of_forall (List.forall_mem_singleton.2 h)

/-- A `>` between quotes does not end a tag. -/
theorem cut_quoted {quote : UInt8} {s : Bytes} (h : quote ∉ s) (seen t : Bytes) :
    quotes.cut (some quote) seen (s ++ t) = quotes.cut (some quote) (s.reverse ++ seen) t := by
  induction s generalizing seen with
  | nil => rfl
  | cons b s ih =>
    rw [List.mem_cons, not_or] at h
    obtain ⟨hb, hs⟩ := h
    have hnext : quotes.next (some quote) b = some quote := by simp [quotes, Ne.symm hb]
    rw [List.cons_append, Delimiter.cut, if_neg (by simp [quotes]), hnext, ih hs]
    simp

theorem whole_quoted {quote : UInt8} (hquote : quote = byte '"' ∨ quote = byte '\'') {s : Bytes}
    (h : quote ∉ s) : Whole (quote :: s ++ [quote]) := by
  intro seen t
  have hopen : quotes.next none quote = some quote := by rcases hquote with rfl | rfl <;> rfl
  have hclose : quotes.next (some quote) quote = none := by simp [quotes]
  have hend : ¬ (quote == byte '>' && quotes.closes none) := by
    rcases hquote with rfl | rfl <;> decide
  rw [List.append_assoc, List.cons_append, Delimiter.cut, if_neg hend, hopen, cut_quoted h,
    List.singleton_append, Delimiter.cut, if_neg (by simp [quotes]), hclose]
  simp

theorem whole_ascii {name : String} (h : IsPlain name) : Whole (ascii name) := by
  refine whole_of_forall fun b hb => ⟨?_, ?_, ?_⟩ <;> rintro rfl
  · exact h.byte_notMem (by decide) (by decide) hb
  · exact h.byte_notMem (by decide) (by decide) hb
  · exact h.byte_notMem (by decide) (by decide) hb

theorem whole_attributeBytes {a : String × String} (h : IsPlain a.1) :
    Whole (attributeBytes a) := by
  have hbytes : attributeBytes a = [byte ' '] ++ ascii a.1 ++ [byte '='] ++
      (byte '"' :: encode (escape a.2) ++ [byte '"']) := by
    simp [attributeBytes, ascii, byte]
  rw [hbytes]
  refine .append (.append (.append ?_ (whole_ascii h)) ?_)
    (whole_quoted (.inl rfl) (quote_notMem_escape a.2))
  · exact whole_singleton (by decide)
  · exact whole_singleton (by decide)

theorem whole_tag (e : Element) {as : List (String × String)} (hplain : ∀ a ∈ as, IsPlain a.1) :
    Whole (tag e as) := by
  refine .append (whole_ascii e.isPlain) ?_
  induction as with
  | nil => exact fun seen t => rfl
  | cons a as ih =>
    rw [List.forall_mem_cons] at hplain
    rw [List.flatMap_cons]
    exact (whole_attributeBytes hplain.1).append (ih hplain.2)

/-- A tag ends at the first `>` that is not between quotes. -/
theorem Whole.cut {s : Bytes} (h : Whole s) (rest : Bytes) :
    quotes.cut none [] (s ++ byte '>' :: rest) = some (s, rest) := by
  rw [h, Delimiter.cut, if_pos (by decide)]
  simp

theorem getLast?_tag (e : Element) (as : List (String × String)) :
    (tag e as).getLast? ≠ some (byte '/') := by
  rcases List.eq_nil_or_concat' as with rfl | ⟨as, a, rfl⟩
  · cases e <;> decide
  · have hbytes : tag e (as ++ [a]) = ascii e.name ++ as.flatMap attributeBytes ++
        (ascii " " ++ ascii a.1 ++ ascii "=\"" ++ encode (escape a.2)) ++ [byte '"'] := by
      simp [tag, attributeBytes, ascii, byte]
    rw [hbytes, List.getLast?_concat]
    decide

/-- No declaration, instruction or end tag begins like a start tag. -/
theorem exists_cons_tag (e : Element) (as : List (String × String)) :
    ∃ b s, tag e as = b :: s ∧ b ≠ byte '!' ∧ b ≠ byte '?' ∧ b ≠ byte '/' := by
  obtain ⟨b, s, hname⟩ := List.exists_cons_of_ne_nil e.isPlain.ascii_ne_nil
  have hb : b ∈ ascii e.name := by simp [hname]
  refine ⟨b, s ++ as.flatMap attributeBytes, by rw [tag, hname, List.cons_append], ?_, ?_, ?_⟩ <;>
    rintro rfl
  · exact e.isPlain.byte_notMem (by decide) (by decide) hb
  · exact e.isPlain.byte_notMem (by decide) (by decide) hb
  · exact e.isPlain.byte_notMem (by decide) (by decide) hb

theorem scan_whole {content : Bytes} (h : Whole content) {b : UInt8} {s : Bytes}
    (hs : content = b :: s) (hb : b ≠ byte '!' ∧ b ≠ byte '?' ∧ b ≠ byte '/') (rest : Bytes) :
    Token.scan (byte '<' :: content ++ byte '>' :: rest) = .token (Token.ofTag content) rest := by
  have hcut := h.cut rest
  rw [hs, List.cons_append] at hcut
  rw [hs, List.cons_append, List.cons_append, Token.scan, if_pos rfl, Token.scanMarkup,
    if_neg hb.1, if_neg hb.2.1, if_neg hb.2.2, hcut]
  rfl

/-- A written tag is one token. -/
theorem scan_bytes {m : Mark} (hplain : ∀ name ∈ m.names, IsPlain name) (rest : Bytes) :
    Token.scan (m.bytes ++ rest) = .token m.token rest := by
  cases m with
  | start e as =>
    rw [names, List.forall_mem_map] at hplain
    obtain ⟨b, s, htag, hb⟩ := exists_cons_tag e as
    have hbytes : (start e as).bytes ++ rest = byte '<' :: tag e as ++ byte '>' :: rest := by
      simp [bytes, ascii, byte]
    rw [hbytes, scan_whole (whole_tag e hplain) htag hb, Token.ofTag, if_neg (getLast?_tag e as)]
    rfl
  | empty e as =>
    rw [names, List.forall_mem_map] at hplain
    obtain ⟨b, s, htag, hb⟩ := exists_cons_tag e as
    have hwhole : Whole (tag e as ++ [byte '/']) :=
      (whole_tag e hplain).append (whole_singleton (by decide))
    have hcons : tag e as ++ [byte '/'] = b :: (s ++ [byte '/']) := by rw [htag, List.cons_append]
    have hbytes : (empty e as).bytes ++ rest =
        byte '<' :: (tag e as ++ [byte '/']) ++ byte '>' :: rest := by
      simp [bytes, ascii, byte]
    rw [hbytes, scan_whole hwhole hcons hb, Token.ofTag, if_pos List.getLast?_concat,
      List.dropLast_concat]
    rfl
  | close e =>
    have hcut := (whole_ascii e.isPlain).cut rest
    have hbytes : (close e).bytes ++ rest =
        byte '<' :: byte '/' :: (ascii e.name ++ byte '>' :: rest) := by
      simp [bytes, ascii, byte]
    rw [hbytes, Token.scan, if_pos rfl, Token.scanMarkup, if_neg (by decide), if_neg (by decide),
      if_pos rfl, hcut]
    rfl

end Mark

/-! ## Text -/

namespace Token

/-- Tokens of character data that come down to the text. -/
structure Spell (ts : List Token) (s : String) : Prop where
  readable : ∀ t ∈ ts, t.Readable
  openAfter (names : List Bytes) : openAfter names ts = some names
  applyAll (b : Builder) : b.applyAll (ts.flatMap calls) = .ok (b.text s)

theorem spell_nil : Spell [] "" := ⟨nofun, fun _ => rfl, fun b => by simp [b.text_empty]⟩

theorem Spell.cons {ts : List Token} {t : Token} {s u : String} (h : Spell ts u)
    (hread : t.Readable) (hnest : ∀ names, nest names t = some names)
    (hcalls : t.calls = [.text s]) : Spell (t :: ts) (s ++ u) := by
  refine ⟨?_, fun names => ?_, fun b => ?_⟩
  · rw [List.forall_mem_cons]
    exact ⟨hread, h.readable⟩
  · rw [openAfter_cons, hnest]
    exact h.openAfter names
  · rw [List.flatMap_cons, hcalls, List.singleton_append, Builder.applyAll_cons_eq_ok]
    exact ⟨b.text s, rfl, by rw [h.applyAll, Builder.text_text]⟩

theorem Spell.text {ts : List Token} {u : String} (h : Spell ts u) (s : String) :
    Spell (.text (encode s) :: ts) (s ++ u) := by
  have hdecode : Reading.decode (encode s) = .ok s := by
    rw [Reading.decode, Utf8.decode_encode]
    rfl
  have hread : Readable (.text (encode s)) := ⟨s, hdecode⟩
  exact h.cons hread (fun _ => rfl) (by simp [calls, hdecode, Except.toOption])

theorem resolve_entity (e : Entity) : Reading.resolve (ascii e.name) = .ok e.char.toString := by
  cases e <;> decide +kernel

theorem Spell.entity {ts : List Token} {u : String} (h : Spell ts u) (e : Entity) :
    Spell (.reference (ascii e.name) :: ts) (e.char.toString ++ u) := by
  have hread : Readable (.reference (ascii e.name)) := ⟨_, resolve_entity e⟩
  exact h.cons hread (fun _ => rfl) (by simp [calls, resolve_entity, Except.toOption])

/-! ## Escaped text in a document -/

theorem scan_text {data tail : Bytes} (hne : data ≠ []) (hdata : ∀ b ∈ data, inText b)
    (htail : ∀ b ∈ tail.head?, inText b = false) :
    scan (data ++ tail) = .token (.text data) tail := by
  have hspan : (data ++ tail).takeWhile inText = data ∧ (data ++ tail).dropWhile inText = tail := by
    cases tail with
    | nil => simpa using hdata
    | cons b tail => exact ⟨takeWhile_append_cons hdata (htail b rfl),
        dropWhile_append_cons hdata (htail b rfl)⟩
  obtain ⟨b, data, rfl⟩ := List.exists_cons_of_ne_nil hne
  have hb : inText b := hdata b List.mem_cons_self
  rw [List.cons_append, List.takeWhile_cons, List.dropWhile_cons, if_pos hb, if_pos hb] at hspan
  obtain ⟨htake, hdrop⟩ := hspan
  simp only [inText, Bool.and_eq_true, bne_iff_ne] at hb
  rw [List.cons_append, scan, if_neg hb.1, if_neg hb.2, htake, hdrop]

theorem scan_reference (e : Entity) (rest : Bytes) :
    scan (e.reference.flatMap utf8EncodeChar ++ rest) =
      .token (.reference (ascii e.name)) rest := by
  have hname : ∀ b ∈ ascii e.name, inReference b := List.all_eq_true.1 (by cases e <;> decide)
  have hbytes : e.reference.flatMap utf8EncodeChar ++ rest =
      byte '&' :: (ascii e.name ++ byte ';' :: rest) := by
    cases e <;> rfl
  rw [hbytes, scan, if_neg (by decide), if_pos rfl, scanReference,
    dropWhile_append_cons hname rfl, takeWhile_append_cons hname rfl]
  rfl

/-- The bytes of an escaped text. -/
def escaped (cs : List Char) : Bytes := cs.flatMap fun c => (escapeChar c).flatMap utf8EncodeChar

theorem encode_escape (s : String) : encode (escape s) = escaped s.toList := by
  simp [encode, escape, escaped, List.flatMap_assoc]

theorem escaped_append (cs ds : List Char) : escaped (cs ++ ds) = escaped cs ++ escaped ds :=
  List.flatMap_append

theorem escaped_entity (e : Entity) (cs : List Char) :
    escaped (e.char :: cs) = e.reference.flatMap utf8EncodeChar ++ escaped cs := by
  rw [escaped, List.flatMap_cons, escapeChar_of_entity]
  rfl

/-- Characters that are not escaped. -/
def isOrdinary (c : Char) : Bool := (Entity.ofChar? c).isNone

theorem isOrdinary_eq_false {c : Char} : isOrdinary c = false ↔ ∃ e : Entity, c = e.char := by
  constructor
  · intro h
    rw [isOrdinary, Option.isNone_eq_false_iff, Option.isSome_iff_exists] at h
    obtain ⟨e, he⟩ := h
    have hchar : e.char == c := List.find?_some (p := fun e : Entity => e.char == c) he
    exact ⟨e, (beq_iff_eq.1 hchar).symm⟩
  · rintro ⟨e, rfl⟩
    cases e <;> rfl

section Ordinary

variable {cs : List Char}

theorem escaped_ordinary (h : ∀ c ∈ cs, isOrdinary c) : escaped cs = encode (.ofList cs) := by
  rw [encode, String.toList_ofList]
  refine List.flatMap_congr fun c hc => ?_
  rw [escapeChar, Option.isNone_iff_eq_none.1 (h c hc), List.flatMap_singleton]

theorem inText_ordinary (h : ∀ c ∈ cs, isOrdinary c) : ∀ b ∈ encode (.ofList cs), inText b := by
  intro b hb
  rw [encode, String.toList_ofList] at hb
  have hne {d : Char} (hd : d.toNat < 0x80) (hmarkup : isOrdinary d = false) : b ≠ byte d := by
    rintro rfl
    have := h d (Utf8.mem_of_byte_mem hd hb)
    rw [hmarkup] at this
    cases this
  have hlt : b ≠ byte '<' := hne (by decide) rfl
  have hamp : b ≠ byte '&' := hne (by decide) rfl
  simp [inText, hlt, hamp]

/-- A run of ordinary characters ends at a reference or where the text does. -/
theorem exists_run (cs : List Char) : ∃ run others, cs = run ++ others ∧
    (∀ c ∈ run, isOrdinary c) ∧ ∀ c ∈ others.head?, isOrdinary c = false := by
  refine ⟨cs.takeWhile isOrdinary, cs.dropWhile isOrdinary,
    List.takeWhile_append_dropWhile.symm, fun c => List.mem_takeWhile_imp, fun c hc => ?_⟩
  obtain ⟨ds, hds⟩ := List.head?_eq_some_iff.1 hc
  exact (eq_append_of_dropWhile hds).2

theorem inText_head_escaped {rest : Bytes} (hcs : ∀ c ∈ cs.head?, isOrdinary c = false)
    (hrest : ∀ b ∈ rest.head?, inText b = false) :
    ∀ b ∈ (escaped cs ++ rest).head?, inText b = false := by
  cases cs with
  | nil => exact hrest
  | cons c cs =>
    obtain ⟨e, rfl⟩ := isOrdinary_eq_false.1 (hcs c rfl)
    rw [escaped_entity]
    cases e <;> rintro b ⟨⟩ <;> rfl

end Ordinary

/-- Escaped text is cut into tokens that come down to the text. -/
theorem exists_spell (cs : List Char) {rest : Bytes} (hrest : ∀ b ∈ rest.head?, inText b = false)
    (seen : List Token) :
    ∃ ts, Spell ts (.ofList cs) ∧ lexFrom seen (escaped cs ++ rest) =
      lexFrom (ts.reverse ++ seen) rest := by
  induction hn : cs.length using Nat.strong_induction_on generalizing cs seen with
  | _ n ih =>
  cases cs with
  | nil => exact ⟨[], spell_nil, rfl⟩
  | cons c cs =>
    cases hc : isOrdinary c with
    | false =>
      obtain ⟨e, rfl⟩ := isOrdinary_eq_false.1 hc
      obtain ⟨ts, hts, hlex⟩ :=
        ih cs.length (by simp [← hn]) cs (.reference (ascii e.name) :: seen) rfl
      refine ⟨.reference (ascii e.name) :: ts, ?_, ?_⟩
      · rw [String.ofList_cons]
        exact hts.entity e
      · rw [escaped_entity, List.append_assoc, lexFrom_of_scan (scan_reference e _), hlex]
        simp
    | true =>
      obtain ⟨run, others, rfl, hrun, hothers⟩ := exists_run cs
      have hrun : ∀ d ∈ c :: run, isOrdinary d := List.forall_mem_cons.2 ⟨hc, hrun⟩
      have hlength : others.length < n := by
        rw [← hn, List.length_cons, List.length_append]
        omega
      obtain ⟨ts, hts, hlex⟩ :=
        ih others.length hlength others (.text (encode (.ofList (c :: run))) :: seen) rfl
      refine ⟨.text (encode (.ofList (c :: run))) :: ts, ?_, ?_⟩
      · rw [← List.cons_append, String.ofList_append]
        exact hts.text _
      · have hdata : encode (.ofList (c :: run)) ≠ [] := by
          simp [encode, String.utf8EncodeChar_ne_nil]
        have hscan := scan_text hdata (inText_ordinary hrun) (inText_head_escaped hothers hrest)
        rw [← List.cons_append, escaped_append, escaped_ordinary hrun, List.append_assoc,
          lexFrom_of_scan hscan, hlex]
        simp

end Token
open Token (openAfter)

/-! ## Pieces -/

/-- A tag and the text up to the next one. -/
structure Piece where
  mark : Mark
  text : String := ""

namespace Piece

def bytes (piece : Piece) : Bytes := piece.mark.bytes ++ encode (escape piece.text)

/-- What a builder is told of the piece. -/
def calls (piece : Piece) : List Call := piece.mark.token.calls ++ [.text piece.text]

/-- The names of its attributes are those that the schema could have. -/
def Plain (piece : Piece) : Prop := ∀ name ∈ piece.mark.names, IsPlain name

end Piece

/-- Written pieces are cut into tokens that have the same effect. -/
theorem exists_lex {ps : List Piece} (hps : ∀ piece ∈ ps, piece.Plain) (seen : List Token) :
    ∃ ts, Token.lexFrom seen (ps.flatMap Piece.bytes) = (seen.reverse ++ ts, .complete) ∧
      (∀ t ∈ ts, t.Readable) ∧
      (∀ names, openAfter names ts = openAfter names (ps.map (·.mark.token))) ∧
      ∀ b : Builder, b.applyAll (ts.flatMap Token.calls) = b.applyAll (ps.flatMap Piece.calls) := by
  induction ps generalizing seen with
  | nil =>
    exact ⟨[], by simp [Token.lexFrom, Token.scan], List.forall_mem_nil _, fun _ => rfl,
      fun _ => rfl⟩
  | cons piece ps ih =>
    obtain ⟨mark, text⟩ := piece
    rw [List.forall_mem_cons] at hps
    obtain ⟨hplain, hps⟩ := hps
    have hrest : ∀ b ∈ (ps.flatMap Piece.bytes).head?, Token.inText b = false := by
      cases ps with
      | nil => rintro b ⟨⟩
      | cons piece ps =>
        obtain ⟨mark, text⟩ := piece
        cases mark <;> rintro b ⟨⟩ <;> rfl
    obtain ⟨us, hus, hlex⟩ := Token.exists_spell text.toList hrest (mark.token :: seen)
    obtain ⟨ts, hts, hread, hopen, hcalls⟩ := ih hps (us.reverse ++ mark.token :: seen)
    rw [String.ofList_toList] at hus
    refine ⟨mark.token :: us ++ ts, ?_, ?_, fun names => ?_, fun b => ?_⟩
    · rw [List.flatMap_cons, Piece.bytes, Token.encode_escape, List.append_assoc,
        Token.lexFrom_of_scan (Mark.scan_bytes hplain _), hlex, hts]
      simp
    · have hmark : mark.token.Readable := by cases mark <;> trivial
      simpa [or_imp, forall_and] using ⟨hmark, hus.readable, hread⟩
    · have hinner (names : List Bytes) :
          openAfter names (us ++ ts) = openAfter names (ps.map (·.mark.token)) := by
        rw [Token.openAfter_append, hus.openAfter, Option.bind_some, hopen]
      simp only [List.cons_append, List.map_cons, Token.openAfter_cons, hinner]
    · have hinner (b : Builder) :
          b.applyAll ((us ++ ts).flatMap Token.calls) =
            b.applyAll (.text text :: ps.flatMap Piece.calls) := by
        rw [List.flatMap_append, Builder.applyAll_append, hus.applyAll]
        exact hcalls (b.text text)
      simp only [List.cons_append, List.nil_append, List.append_assoc, List.flatMap_cons,
        Builder.applyAll_append, hinner, Piece.calls]

/-- A document is accepted if its tags are balanced and the builder takes its pieces. -/
theorem parse_pieces {ps : List Piece} {b : Builder} {p : Protocol}
    (hps : ∀ piece ∈ ps, piece.Plain) (hbalanced : Token.Balanced (ps.map (·.mark.token)))
    (hb : Builder.applyAll {} (ps.flatMap Piece.calls) = .ok b) (hp : b.protocol = some p) :
    (parse (ps.flatMap Piece.bytes)).result = .ok p := by
  obtain ⟨ts, hts, hread, hopen, hcalls⟩ := exists_lex hps []
  have hmark : dropMark (ps.flatMap Piece.bytes) = ps.flatMap Piece.bytes := by
    cases ps with
    | nil => rfl
    | cons piece ps =>
      obtain ⟨mark, text⟩ := piece
      cases mark <;> rfl
  refine parse_eq_ok_iff.2 ⟨ts, ?_, ?_, hread, b, ?_, hp⟩
  · rw [hmark]
    exact hts
  · exact (hopen []).trans hbalanced
  · rw [hcalls, hb]

end WaylandDoc
