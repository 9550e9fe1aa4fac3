import WaylandDoc.Proofs.Tracking

/-!
# Attachment

Where the texts of a document go. `collected` lists the copyrights and descriptions with their
texts: what each is for is decided at its start tag (`Call.purpose?`), and its text is what stands
before its own end tag, which is found by counting (`innerText`). A builder stores just these texts,
in this order, so every node ends up with the last description that is for it.
-/

namespace WaylandDoc

/-! ## Collected texts -/

/-- What character data is collected for from the call on, if it begins a text. -/
def Call.purpose? (past : History) : Call → Option Purpose
  | .start tag =>
    match Element.ofName? (localName (Tag.name tag)) with
    | some .copyright => some .copyright
    | some .description => some (.description past.target ((Tag.value? tag "summary").getD ""))
    | _ => none
  | _ => none

/-- The character data up to the end of the element that is open, with `depth` elements open in
it. -/
def innerText : (depth : Nat) → List Call → String
  | _, [] => ""
  | depth, .start _ :: cs => innerText (depth + 1) cs
  | 0, .close _ :: _ => ""
  | depth + 1, .close _ :: cs => innerText depth cs
  | depth, .text s :: cs => s ++ innerText depth cs

/-- The texts that begin in the calls, in order. -/
def collected (past : History) : List Call → List Pending
  | [] => []
  | c :: cs =>
    ((c.purpose? past).map fun purpose => ⟨purpose, innerText 0 cs⟩).toList ++
      collected (c :: past) cs

/-- The description and its place, if the text is for one. -/
def Pending.described? (c : Pending) : Option (Place × Description) :=
  match c.purpose with
  | .copyright => none
  | .description place summary => some (place, { summary, body := c.text })

/-- The descriptions of a document, each with the place of the node it is for. -/
def descriptions (cs : List Call) : List (Place × Description) :=
  (collected [] cs).filterMap Pending.described?

/-! ## The texts of a tree -/

/-- What a tree has for texts. -/
structure Texts where
  copyright : Option String := none
  description : Place → Option Description := fun _ => none

/-- A later text takes the place of an earlier one for the same. -/
def Texts.store (t : Texts) (c : Pending) : Texts :=
  match c.purpose with
  | .copyright => { t with copyright := some c.text }
  | .description place summary =>
    { t with
      description q := if q = place then some { summary, body := c.text } else t.description q }

namespace Protocol

/-- The description of the node at the place, if there is such a node and it has one. -/
def description? (p : Protocol) (q : Place) : Option Description := (p.slot? q).join

def texts (p : Protocol) : Texts := ⟨p.copyright, p.description?⟩

theorem Grows.texts {p p' : Protocol} (h : p.Grows p') : p'.texts = p.texts := by
  have hcopyright : p'.copyright = p.copyright := by cases h <;> rfl
  have hdescription : p'.description? = p.description? := by
    funext q
    rcases h.slot? q with hs | ⟨hs, hs'⟩
    · rw [description?, description?, hs]
    · rw [description?, description?, hs, hs']
      rfl
  rw [Protocol.texts, Protocol.texts, hcopyright, hdescription]

theorem texts_of_declares {tag : Bytes} {p : Protocol} (h : Declares Protocol.declare tag p) :
    p.texts = {} := by
  have hslot := slot?_of_declares h
  obtain ⟨as, has, h⟩ := h
  obtain ⟨name, hn, rfl⟩ := declare_eq_ok.1 h
  simp only [texts, Texts.mk.injEq, true_and]
  funext q
  rw [description?, hslot]
  split <;> rfl

theorem texts_store {p : Protocol} {c : Pending} (h : p.has c.purpose.place) :
    (Builder.store c p).texts = p.texts.store c := by
  obtain ⟨purpose, text⟩ := c
  cases purpose with
  | copyright =>
    simp only [Builder.store, texts, Texts.store, Texts.mk.injEq, true_and]
    funext q
    cases q <;> rfl
  | description place summary =>
    have hcopyright (d : Description) : (p.describe d place).copyright = p.copyright := by
      cases place <;> rfl
    simp only [Builder.store, texts, Texts.store, hcopyright, Texts.mk.injEq, true_and]
    funext q
    rw [description?, description?, slot?_describe]
    by_cases hq : q = place
    · subst hq
      obtain ⟨d, hd⟩ := Option.isSome_iff_exists.1 ((p.has_eq q).symm.trans h)
      simp [hd]
    · simp [hq]

end Protocol

namespace Builder

variable {b b' : Builder} {past : History}

def texts (b : Builder) : Texts := (b.protocol.map Protocol.texts).getD {}

theorem texts_of_protocol {p : Protocol} (h : b.protocol = some p) : b.texts = p.texts := by
  rw [texts, h]
  rfl

/-- A start tag stores no text. -/
theorem Starts.texts {tag : Bytes} {e : Element} (h : b.Starts tag e b') : b'.texts = b.texts := by
  cases h with
  | @protocol p hd hp =>
    rw [texts_of_protocol rfl, Protocol.texts_of_declares hd, Builder.texts, hp]
    rfl
  | copyright hp hc => rfl
  | interface hd hp =>
    rw [texts_of_protocol rfl, texts_of_protocol hp]
    exact (Protocol.Grows.interface (Interface.declaredBy hd).2).texts
  | message he hd hp hi hx =>
    rw [texts_of_protocol rfl, texts_of_protocol hp]
    exact (Protocol.Grows.message (Message.declaredBy hd).2 _ _).texts
  | arg hd hp hi hm hx =>
    rw [texts_of_protocol rfl, texts_of_protocol hp]
    exact (Protocol.Grows.arg (Arg.declaredBy hd).2 _ _ _).texts
  | enum hd hp hi hx =>
    rw [texts_of_protocol rfl, texts_of_protocol hp]
    exact (Protocol.Grows.enum (Enum.declaredBy hd).2 _).texts
  | entry hd hp hi hk hx =>
    rw [texts_of_protocol rfl, texts_of_protocol hp]
    exact (Protocol.Grows.entry (Entry.declaredBy hd).2 _ _).texts
  | description hd hc hp => rfl

theorem texts_stored (hb : b.Grounded) :
    b.stored.texts = b.pending.toList.foldl Texts.store b.texts := by
  cases hc : b.pending with
  | none => simp [Builder.stored, hc]
  | some c =>
    obtain ⟨p, hp, hhas⟩ := hb.pending hc
    rw [texts_of_protocol hp]
    simp only [Builder.stored, hc, modify, hp, Option.map_some, Option.toList_some,
      List.foldl_cons, List.foldl_nil]
    exact Protocol.texts_store hhas

/-! ## What a builder has ahead

The texts that the calls to come will store: that which is collected, completed, and those that
begin in the calls. -/

/-- The elements that are open inside of the one whose text is collected. -/
def innerDepth (past : History) : Nat := (past.openNames.takeWhile (!isCollected ·)).length

def ahead (b : Builder) (past : History) (cs : List Call) : List Pending :=
  b.pending.toList.map (fun c => { c with text := c.text ++ innerText (innerDepth past) cs }) ++
    collected past cs

/-- The start tag of an element that has no text of its own. -/
theorem ahead_start {tag : Bytes} {cs : List Call} (hpending : b'.pending = b.pending)
    (hc : isCollected (localName (Tag.name tag)) = false) :
    b'.ahead (.start tag :: past) cs = b.ahead past (.start tag :: cs) := by
  have hpurpose : Call.purpose? past (.start tag) = none := by
    simp only [isCollected, Bool.or_eq_false_iff, beq_eq_false_iff_ne, ne_eq] at hc
    unfold Call.purpose?
    split <;> simp_all
  have hdepth : innerDepth (.start tag :: past) = innerDepth past + 1 := by
    simp [innerDepth, History.openNames, hc]
  simp [ahead, hpending, collected, hpurpose, hdepth, innerText]

/-- The start tag of an element with a text. -/
theorem ahead_collected {tag : Bytes} {cs : List Call} {purpose : Purpose}
    (hpending : b.pending = none) (hpending' : b'.pending = some { purpose })
    (hc : isCollected (localName (Tag.name tag)))
    (hpurpose : Call.purpose? past (.start tag) = some purpose) :
    b'.ahead (.start tag :: past) cs = b.ahead past (.start tag :: cs) := by
  have hdepth : innerDepth (.start tag :: past) = 0 := by
    simp [innerDepth, History.openNames, hc]
  simp [ahead, hpending, hpending', collected, hpurpose, hdepth]

/-- A start tag begins a text if its element has one, and then there is no other that is collected.
It fixes what the text is for. -/
theorem Starts.collects {tag : Bytes} {e : Element} (h : b.Starts tag e b')
    (he : Element.ofName? (localName (Tag.name tag)) = some e) (hb : b.Grounded)
    (ht : b.Tracks past) :
    isCollected (localName (Tag.name tag)) = false ∧ b'.pending = b.pending ∨
      ∃ purpose, isCollected (localName (Tag.name tag)) ∧
        Call.purpose? past (.start tag) = some purpose ∧
        b.pending = none ∧ b'.pending = some { purpose } := by
  cases h with
  | copyright hp hc =>
    exact .inr ⟨.copyright, by simp [isCollected, he], by simp [Call.purpose?, he], hc, rfl⟩
  | @description s place hd hc hplace =>
    refine .inr ⟨.description place s, by simp [isCollected, he], ?_, hc, rfl⟩
    have hprotocol : past.hasProtocol = true := by
      obtain ⟨p, hp, -⟩ := hb.has_descriptionPlace hplace
      rw [← ht.protocol, hp]
      rfl
    have htarget := ht.descriptionPlace hb hprotocol
    rw [hplace, Except.ok.injEq] at htarget
    obtain ⟨as, has, hs⟩ := hd
    rw [Description.declareSummary, required_eq_ok, ← Tag.value?_eq has] at hs
    simp [Call.purpose?, he, htarget, hs]
  | @message e kind m p i x hel =>
    refine .inl ⟨?_, rfl⟩
    cases kind <;> simp [isCollected, he, hel, MessageKind.element]
  | protocol | interface | arg | enum | entry => exact .inl ⟨by simp [isCollected, he], rfl⟩

theorem ahead_starts {tag : Bytes} {e : Element} {cs : List Call} (hb : b.Grounded)
    (ht : b.Tracks past) (he : Element.ofName? (localName (Tag.name tag)) = some e)
    (h : b.Starts tag e b') :
    b'.ahead (.start tag :: past) cs = b.ahead past (.start tag :: cs) := by
  rcases h.collects he hb ht with ⟨hc, hpending⟩ | ⟨purpose, hc, hpurpose, hpending, hpending'⟩
  · exact ahead_start hpending hc
  · exact ahead_collected hpending hpending' hc hpurpose

/-- The end tag of an element ends the text that is collected if it is the one for it. -/
theorem ahead_closed {name : Bytes} {cs : List Call} (hb : b.Grounded)
    (hopen : past.openNames.head? = some name) :
    ((b.closed (Element.ofName? name)).ahead (.close name :: past) cs).foldl Texts.store
        (b.closed (Element.ofName? name)).texts =
      (b.ahead past (.close name :: cs)).foldl Texts.store b.texts := by
  obtain ⟨names, hnames⟩ := List.head?_eq_some_iff.1 hopen
  have hpurpose : Call.purpose? past (.close name) = none := rfl
  by_cases hc : isCollected name
  · have hdepth : innerDepth past = 0 := by simp [innerDepth, hnames, hc]
    have hpending : b.stored.pending = none := by rw [stored_eq]
    rw [b.closed_of_isCollected hc, texts_stored hb]
    cases hp : b.pending <;> simp [ahead, hp, hpending, hdepth, innerText, collected, hpurpose]
  · have hclosed : (b.closed (Element.ofName? name)).pending = b.pending ∧
        (b.closed (Element.ofName? name)).texts = b.texts := by
      simp only [isCollected, Bool.or_eq_true, beq_iff_eq, not_or] at hc
      unfold Builder.closed
      split <;> simp_all [texts]
    have hdepth : innerDepth past = innerDepth (.close name :: past) + 1 := by
      simp [innerDepth, History.openNames, hnames, hc]
    rw [hclosed.2]
    simp [ahead, hclosed.1, hdepth, innerText, collected, hpurpose]

/-- What a builder has stored and has ahead stays the same from call to call. -/
theorem Takes.ahead {c : Call} {cs : List Call} (h : b.Takes c b') (hb : b.Grounded)
    (ht : b.Tracks past) (hn : History.Nested (c :: past)) :
    (b'.ahead (c :: past) cs).foldl Texts.store b'.texts =
      (b.ahead past (c :: cs)).foldl Texts.store b.texts := by
  cases h with
  | start he hs => rw [ahead_starts hb ht he hs, hs.texts]
  | ignore he => rw [ahead_start rfl (by simp [isCollected, he])]
  | close name => exact ahead_closed hb hn.1
  | text s =>
    have hpurpose : Call.purpose? past (.text s) = none := rfl
    have hdepth : innerDepth (.text s :: past) = innerDepth past := rfl
    have htexts : (b.text s).texts = b.texts := rfl
    rw [htexts]
    cases hp : b.pending <;>
      simp [Builder.ahead, Builder.text, hp, collected, hpurpose, hdepth, innerText,
        String.append_assoc]

/-- When all elements are closed, exactly the texts that were ahead are stored. -/
theorem texts_applyAll {cs : List Call} (hb : b.Grounded) (ht : b.Tracks past)
    (hn : History.Nested (cs.reverse ++ past))
    (hclosed : History.openNames (cs.reverse ++ past) = []) (h : b.applyAll cs = .ok b') :
    b'.texts = (b.ahead past cs).foldl Texts.store b.texts := by
  induction cs generalizing b past with
  | nil =>
    cases h
    have hpending := ht.pending
    have hnames : past.openNames = [] := hclosed
    rw [hnames, List.countP_nil] at hpending
    cases hc : b'.pending with
    | none => simp [Builder.ahead, hc, collected]
    | some c => simp [hc] at hpending
  | cons c cs ih =>
    obtain ⟨b₁, hc, hcs⟩ := applyAll_cons_eq_ok.1 h
    rw [List.reverse_cons, List.append_assoc] at hn hclosed
    have hstep := (apply_eq_ok hb).1 hc
    have hn₁ := hn.of_append
    rw [ih (hstep.grounded hb) (hstep.tracks hb ht hn₁) hn hclosed hcs]
    exact hstep.ahead hb ht hn₁

end Builder

/-! ## Descriptions of an accepted document -/

/-- The texts of an accepted document are those that its calls collect. -/
theorem texts_of_parse {input : Bytes} {p : Protocol} (h : (parse input).result = .ok p) :
    p.texts = (collected [] (calls input)).foldl Texts.store {} := by
  obtain ⟨ts, hts, hbalanced, -, b, hb, hp⟩ := parse_eq_ok_iff.1 h
  have hcalls : calls input = ts.flatMap Token.calls := by rw [calls, hts]
  obtain ⟨hn, hclosed⟩ := History.nested_of_balanced hbalanced
  rw [← hcalls] at hb hn hclosed
  rw [← List.append_nil (calls input).reverse] at hn hclosed
  have htexts := Builder.texts_applyAll Builder.grounded_empty Builder.tracks_empty hn hclosed hb
  rw [Builder.texts_of_protocol hp] at htexts
  exact htexts

theorem description_foldl_store (cs : List Pending) (t : Texts) (q : Place) :
    (cs.foldl Texts.store t).description q =
      ((((cs.filterMap Pending.described?).filter (·.1 = q)).getLast?.map Prod.snd).or
        (t.description q)) := by
  induction cs generalizing t with
  | nil => simp
  | cons c cs ih =>
    obtain ⟨purpose, text⟩ := c
    rw [List.foldl_cons, ih]
    cases purpose with
    | copyright =>
      rw [List.filterMap_cons_none rfl]
      rfl
    | description place summary =>
      have hd : Pending.described? ⟨.description place summary, text⟩ =
          some (place, ⟨summary, text⟩) := rfl
      rw [List.filterMap_cons_some hd, List.filter_cons]
      by_cases hq : q = place
      · subst hq
        rw [if_pos (by simp), List.getLast?_cons]
        cases ((cs.filterMap Pending.described?).filter (·.1 = q)).getLast? <;> simp [Texts.store]
      · rw [if_neg (by simpa using Ne.symm hq)]
        simp [Texts.store, hq]

/-- Every description of an accepted document is for a node of its tree, and a node has the last
description that is for it, or none if there is none. -/
theorem description?_of_parse {input : Bytes} {p : Protocol} (h : (parse input).result = .ok p) :
    (∀ d ∈ descriptions (calls input), p.has d.1) ∧
      ∀ q, p.description? q =
        ((descriptions (calls input)).filter (·.1 = q)).getLast?.map Prod.snd := by
  have hlast (q : Place) : p.description? q =
      ((descriptions (calls input)).filter (·.1 = q)).getLast?.map Prod.snd := by
    have hq := congrArg (Texts.description · q) (texts_of_parse h)
    rw [description_foldl_store, Option.or_none] at hq
    exact hq
  refine ⟨fun d hd => ?_, hlast⟩
  have hmem : d ∈ (descriptions (calls input)).filter (·.1 = d.1) := by simpa using hd
  obtain ⟨l, hl⟩ := List.getLast?_isSome.2 (List.ne_nil_of_mem hmem) |> Option.isSome_iff_exists.1
  have hslot := hlast d.1
  rw [hl, Option.map_some, Protocol.description?, Option.join_eq_some_iff] at hslot
  rw [p.has_eq, hslot]
  rfl

/-- The description of an argument does not go to the request around it. -/
theorem description?_of_nested :
    let input := ascii ("<protocol name='p'><interface name='i' version='1'><request name='r'>" ++
      "<arg name='x' type='fd'><description summary='s'>b</description></arg>" ++
      "</request></interface></protocol>")
    ∃ p, (parse input).result = .ok p ∧
      p.description? (.arg 0 .request 0 0) = some ⟨"s", "b"⟩ ∧
      p.description? (.message 0 .request 0) = none := by
  intro input
  have hresult : (parse input).result.toOption = some {
      name := "p", uppercaseName := "P"
      interfaces := [{
        name := "i", uppercaseName := "I", version := 1
        requests := [{
          name := "r", uppercaseName := "R"
          args := [{ name := "x", type := .fd, description := some ⟨"s", "b"⟩ }] }] }] } := by
    decide +kernel
  have hdescriptions : descriptions (calls input) = [(.arg 0 .request 0 0, ⟨"s", "b"⟩)] := by
    decide +kernel
  have hresult := toOption_eq_some.1 hresult
  have hlast := (description?_of_parse hresult).2
  rw [hdescriptions] at hlast
  exact ⟨_, hresult, hlast _, hlast _⟩

end WaylandDoc
