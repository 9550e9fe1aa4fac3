import WaylandDoc.Proofs.Notices
import WaylandDoc.Proofs.Validity

/-!
# What is told of a document

The notices of an accepted document are read off its start tags alone (`notices_of_parse`). What is
told of a tag depends on the tags before it only for a request or an event: the last interface is
its own, and its version is compared with that of the last request or event among the tags since
then (`Tag.since`, `History.previousSince`). A builder compares with the `since` of the interface
under its cursor, which is that version whatever came in between (`Tracks.exists_lastInterface`).
-/

namespace WaylandDoc

namespace Logged

variable {ν ε α : Type} {ns : List ν}

theorem monadLift_eq_ok_iff {r : Except ε α} {a : α} :
    (monadLift r : Logged ν ε α) = ⟨ns, .ok a⟩ ↔ ns = [] ∧ r = .ok a := by
  rw [eq_mk_iff]
  exact and_congr_left' eq_comm

theorem note_eq_ok_iff {ms : List ν} {u : Unit} :
    (note ms : Logged ν ε Unit) = ⟨ns, .ok u⟩ ↔ ns = ms := by
  simp [note, eq_comm]

theorem pure_eq_ok_iff {a b : α} :
    (pure a : Logged ν ε α) = ⟨ns, .ok b⟩ ↔ ns = [] ∧ a = b := by
  simp [pure, eq_comm]

end Logged

/-! ## Start tags -/

namespace Tag

/-- The name that the tag declares. -/
def declaredName (tag : Bytes) : String := (value? tag "name").getD ""

/-- The version that the tag gives under the name. -/
def version? (tag : Bytes) (name : String) : Option UInt32 :=
  (value? tag name).bind fun text => (Numeral.read .decimal text).toOption

/-- The version of a request or an event; the first one unless the tag gives another. -/
def since (tag : Bytes) : UInt32 := (version? tag "since").getD 1

theorem version?_of_isVersion {tag : Bytes} {name : String} {v : Option UInt32}
    (h : IsVersion (value? tag name) v) : version? tag name = v := by
  unfold version?
  cases ht : value? tag name with
  | none =>
    rw [ht] at h
    exact h.symm
  | some text =>
    rw [ht] at h
    obtain ⟨w, hw, rfl⟩ := h
    simp [hw, Except.toOption]

end Tag

theorem Message.DeclaredBy.since_eq {m : Message} {tag : Bytes} (h : m.DeclaredBy tag) :
    m.since = Tag.since tag := by
  obtain ⟨v, hv, hm⟩ := h.since
  rw [hm, Tag.since, Tag.version?_of_isVersion hv]

theorem Message.DeclaredBy.name_eq {m : Message} {tag : Bytes} (h : m.DeclaredBy tag) :
    m.name = Tag.declaredName tag := by
  rw [Tag.declaredName, h.name, Option.getD_some]

theorem Interface.DeclaredBy.name_eq {x : Interface} {tag : Bytes} (h : x.DeclaredBy tag) :
    x.name = Tag.declaredName tag := by
  rw [Tag.declaredName, h.name, Option.getD_some]

theorem Interface.DeclaredBy.version_eq {x : Interface} {tag : Bytes} (h : x.DeclaredBy tag) :
    Tag.version? tag "version" = some x.version := by
  obtain ⟨text, htext, hread⟩ := h.version
  simp [Tag.version?, htext, hread, Except.toOption]

theorem Protocol.DeclaredBy.name_eq {p : Protocol} {tag : Bytes} (h : p.DeclaredBy tag) :
    p.name = Tag.declaredName tag := by
  rw [Tag.declaredName, h.name, Option.getD_some]

/-! ## The account of the start tags -/

namespace History

/-- The start tag of the latest interface. -/
def interfaceTag? (past : History) : Option Opening :=
  (past.tags.filter Opening.isInterface).getLast?

/-- The name of the latest interface. -/
def interfaceName (past : History) : String :=
  (past.interfaceTag?.map fun o => Tag.declaredName o.tag).getD ""

/-- The version of the latest request or event in the latest interface, and the first one if there
is none. -/
def previousSince (past : History) : UInt32 :=
  ((Opening.lastMessage? past.interfaceTags).map fun o => Tag.since o.tag).getD 1

/-- What is told of a request or an event. -/
def messageTold (past : History) (kind : MessageKind) (tag : Bytes) : List (Level × Notice) :=
  let name := Tag.declaredName tag
  let interface := past.interfaceName
  let since := Tag.since tag
  let previous := past.previousSince
  ((Tag.value? tag "type").toList.filter (· ≠ "destructor")).map
    (fun type => (.warn, .unknownType type kind name)) ++
  (if since < previous then [(.warn, .sinceDecreased kind interface name since previous)]
    else []) ++
  [(.trace, .message kind interface name)]

/-- What is told of a call after the others; of all calls but start tags nothing. -/
def told (past : History) : Call → List (Level × Notice)
  | .start tag =>
    let name := localName (Tag.name tag)
    match Element.ofName? name with
    | none => [(.info, .unknownElement (Utf8.decodeLossy name))]
    | some .protocol => [(.trace, .protocol (Tag.declaredName tag))]
    | some .interface =>
      [(.trace, .interface (Tag.declaredName tag) ((Tag.version? tag "version").getD 0))]
    | some .request => past.messageTold .request tag
    | some .event => past.messageTold .event tag
    | some .copyright | some .description | some .arg | some .enum | some .entry => []
  | .close _ | .text _ => []

/-- What is told of the calls one after another. -/
def account (past : History) : List Call → List (Level × Notice)
  | [] => []
  | c :: cs => past.told c ++ account (c :: past) cs

end History

/-- A notice with its level. -/
def Notice.leveled (n : Notice) : Level × Notice := (n.level, n)

/-! ## The last interface -/

namespace Opening

/-- Segments are headed by the heads, in their order. -/
theorem map_fst_segments (heads : Opening → Bool) (os : List Opening) :
    (Opening.segments heads os).map Prod.fst = os.filter heads := by
  induction os with
  | nil => rfl
  | cons o os ih =>
    rw [segments, List.filter_cons]
    split
    · rw [List.map_cons, ih]
    · exact ih

end Opening

namespace Builder

variable {b b' : Builder} {past : History}

/-- The interface under the cursor is that of the last interface tag. Its `since` is the version of
the last request or event after that tag. -/
theorem Tracks.exists_lastInterface (ht : b.Tracks past) (ho : b.Outlines past)
    (hs : b.SinceLast past) {p : Protocol} {i : Nat} {x : Interface} (hp : b.protocol = some p)
    (hi : b.interface = some i) (hx : p.interface? i = some x) :
    x.name = past.interfaceName ∧ x.since = past.previousSince := by
  obtain ⟨rfl, s, y, hsegments⟩ := ht.lastInterface hp hi
  have hy : y.element = .interface := by
    have hmem : (y, past.interfaceTags) ∈ Opening.segments Opening.isInterface past.tags := by
      simp [hsegments]
    exact beq_iff_eq.1 (Opening.head_of_mem_segments hmem)
  have hnodes := Opening.nodes_of_concat (e := .interface) hsegments
  rw [if_pos (beq_iff_eq.2 hy)] at hnodes
  -- Both lists of facts about the interfaces end with one about the last segment.
  have houtlines := (ho p hp).interfaces
  have hsince := hs p hp
  rw [hnodes] at houtlines
  rw [Protocol.SinceLast, hnodes] at hsince
  obtain ⟨xs, x₁, hxs, -, hx₁⟩ := Opening.exists_concat_of_forall₂ houtlines
  obtain ⟨ys, x₂, hys, -, hx₂⟩ := Opening.exists_concat_of_forall₂ hsince
  have hlast : p.interfaces.getLast? = some x := by
    rw [List.getLast?_eq_getElem?]
    exact hx
  obtain rfl : x₁ = x := by simpa [hxs] using hlast
  obtain rfl : x₂ = x₁ := by simpa [hys] using hlast
  have htag : past.interfaceTag? = some y := by
    rw [History.interfaceTag?, ← Opening.map_fst_segments, hsegments]
    simp
  refine ⟨?_, ?_⟩
  · rw [History.interfaceName, htag, Option.map_some, Option.getD_some]
    exact hx₁.declared.name_eq
  · rw [Interface.SinceLast] at hx₂
    rw [History.previousSince]
    cases hmessage : Opening.lastMessage? past.interfaceTags with
    | none =>
      rw [hmessage] at hx₂
      exact hx₂
    | some o =>
      rw [hmessage] at hx₂
      obtain ⟨kind, m, -, -, hm, h⟩ := hx₂
      exact h.trans hm.since_eq

/-! ## Start tags tell -/

variable {tag : Bytes} {ns : List Notice}

theorem map_typeNotices {kind : MessageKind} {as : List Attribute} {name : String}
    (has : Attribute.ofTag tag = .ok as) (hname : Attribute.find? as "name" = some name) :
    (Message.typeNotices kind as).map Notice.leveled =
      ((Tag.value? tag "type").toList.filter (· ≠ "destructor")).map
        fun type => (.warn, .unknownType type kind name) := by
  rw [Tag.value?_eq has]
  cases htype : Attribute.find? as "type" with
  | none => simp [Message.typeNotices, hname, htype]
  | some type =>
    by_cases hd : type = "destructor" <;>
      simp [Message.typeNotices, isDestructor, Notice.leveled, Notice.level, *]

theorem told_of_startProtocol (h : b.startProtocol tag = ⟨ns, .ok b'⟩) :
    ns.map Notice.leveled = [(.trace, .protocol (Tag.declaredName tag))] := by
  cases hp : b.protocol with
  | some p =>
    simp only [startProtocol, hp] at h
    cases h
  | none =>
    simp only [startProtocol, hp, Logged.bind_eq_ok_iff, Logged.monadLift_eq_ok_iff,
      Logged.note_eq_ok_iff, Logged.pure_eq_ok_iff, attributes_eq_ok] at h
    obtain ⟨_, as, _, ⟨rfl, has⟩, ⟨_, p, _, ⟨rfl, hd⟩, ⟨_, _, _, rfl, ⟨rfl, -⟩, rfl⟩, rfl⟩, rfl⟩ :=
      h
    simp [Notice.leveled, Notice.level, (Protocol.declaredBy ⟨as, has, hd⟩).name_eq]

theorem told_of_startInterface (h : b.startInterface tag = ⟨ns, .ok b'⟩) :
    ns.map Notice.leveled =
      [(.trace, .interface (Tag.declaredName tag) ((Tag.version? tag "version").getD 0))] := by
  simp only [startInterface, Logged.bind_eq_ok_iff, Logged.monadLift_eq_ok_iff,
    Logged.note_eq_ok_iff, Logged.pure_eq_ok_iff, attributes_eq_ok] at h
  obtain ⟨_, as, _, ⟨rfl, has⟩, ⟨_, x, _, ⟨rfl, hd⟩, ⟨_, _, _, rfl, ⟨_, p, _, ⟨rfl, -⟩, ⟨rfl, -⟩,
    rfl⟩, rfl⟩, rfl⟩, rfl⟩ := h
  have hx := (Interface.declaredBy ⟨as, has, hd⟩).1
  simp [Notice.leveled, Notice.level, hx.name_eq, hx.version_eq]

theorem told_of_startMessage (ht : b.Tracks past) (ho : b.Outlines past) (hs : b.SinceLast past)
    {kind : MessageKind} (h : b.startMessage kind tag = ⟨ns, .ok b'⟩) :
    ns.map Notice.leveled = past.messageTold kind tag := by
  simp only [startMessage, Logged.bind_eq_ok_iff, Logged.monadLift_eq_ok_iff,
    Logged.note_eq_ok_iff, Logged.pure_eq_ok_iff, attributes_eq_ok, Prod.exists,
    currentInterface_eq_ok] at h
  obtain ⟨_, as, _, ⟨rfl, has⟩, ⟨_, _, _, rfl, ⟨_, m, _, ⟨rfl, hd⟩, ⟨_, i, x, _, ⟨rfl, hi, p, hp,
    hx⟩, ⟨_, _, _, rfl, ⟨rfl, -⟩, rfl⟩, rfl⟩, rfl⟩, rfl⟩, rfl⟩ := h
  have hm := (Message.declaredBy ⟨as, has, hd⟩).1
  have hname := hm.name
  rw [Tag.value?_eq has] at hname
  obtain ⟨hinterface, hsince⟩ := ht.exists_lastInterface ho hs hp hi hx
  simp only [List.nil_append, List.append_nil, List.map_append, map_typeNotices has hname,
    Interface.messageNotices, History.messageTold, List.append_assoc, ← hm.name_eq, ← hm.since_eq,
    ← hinterface, ← hsince]
  split <;> rfl

/-- What is written on a call is told of it. -/
theorem told_of_perform (ht : b.Tracks past) (ho : b.Outlines past) (hs : b.SinceLast past)
    {c : Call} (h : b.perform c = ⟨ns, .ok b'⟩) : ns.map Notice.leveled = past.told c := by
  have silent {x : Except SchemaError Builder} (hx : Logged.ofExcept x = ⟨ns, .ok b'⟩) :
      ns.map Notice.leveled = [] := by
    rw [(Logged.monadLift_eq_ok_iff.1 hx).1, List.map_nil]
  cases c with
  | start tag =>
    simp only [perform, start] at h
    unfold History.told
    cases he : Element.ofName? (localName (Tag.name tag)) with
    | none =>
      simp only [he, Logged.bind_eq_ok_iff, Logged.note_eq_ok_iff, Logged.pure_eq_ok_iff] at h
      obtain ⟨_, _, _, rfl, ⟨rfl, -⟩, rfl⟩ := h
      simp [he, Notice.leveled, Notice.level]
    | some e =>
      rw [he] at h
      cases e with
      | protocol => simpa [he] using told_of_startProtocol h
      | interface => simpa [he] using told_of_startInterface h
      | request => simpa [he] using told_of_startMessage ht ho hs h
      | event => simpa [he] using told_of_startMessage ht ho hs h
      | copyright | description | arg | enum | entry => simpa [he] using silent h
  | close name => exact silent h
  | text s =>
    obtain ⟨rfl, -⟩ := Logged.pure_eq_ok_iff.1 h
    rfl

/-- A run writes the account of its calls. -/
theorem account_of_performAll {cs : List Call} (hb : b.Grounded) (ht : b.Tracks past)
    (hn : History.Nested (cs.reverse ++ past)) (ho : b.Outlines past) (hs : b.SinceLast past)
    (h : b.performAll cs = ⟨ns, .ok b'⟩) : ns.map Notice.leveled = past.account cs := by
  induction cs generalizing b past ns with
  | nil =>
    obtain ⟨rfl, -⟩ := Logged.pure_eq_ok_iff.1 h
    rfl
  | cons c cs ih =>
    rw [performAll_cons, Logged.bind_eq_ok_iff] at h
    obtain ⟨ns₁, b₁, ns₂, hc, hcs, rfl⟩ := h
    rw [List.reverse_cons, List.append_assoc] at hn
    have htakes : b.Takes c b₁ := by
      rw [← apply_eq_ok hb, ← result_perform, hc]
    rw [List.map_append, told_of_perform ht ho hs hc, History.account,
      ih (htakes.grounded hb) (htakes.tracks hb ht hn.of_append) hn (htakes.outlines ho hb ht)
        (htakes.sinceLast hs hb ht) hcs]

end Builder

/-! ## Accepted documents -/

/-- The notices of an accepted document, with their levels, are the account of its start tags: one
of each protocol, interface and unknown element, and of each request or event one, after a warning
of its type and a warning if it is older than the request or event before it. -/
theorem notices_of_parse {input : Bytes} {p : Protocol} (h : (parse input).result = .ok p) :
    (parse input).notices.map (fun n => (n.level, n)) = History.account [] (calls input) := by
  obtain ⟨ts, hts, hbalanced, -, b, hb, -⟩ := parse_eq_iff.1 (Logged.eq_mk_iff.2 ⟨rfl, h⟩)
  have hcalls : calls input = ts.flatMap Token.calls := by rw [calls, hts]
  obtain ⟨hn, -⟩ := History.nested_of_balanced hbalanced
  rw [← hcalls] at hb hn
  rw [← List.append_nil (calls input).reverse] at hn
  have houtlines : Builder.Outlines {} [] := fun p hp => by cases hp
  have hsince : Builder.SinceLast {} [] := fun p hp => by cases hp
  exact Builder.account_of_performAll Builder.grounded_empty Builder.tracks_empty hn houtlines
    hsince hb

/-- A type that is none, versions that fall below one that fell before, in a nested unknown element
and behind the end of the interface, and a second interface that begins anew. -/
theorem notices_of_falling_versions :
    let input := ascii ("<protocol name='p'><interface name='i' version='4'>" ++
      "<event name='a' since='3'/><x:y><request name='b' type='t' since='2'/></x:y></interface>" ++
      "<request name='c'/><interface name='k' version='1'><event name='d'/></interface></protocol>")
    let notices : List Notice := [
      .protocol "p",
      .interface "i" 4,
      .message .event "i" "a",
      .unknownElement "y",
      .unknownType "t" .request "b",
      .sinceDecreased .request "i" "b" 2 3,
      .message .request "i" "b",
      .sinceDecreased .request "i" "c" 1 2,
      .message .request "i" "c",
      .interface "k" 1,
      .message .event "k" "d"]
    ∃ p, (parse input).result = .ok p ∧ (parse input).notices = notices ∧
      (parse input).notices.map (fun n => (n.level, n)) = History.account [] (calls input) := by
  intro input notices
  have hfacts : (parse input).result.toOption.isSome ∧ (parse input).notices = notices := by
    decide +kernel
  obtain ⟨p, hp⟩ := Option.isSome_iff_exists.1 hfacts.1
  have hresult := toOption_eq_some.1 hp
  exact ⟨p, hresult, hfacts.2, notices_of_parse hresult⟩

end WaylandDoc
