import Mathlib.Data.List.Forall2
import WaylandDoc.Proofs.Tracking

/-!
# Outlines

Which start tag every node of a tree comes from. The start tags of a document are cut into
segments: an interface has the tags up to the next interface, a message those up to the next
message, an enum those up to the next enum. A tree outlines the tags if its lists match the
segments one by one. A builder keeps it so by its cursors, which always lead to the last segment.
-/

namespace WaylandDoc

/-- A start tag of an element of the schema. -/
structure Opening where
  element : Element
  tag : Bytes

def Call.opening? : Call → Option Opening
  | .start tag => (Element.ofName? (localName (Tag.name tag))).map (⟨·, tag⟩)
  | _ => none

/-- The start tags of elements of the schema, in document order. -/
def openings (cs : List Call) : List Opening := cs.filterMap Call.opening?

namespace Opening

def isInterface (o : Opening) : Bool := o.element == .interface

def isMessage (o : Opening) : Bool := o.element.messageKind?.isSome

def isEnum (o : Opening) : Bool := o.element == .enum

/-- Each of the `heads` with what comes after it and before the next. -/
def segments (heads : Opening → Bool) : List Opening → List (Opening × List Opening)
  | [] => []
  | o :: os =>
    if heads o then (o, os.takeWhile (!heads ·)) :: segments heads os else segments heads os

/-- The tags of the element. -/
def tags (e : Element) (os : List Opening) : List Bytes :=
  (os.filter (·.element == e)).map Opening.tag

/-- The heads that are tags of the element, each with what comes before the next head. -/
def nodes (heads : Opening → Bool) (e : Element) (os : List Opening) :
    List (Opening × List Opening) :=
  (segments heads os).filter (·.1.element == e)

end Opening

open Opening (segments nodes tags)

/-! ## Trees that match start tags -/

structure Message.Outlines (m : Message) (s : Opening × List Opening) : Prop where
  declared : m.DeclaredBy s.1.tag
  args : List.Forall₂ Arg.DeclaredBy m.args (tags .arg s.2)

structure Enum.Outlines (e : Enum) (s : Opening × List Opening) : Prop where
  declared : e.DeclaredBy s.1.tag
  entries : List.Forall₂ Entry.DeclaredBy e.entries (tags .entry s.2)

structure Interface.Outlines (x : Interface) (s : Opening × List Opening) : Prop where
  declared : x.DeclaredBy s.1.tag
  messages (kind : MessageKind) :
    List.Forall₂ Message.Outlines (x.messages kind) (nodes Opening.isMessage kind.element s.2)
  enums : List.Forall₂ Enum.Outlines x.enums (nodes Opening.isEnum .enum s.2)

/-- The tree has the nodes that the start tags declare, all of them and no others, in their order
and below the node they belong to. -/
structure Protocol.Outlines (p : Protocol) (os : List Opening) : Prop where
  declared : ∃ tag, tags .protocol os = [tag] ∧ p.DeclaredBy tag
  interfaces :
    List.Forall₂ Interface.Outlines p.interfaces (nodes Opening.isInterface .interface os)

/-! ## One more start tag -/

namespace Opening

variable {heads : Opening → Bool} {os : List Opening} {o : Opening}

theorem segments_eq_nil : segments heads os = [] ↔ ∀ o ∈ os, heads o = false := by
  induction os with
  | nil => simp [segments]
  | cons o os ih => cases ho : heads o <;> simp [segments, ho, ih]

theorem takeWhile_concat_head (h : heads o) :
    (os ++ [o]).takeWhile (!heads ·) = os.takeWhile (!heads ·) := by
  rw [List.takeWhile_append]
  split
  · rename_i hlength
    simpa [h] using ((List.takeWhile_prefix _).eq_of_length hlength).symm
  · rfl

/-- What follows a head goes on to the end if there is no other head. -/
theorem takeWhile_concat (h : heads o = false) : (os ++ [o]).takeWhile (!heads ·) =
    if segments heads os = [] then os.takeWhile (!heads ·) ++ [o]
    else os.takeWhile (!heads ·) := by
  induction os with
  | nil => simp [segments, h]
  | cons o' os ih =>
    cases ho : heads o' with
    | true => simp [segments, ho]
    | false =>
      simp only [List.cons_append, segments, List.takeWhile_cons, ho, Bool.not_false, ite_true, ih]
      split <;> simp_all

theorem segments_concat_head (h : heads o) :
    segments heads (os ++ [o]) = segments heads os ++ [(o, [])] := by
  induction os with
  | nil => simp [segments, h]
  | cons o' os ih =>
    simp only [List.cons_append, segments, takeWhile_concat_head h, ih]
    split <;> rfl

theorem segments_concat_nil (h : heads o = false) (hs : segments heads os = []) :
    segments heads (os ++ [o]) = [] := by
  rw [segments_eq_nil] at hs ⊢
  simpa [or_imp, forall_and] using ⟨hs, h⟩

theorem segments_concat (h : heads o = false) {s : List (Opening × List Opening)} {y : Opening}
    {body : List Opening} (hs : segments heads os = s ++ [(y, body)]) :
    segments heads (os ++ [o]) = s ++ [(y, body ++ [o])] := by
  induction os generalizing s with
  | nil => simp [segments] at hs
  | cons o' os ih =>
    simp only [List.cons_append, segments] at hs ⊢
    cases ho : heads o' with
    | false =>
      simp only [ho] at hs ⊢
      exact ih hs
    | true =>
      simp only [ho, if_true] at hs ⊢
      rw [takeWhile_concat h]
      cases hnil : segments heads os with
      | nil =>
        rw [segments_concat_nil h hnil, if_pos rfl]
        rw [hnil] at hs
        cases s <;> simp_all
      | cons z zs =>
        rw [hnil] at hs
        cases s with
        | nil => simp at hs
        | cons w s =>
          obtain ⟨rfl, htail⟩ := List.cons.inj hs
          rw [ih (hnil.trans htail)]
          simp

theorem head_of_mem_segments {y : Opening} {body : List Opening}
    (h : (y, body) ∈ segments heads os) : heads y := by
  induction os with
  | nil => simp [segments] at h
  | cons o os ih =>
    rw [segments] at h
    split at h
    · rcases List.mem_cons.1 h with h | h
      · cases h
        assumption
      · exact ih h
    · exact ih h

theorem tags_concat (e : Element) :
    tags e (os ++ [o]) = tags e os ++ if o.element == e then [o.tag] else [] := by
  simp only [tags, List.filter_append, List.map_append]
  cases h : o.element == e <;> simp [h]

section Nodes

variable {e : Element} {s : List (Opening × List Opening)} {y : Opening} {body : List Opening}

/-- The element of the last head decides whether the last segment is one of the nodes. -/
theorem nodes_of_concat (hs : segments heads os = s ++ [(y, body)]) :
    nodes heads e os =
      s.filter (·.1.element == e) ++ if y.element == e then [(y, body)] else [] := by
  rw [nodes, hs, List.filter_append]
  cases h : y.element == e <;> simp [h]

theorem nodes_concat_head (ho : heads o) :
    nodes heads e (os ++ [o]) = nodes heads e os ++ if o.element == e then [(o, [])] else [] :=
  nodes_of_concat (segments_concat_head ho)

/-- A tag that belongs to the last segment, which is none of the nodes. -/
theorem nodes_concat_of_ne (ho : heads o = false) (hs : segments heads os = s ++ [(y, body)])
    (hy : y.element ≠ e) : nodes heads e (os ++ [o]) = nodes heads e os := by
  rw [nodes_of_concat (segments_concat ho hs), nodes_of_concat hs]
  simp [hy]

variable {α β γ : Type}

theorem forall₂_concat {R : α → γ → Prop} {l : List α} {l' : List γ} {a : α} {c : γ}
    (h : List.Forall₂ R l l') (ha : R a c) : List.Forall₂ R (l ++ [a]) (l' ++ [c]) :=
  List.rel_append h (.cons ha .nil)

theorem exists_concat_of_forall₂ {R : α → γ → Prop} {l : List α} {l' : List γ} {c : γ}
    (h : List.Forall₂ R l (l' ++ [c])) :
    ∃ l₁ a, l = l₁ ++ [a] ∧ List.Forall₂ R l₁ l' ∧ R a c := by
  have hreverse := List.forall₂_reverse_iff.2 h
  rw [List.reverse_append, List.reverse_singleton, List.singleton_append,
    List.forall₂_cons_right_iff] at hreverse
  obtain ⟨a, l₁, ha, hl, heq⟩ := hreverse
  refine ⟨l₁.reverse, a, ?_, ?_, ha⟩
  · rw [← List.reverse_reverse l, heq, List.reverse_cons]
  · rw [← List.forall₂_reverse_iff, List.reverse_reverse]
    exact hl

variable {R : α → Opening × List Opening → Prop} {l : List α}

/-- A tag that no node cares for. -/
theorem forall₂_nodes_concat (ho : heads o = false)
    (hR : ∀ a y body, R a (y, body) → R a (y, body ++ [o]))
    (h : List.Forall₂ R l (nodes heads e os)) : List.Forall₂ R l (nodes heads e (os ++ [o])) := by
  rcases List.eq_nil_or_concat' (segments heads os) with hs | ⟨s, ⟨y, body⟩, hs⟩
  · rwa [nodes, segments_concat_nil ho hs, ← hs]
  · by_cases hy : y.element = e
    · rw [nodes_of_concat (segments_concat ho hs), if_pos (beq_iff_eq.2 hy)]
      rw [nodes_of_concat hs, if_pos (beq_iff_eq.2 hy)] at h
      obtain ⟨l', a, rfl, hl, ha⟩ := exists_concat_of_forall₂ h
      exact forall₂_concat hl (hR a y body ha)
    · rwa [nodes_concat_of_ne ho hs hy]

/-- A tag that changes the last node. -/
theorem forall₂_modify_last {f : α → α} (ho : heads o = false)
    (hs : segments heads os = s ++ [(y, body)]) (hy : y.element = e)
    (hR : ∀ a, l[l.length - 1]? = some a → R a (y, body) → R (f a) (y, body ++ [o]))
    (h : List.Forall₂ R l (nodes heads e os)) :
    List.Forall₂ R (l.modify (l.length - 1) f) (nodes heads e (os ++ [o])) := by
  rw [nodes_of_concat (segments_concat ho hs), if_pos (beq_iff_eq.2 hy)]
  rw [nodes_of_concat hs, if_pos (beq_iff_eq.2 hy)] at h
  obtain ⟨l', a, rfl, hl, ha⟩ := exists_concat_of_forall₂ h
  have hmodify : (l' ++ [a]).modify ((l' ++ [a]).length - 1) f = l' ++ [f a] := by
    simp [List.modify_eq_take_drop]
  rw [hmodify]
  exact forall₂_concat hl (hR a (by simp) ha)

end Nodes

end Opening

open Opening (segments_concat segments_concat_head nodes_concat_head nodes_concat_of_ne tags_concat
  forall₂_concat forall₂_nodes_concat forall₂_modify_last)

/-! ## One more node -/

section Grow

variable {y : Opening} {body : List Opening} {tag : Bytes} {o : Opening}

theorem Message.Outlines.concat {m : Message} (h : m.Outlines (y, body)) (ho : o.element ≠ .arg) :
    m.Outlines (y, body ++ [o]) :=
  ⟨h.declared, by simpa [tags_concat, ho] using h.args⟩

theorem Message.Outlines.addArg {m : Message} (h : m.Outlines (y, body)) {a : Arg}
    (ha : a.DeclaredBy tag) : (m.addArg a).Outlines (y, body ++ [⟨.arg, tag⟩]) := by
  refine ⟨{ h.declared with }, ?_⟩
  rw [tags_concat]
  exact forall₂_concat h.args ha

theorem Enum.Outlines.concat {e : Enum} (h : e.Outlines (y, body)) (ho : o.element ≠ .entry) :
    e.Outlines (y, body ++ [o]) :=
  ⟨h.declared, by simpa [tags_concat, ho] using h.entries⟩

theorem Enum.Outlines.addEntry {e : Enum} (h : e.Outlines (y, body)) {n : Entry}
    (hn : n.DeclaredBy tag) : (e.addEntry n).Outlines (y, body ++ [⟨.entry, tag⟩]) := by
  refine ⟨{ h.declared with }, ?_⟩
  rw [tags_concat]
  exact forall₂_concat h.entries hn

namespace Interface

variable {x : Interface}

theorem DeclaredBy.modifyMessages (h : x.DeclaredBy tag) (kind : MessageKind)
    (f : List Message → List Message) : (x.modifyMessages kind f).DeclaredBy tag := by
  cases kind <;> exact { h with }

theorem Outlines.forall₂_messages (h : x.Outlines (y, body)) (hmessage : o.isMessage = false)
    (ho : o.element ≠ .arg) (kind : MessageKind) : List.Forall₂ Message.Outlines (x.messages kind)
      (nodes Opening.isMessage kind.element (body ++ [o])) :=
  forall₂_nodes_concat hmessage (fun _ _ _ hm => Message.Outlines.concat hm ho) (h.messages kind)

theorem Outlines.forall₂_enums (h : x.Outlines (y, body)) (henum : o.isEnum = false)
    (ho : o.element ≠ .entry) :
    List.Forall₂ Enum.Outlines x.enums (nodes Opening.isEnum .enum (body ++ [o])) :=
  forall₂_nodes_concat henum (fun _ _ _ he => Enum.Outlines.concat he ho) h.enums

/-- A tag that adds no node below an interface. -/
theorem Outlines.concat (h : x.Outlines (y, body))
    (ho : o.element = .protocol ∨ o.element = .copyright ∨ o.element = .description) :
    x.Outlines (y, body ++ [o]) := by
  refine ⟨h.declared, h.forall₂_messages ?_ ?_, h.forall₂_enums ?_ ?_⟩ <;>
    rcases ho with ho | ho | ho <;>
      simp [Opening.isMessage, Opening.isEnum, Element.messageKind?, ho]

theorem Outlines.addMessage (h : x.Outlines (y, body)) (kind : MessageKind) {m : Message}
    (hm : m.DeclaredBy tag) (hfresh : m.Fresh) :
    (x.addMessage kind m).Outlines (y, body ++ [⟨kind.element, tag⟩]) := by
  have hmessage : Opening.isMessage ⟨kind.element, tag⟩ := by cases kind <;> rfl
  have henum : Opening.isEnum ⟨kind.element, tag⟩ = false := by cases kind <;> rfl
  have hentry : kind.element ≠ .entry := by cases kind <;> simp [MessageKind.element]
  refine ⟨{ h.declared.modifyMessages kind (· ++ [m]) with }, fun kind' => ?_, ?_⟩
  · rw [nodes_concat_head hmessage, messages_addMessage]
    by_cases hk : kind = kind'
    · subst hk
      rw [if_pos rfl, if_pos (by simp)]
      exact forall₂_concat (h.messages kind) ⟨hm, by simp [hfresh.args, tags]⟩
    · have hne : (kind.element == kind'.element) = false := by
        cases kind <;> cases kind' <;> simp_all [MessageKind.element]
      rw [if_neg hk, hne]
      simpa using h.messages kind'
  · rw [enums_addMessage]
    exact h.forall₂_enums henum hentry

theorem Outlines.addEnum (h : x.Outlines (y, body)) {e : Enum} (he : e.DeclaredBy tag)
    (hfresh : e.Fresh) : (x.addEnum e).Outlines (y, body ++ [⟨.enum, tag⟩]) := by
  refine ⟨{ h.declared with }, fun kind => ?_, ?_⟩
  · rw [messages_addEnum]
    exact h.forall₂_messages rfl (by simp) kind
  · rw [nodes_concat_head rfl]
    exact forall₂_concat h.enums ⟨he, by simp [hfresh.entries, tags]⟩

variable {s : List (Opening × List Opening)} {z : Opening} {inner : List Opening}

/-- The argument goes to the last message. -/
theorem Outlines.addArg (h : x.Outlines (y, body)) {kind : MessageKind} {a : Arg}
    (ha : a.DeclaredBy tag) (hs : segments Opening.isMessage body = s ++ [(z, inner)])
    (hz : z.element = kind.element) :
    (x.modifyMessages kind (·.modify ((x.messages kind).length - 1) (·.addArg a))).Outlines
      (y, body ++ [⟨.arg, tag⟩]) := by
  refine ⟨h.declared.modifyMessages kind _, fun kind' => ?_, ?_⟩
  · rw [messages_modifyMessages]
    by_cases hk : kind = kind'
    · subst hk
      rw [if_pos rfl]
      exact forall₂_modify_last rfl hs hz (fun _ _ hm => Message.Outlines.addArg hm ha)
        (h.messages kind)
    · have hne : z.element ≠ kind'.element := by
        cases kind <;> cases kind' <;> simp_all [MessageKind.element]
      rw [if_neg hk, nodes_concat_of_ne rfl hs hne]
      exact h.messages kind'
  · rw [enums_modifyMessages]
    exact h.forall₂_enums rfl (by simp)

/-- The entry goes to the last enum. -/
theorem Outlines.addEntry (h : x.Outlines (y, body)) {n : Entry} (hn : n.DeclaredBy tag)
    (hs : segments Opening.isEnum body = s ++ [(z, inner)]) (hz : z.element = .enum) :
    Outlines { x with enums := x.enums.modify (x.enums.length - 1) (·.addEntry n) }
      (y, body ++ [⟨.entry, tag⟩]) := by
  refine ⟨{ h.declared with }, fun kind => ?_, ?_⟩
  · have hkind := h.forall₂_messages (o := ⟨.entry, tag⟩) rfl nofun kind
    cases kind <;> exact hkind
  · exact forall₂_modify_last rfl hs hz (fun _ _ he => Enum.Outlines.addEntry he hn) h.enums

end Interface

end Grow

/-! ## The last segments

A history knows the last segments: that of the current interface has the start tags since its
start, and in it the last message is of the latest kind. -/

theorem openings_append (cs ds : List Call) : openings (cs ++ ds) = openings cs ++ openings ds :=
  List.filterMap_append

theorem Call.opening?_element (c : Call) : c.opening?.map Opening.element = c.started? := by
  cases c with
  | start tag => simp [opening?, started?, Function.comp_def]
  | close name => rfl
  | text s => rfl

namespace History

open Call (starts)

/-- The start tags of the history, in document order. -/
def tags (past : History) : List Opening := openings past.reverse

theorem tags_cons (c : Call) (past : History) :
    tags (c :: past) = past.tags ++ c.opening?.toList := by
  rw [tags, List.reverse_cons, openings_append]
  cases h : c.opening? <;> simp [openings, tags, h]

theorem tags_cons_of_none {c : Call} (h : c.opening? = none) (past : History) :
    tags (c :: past) = past.tags := by
  rw [tags_cons, h, Option.toList_none, List.append_nil]

theorem starts_eq {c : Call} {o : Opening} (h : c.opening? = some o) (e : Element) :
    c.starts e = (o.element == e) := by
  have hstarted := c.opening?_element
  rw [h, Option.map_some] at hstarted
  simp [Call.starts, ← hstarted]

theorem starts_eq_false {c : Call} (h : c.opening? = none) (e : Element) : c.starts e = false := by
  have hstarted := c.opening?_element
  rw [h, Option.map_none] at hstarted
  simp [Call.starts, ← hstarted]

/-- The start tags in the current interface. -/
def interfaceTags (past : History) : List Opening := (past.since (starts .interface)).tags

theorem interfaceTags_cons (c : Call) (past : History) : interfaceTags (c :: past) =
    if c.starts .interface then [] else past.interfaceTags ++ c.opening?.toList := by
  simp only [interfaceTags, since, List.takeWhile_cons]
  cases c.starts .interface with
  | true => rfl
  | false => exact tags_cons c _

theorem segments_of_hasInterface {past : History} (h : past.hasInterface) :
    ∃ s y, segments Opening.isInterface past.tags = s ++ [(y, past.interfaceTags)] := by
  induction past with
  | nil => simp [hasInterface] at h
  | cons c past ih =>
    rw [tags_cons, interfaceTags_cons]
    rw [hasInterface_cons] at h
    cases ho : c.opening? with
    | none =>
      rw [starts_eq_false ho] at h ⊢
      simpa using ih h
    | some o =>
      rw [starts_eq ho] at h ⊢
      cases hi : o.element == .interface with
      | true => exact ⟨_, o, segments_concat_head hi⟩
      | false =>
        rw [hi] at h
        obtain ⟨s, y, hs⟩ := ih h
        exact ⟨s, y, segments_concat hi hs⟩

theorem messageKind?_eq {c : Call} {o : Opening} (h : c.opening? = some o) :
    c.messageKind? = o.element.messageKind? := by
  rw [Call.messageKind?, ← c.opening?_element, h]
  rfl

theorem startsMessage_eq {c : Call} {o : Opening} (h : c.opening? = some o) :
    c.startsMessage = o.isMessage := by
  rw [Call.startsMessage, starts_eq h, starts_eq h, Opening.isMessage]
  cases o.element <;> rfl

theorem segments_of_hasMessage {past : History} (h : past.hasMessage) :
    ∃ s z inner, segments Opening.isMessage past.interfaceTags = s ++ [(z, inner)] ∧
      z.element = past.latestKind.element := by
  induction past with
  | nil => simp [hasMessage, stillOpen] at h
  | cons c past ih =>
    rw [interfaceTags_cons, latestKind_cons]
    rw [hasMessage_cons] at h
    cases ho : c.opening? with
    | none =>
      have hkind : c.messageKind? = none := by
        rw [Call.messageKind?, ← c.opening?_element, ho]
        rfl
      simp only [Call.startsMessage, starts_eq_false ho, Bool.false_or, Bool.and_eq_true] at h
      simpa [starts_eq_false ho, hkind] using ih h.2
    | some o =>
      rw [startsMessage_eq ho] at h
      rw [messageKind?_eq ho]
      cases hmessage : o.isMessage with
      | true =>
        have hinterface : (o.element == .interface) = false := by
          rw [Opening.isMessage] at hmessage
          cases he : o.element <;> simp_all [Element.messageKind?]
        rw [starts_eq ho, hinterface]
        refine ⟨_, o, [], segments_concat_head hmessage, ?_⟩
        rw [Opening.isMessage] at hmessage
        cases he : o.element <;> simp_all [Element.messageKind?, MessageKind.element]
      | false =>
        rw [hmessage, Bool.false_or, Bool.and_eq_true, Bool.not_eq_true', Bool.or_eq_false_iff] at h
        obtain ⟨s, z, inner, hs, hz⟩ := ih h.2
        have hkind : o.element.messageKind? = none := by
          simpa [Opening.isMessage] using hmessage
        rw [h.1.1, hkind]
        exact ⟨s, z, _, segments_concat hmessage hs, hz⟩

theorem segments_of_hasEnum {past : History} (h : past.hasEnum) :
    ∃ s z inner, segments Opening.isEnum past.interfaceTags = s ++ [(z, inner)] ∧
      z.element = .enum := by
  induction past with
  | nil => simp [hasEnum, stillOpen] at h
  | cons c past ih =>
    rw [interfaceTags_cons]
    rw [hasEnum_cons] at h
    cases ho : c.opening? with
    | none =>
      simp only [starts_eq_false ho, Bool.false_or, Bool.and_eq_true] at h
      simpa [starts_eq_false ho] using ih h.2
    | some o =>
      rw [starts_eq ho] at h
      cases henum : o.element == .enum with
      | true =>
        have he : o.element = .enum := beq_iff_eq.1 henum
        rw [starts_eq ho, he]
        exact ⟨_, o, [], segments_concat_head henum, he⟩
      | false =>
        rw [henum, Bool.false_or, Bool.and_eq_true, Bool.not_eq_true', Bool.or_eq_false_iff] at h
        obtain ⟨s, z, inner, hs, hz⟩ := ih h.2
        rw [h.1.1]
        exact ⟨s, z, _, segments_concat henum hs, hz⟩

end History

/-! ## Skeletons

An outline is one of the skeleton. -/

section Skeleton

variable {s : Opening × List Opening} {tag : Bytes}

@[simp] theorem Arg.declaredBy_skeleton {a : Arg} : a.skeleton.DeclaredBy tag ↔ a.DeclaredBy tag :=
  ⟨fun h => { h with }, fun h => { h with }⟩

@[simp] theorem Entry.declaredBy_skeleton {n : Entry} :
    n.skeleton.DeclaredBy tag ↔ n.DeclaredBy tag :=
  ⟨fun h => { h with }, fun h => { h with }⟩

@[simp] theorem Message.outlines_skeleton {m : Message} : m.skeleton.Outlines s ↔ m.Outlines s := by
  have hargs : List.Forall₂ Arg.DeclaredBy m.skeleton.args (tags .arg s.2) ↔
      List.Forall₂ Arg.DeclaredBy m.args (tags .arg s.2) := by
    simp [skeleton]
  exact ⟨fun h => ⟨{ h.declared with }, hargs.1 h.args⟩,
    fun h => ⟨{ h.declared with }, hargs.2 h.args⟩⟩

@[simp] theorem Enum.outlines_skeleton {e : Enum} : e.skeleton.Outlines s ↔ e.Outlines s := by
  have hentries : List.Forall₂ Entry.DeclaredBy e.skeleton.entries (tags .entry s.2) ↔
      List.Forall₂ Entry.DeclaredBy e.entries (tags .entry s.2) := by
    simp [skeleton]
  exact ⟨fun h => ⟨{ h.declared with }, hentries.1 h.entries⟩,
    fun h => ⟨{ h.declared with }, hentries.2 h.entries⟩⟩

@[simp] theorem Interface.outlines_skeleton {x : Interface} :
    x.skeleton.Outlines s ↔ x.Outlines s := by
  have hmessages (kind : MessageKind) (l : List (Opening × List Opening)) :
      List.Forall₂ Message.Outlines (x.skeleton.messages kind) l ↔
        List.Forall₂ Message.Outlines (x.messages kind) l := by
    simp [messages_skeleton]
  have henums (l : List (Opening × List Opening)) :
      List.Forall₂ Enum.Outlines x.skeleton.enums l ↔ List.Forall₂ Enum.Outlines x.enums l := by
    simp [skeleton]
  exact ⟨fun h => ⟨{ h.declared with }, fun kind => (hmessages kind _).1 (h.messages kind),
      (henums _).1 h.enums⟩,
    fun h => ⟨{ h.declared with }, fun kind => (hmessages kind _).2 (h.messages kind),
      (henums _).2 h.enums⟩⟩

@[simp] theorem Protocol.outlines_skeleton {p : Protocol} {os : List Opening} :
    p.skeleton.Outlines os ↔ p.Outlines os := by
  have hinterfaces (l : List (Opening × List Opening)) :
      List.Forall₂ Interface.Outlines p.skeleton.interfaces l ↔
        List.Forall₂ Interface.Outlines p.interfaces l := by
    simp [skeleton]
  constructor
  · rintro ⟨⟨tag, htag, hd⟩, hi⟩
    exact ⟨⟨tag, htag, { hd with }⟩, (hinterfaces _).1 hi⟩
  · rintro ⟨⟨tag, htag, hd⟩, hi⟩
    exact ⟨⟨tag, htag, { hd with }⟩, (hinterfaces _).2 hi⟩

end Skeleton

/-! ## Runs -/

namespace Protocol

variable {p : Protocol} {os : List Opening} {o : Opening}

theorem Outlines.declared_concat (h : p.Outlines os) (ho : o.element ≠ .protocol) :
    ∃ tag, tags .protocol (os ++ [o]) = [tag] ∧ p.DeclaredBy tag := by
  obtain ⟨tag, htag, hd⟩ := h.declared
  exact ⟨tag, by simp [tags_concat, htag, ho], hd⟩

/-- A tag that adds no node. -/
theorem Outlines.concat (h : p.Outlines os)
    (ho : o.element = .copyright ∨ o.element = .description) :
    p.Outlines (os ++ [o]) := by
  have hinterface : o.isInterface = false := by
    rcases ho with ho | ho <;> simp [Opening.isInterface, ho]
  refine ⟨h.declared_concat (by rcases ho with ho | ho <;> simp [ho]), ?_⟩
  exact forall₂_nodes_concat hinterface
    (fun _ _ _ hx => Interface.Outlines.concat hx (.inr ho)) h.interfaces

theorem Outlines.addInterface (h : p.Outlines os) {x : Interface} {tag : Bytes}
    (hx : x.DeclaredBy tag) (hfresh : x.Fresh) :
    (p.addInterface x).Outlines (os ++ [⟨.interface, tag⟩]) := by
  obtain ⟨tag', htag, hd⟩ := h.declared_concat (o := ⟨.interface, tag⟩) nofun
  refine ⟨⟨tag', htag, { hd with }⟩, ?_⟩
  rw [nodes_concat_head rfl]
  refine forall₂_concat h.interfaces ⟨hx, fun kind => ?_, ?_⟩
  · simp [hfresh.messages, nodes, segments]
  · simp [hfresh.enums, nodes, segments]

/-- A node is added below the last interface. -/
theorem Outlines.modifyLast (h : p.Outlines os) {f : Interface → Interface}
    {s : List (Opening × List Opening)} {y : Opening} {body : List Opening}
    (hs : segments Opening.isInterface os = s ++ [(y, body)]) (ho : o.isInterface = false)
    (hp : o.element ≠ .protocol)
    (hf : ∀ x, p.interface? (p.interfaces.length - 1) = some x → x.Outlines (y, body) →
      (f x).Outlines (y, body ++ [o])) :
    (p.modifyInterface (p.interfaces.length - 1) f).Outlines (os ++ [o]) := by
  obtain ⟨tag, htag, hd⟩ := h.declared_concat hp
  have hmem : (y, body) ∈ segments Opening.isInterface os := by simp [hs]
  have hy := Opening.head_of_mem_segments hmem
  exact ⟨⟨tag, htag, { hd with }⟩, forall₂_modify_last ho hs (beq_iff_eq.1 hy) hf h.interfaces⟩

end Protocol

namespace Builder

variable {b b' : Builder} {past : History}

/-- The tree outlines the start tags so far. -/
def Outlines (b : Builder) (past : History) : Prop :=
  ∀ p, b.protocol = some p → p.Outlines past.tags

/-- The interface cursor leads to the last interface, and its tags end the document so far. -/
theorem Tracks.lastInterface (ht : b.Tracks past) {p : Protocol} {i : Nat}
    (hp : b.protocol = some p) (hi : b.interface = some i) : i = p.interfaces.length - 1 ∧
      ∃ s y, segments Opening.isInterface past.tags = s ++ [(y, past.interfaceTags)] := by
  rw [ht.interface] at hi
  split at hi
  · rename_i h
    cases hi
    exact ⟨by rw [ht.counts.interfaces hp], History.segments_of_hasInterface h⟩
  · cases hi

theorem Tracks.lastMessage (ht : b.Tracks past) {p : Protocol} {i m : Nat} {kind : MessageKind}
    {x : Interface} (hp : b.protocol = some p) (hi : b.interface = some i)
    (hm : b.message = some (kind, m)) (hx : p.interface? i = some x) :
    m = (x.messages kind).length - 1 ∧ ∃ s z inner,
      segments Opening.isMessage past.interfaceTags = s ++ [(z, inner)] ∧
        z.element = kind.element := by
  rw [ht.message] at hm
  split at hm
  · rename_i h
    cases hm
    exact ⟨by rw [ht.counts.messages hp hi hx], History.segments_of_hasMessage h⟩
  · cases hm

theorem Tracks.lastEnum (ht : b.Tracks past) {p : Protocol} {i e : Nat} {x : Interface}
    (hp : b.protocol = some p) (hi : b.interface = some i) (he : b.enum = some e)
    (hx : p.interface? i = some x) : e = x.enums.length - 1 ∧ ∃ s z inner,
      segments Opening.isEnum past.interfaceTags = s ++ [(z, inner)] ∧ z.element = .enum := by
  rw [ht.enum] at he
  split at he
  · rename_i h
    cases he
    exact ⟨by rw [ht.counts.enums hp hi hx], History.segments_of_hasEnum h⟩
  · cases he

/-- Before the protocol starts there is nothing to outline. -/
theorem Tracks.outlines_protocol (ht : b.Tracks past) (hb : b.Grounded) (hp : b.protocol = none)
    {p : Protocol} {tag : Bytes} (hd : Declares Protocol.declare tag p) :
    p.Outlines (past.tags ++ [⟨.protocol, tag⟩]) := by
  have hnone {o : Opening} (ho : o ∈ past.tags) :
      o.element ≠ .protocol ∧ o.isInterface = false := by
    simp only [History.tags, openings, List.mem_filterMap, List.mem_reverse] at ho
    obtain ⟨c, hc, ho⟩ := ho
    have hprotocol := ht.protocol
    have hinterface := ht.interfaceCount_eq_zero (hb.interface_eq_none hp)
    simp only [hp, Option.isSome_none, History.hasProtocol, Bool.false_eq, List.any_eq_false,
      Bool.not_eq_true] at hprotocol
    simp only [History.interfaceCount, List.countP_eq_zero, Bool.not_eq_true] at hinterface
    have := hprotocol c hc
    have := hinterface c hc
    simp_all [History.starts_eq ho, Opening.isInterface]
  refine ⟨⟨tag, ?_, Protocol.declaredBy hd⟩, ?_⟩
  · rw [tags_concat]
    have hfilter : past.tags.filter (·.element == .protocol) = [] := by
      simpa [List.filter_eq_nil_iff] using fun o ho => (hnone ho).1
    simp [tags, hfilter]
  · have hsegments : segments Opening.isInterface (past.tags ++ [⟨.protocol, tag⟩]) = [] :=
      Opening.segments_concat_nil rfl (Opening.segments_eq_nil.2 fun o ho => (hnone ho).2)
    rw [Protocol.interfaces_of_declares hd, nodes, hsegments]
    exact .nil

theorem Outlines.start (h : b.Outlines past) (hb : b.Grounded) (ht : b.Tracks past) {tag : Bytes}
    {e : Element} (he : Element.ofName? (localName (Tag.name tag)) = some e)
    (hs : b.Starts tag e b') : b'.Outlines (.start tag :: past) := by
  have hopening : (Call.start tag).opening? = some ⟨e, tag⟩ := by simp [Call.opening?, he]
  intro p' hp'
  rw [History.tags_cons, hopening, Option.toList_some]
  cases hs with
  | protocol hd hp =>
    cases hp'
    exact ht.outlines_protocol hb hp hd
  | copyright hp hc => exact (h p' hp').concat (.inl rfl)
  | description hd hc hplace => exact (h p' hp').concat (.inr rfl)
  | interface hd hp =>
    cases hp'
    have hx := Interface.declaredBy hd
    exact (h _ hp).addInterface hx.1 hx.2
  | @message e kind m p i x hel hd hp hi hx =>
    cases hp'
    subst hel
    have hm := Message.declaredBy hd
    obtain ⟨rfl, s, y, hs⟩ := ht.lastInterface hp hi
    refine (h p hp).modifyLast hs ?_ ?_ fun x _ ho => ho.addMessage kind hm.1 hm.2
    · cases kind <;> rfl
    · cases kind <;> simp [MessageKind.element]
  | @arg a p i kind m x hd hp hi hm hx =>
    cases hp'
    obtain ⟨rfl, s, y, hs⟩ := ht.lastInterface hp hi
    refine (h p hp).modifyLast hs rfl (by simp) fun x hx ho => ?_
    obtain ⟨rfl, s', z, inner, hs', hz⟩ := ht.lastMessage hp hi hm hx
    exact ho.addArg (Arg.declaredBy hd).1 hs' hz
  | @enum n p i x hd hp hi hx =>
    cases hp'
    have hn := Enum.declaredBy hd
    obtain ⟨rfl, s, y, hs⟩ := ht.lastInterface hp hi
    exact (h p hp).modifyLast hs rfl (by simp) fun x _ ho => ho.addEnum hn.1 hn.2
  | @entry n p i k x hd hp hi hk hx =>
    cases hp'
    obtain ⟨rfl, s, y, hs⟩ := ht.lastInterface hp hi
    refine (h p hp).modifyLast hs rfl (by simp) fun x hx ho => ?_
    obtain ⟨rfl, s', z, inner, hs', hz⟩ := ht.lastEnum hp hi hk hx
    exact ho.addEntry (Entry.declaredBy hd).1 hs' hz

theorem Takes.outlines {c : Call} (hc : b.Takes c b') (h : b.Outlines past) (hb : b.Grounded)
    (ht : b.Tracks past) : b'.Outlines (c :: past) := by
  cases hc with
  | start he hs => exact h.start hb ht he hs
  | @ignore tag he =>
    intro p hp
    rw [History.tags_cons_of_none (by simp [Call.opening?, he])]
    exact h p hp
  | close name =>
    intro p' hp'
    obtain ⟨p, hp, hskeleton⟩ := exists_of_closed hp'
    rw [History.tags_cons_of_none rfl, ← Protocol.outlines_skeleton, ← hskeleton,
      Protocol.outlines_skeleton]
    exact h p hp
  | text s =>
    intro p hp
    rw [History.tags_cons_of_none rfl]
    exact h p hp

theorem Outlines.applyAll {cs : List Call} (h : b.Outlines past) (hb : b.Grounded)
    (ht : b.Tracks past) (hn : History.Nested (cs.reverse ++ past)) (hcs : b.applyAll cs = .ok b') :
    b'.Outlines (cs.reverse ++ past) :=
  applyAll_induction (fun hb ht _ hc h => hc.outlines h hb ht) h hb ht hn hcs

end Builder

/-- The tree of an accepted document outlines its start tags. -/
theorem outlines_of_parse {input : Bytes} {p : Protocol} (h : (parse input).result = .ok p) :
    p.Outlines (openings (calls input)) := by
  obtain ⟨ts, hts, hbalanced, -, b, hb, hp⟩ := parse_eq_ok_iff.1 h
  have hcalls : calls input = ts.flatMap Token.calls := by rw [calls, hts]
  obtain ⟨hn, -⟩ := History.nested_of_balanced hbalanced
  rw [← hcalls] at hb hn
  rw [← List.append_nil (calls input).reverse] at hn
  have houtlines : Builder.Outlines {} [] := nofun
  have := houtlines.applyAll Builder.grounded_empty Builder.tracks_empty hn hb p hp
  simpa [History.tags] using this

/-- Requests, events and enums that take turns, with their arguments and entries. -/
theorem outlines_of_mixed_messages :
    let input := ascii ("<protocol name='p'><interface name='i' version='2'><request name='r'/>" ++
      "<enum name='e'><entry name='x' value='1'/><entry name='y'/></enum><event name='v'>" ++
      "<arg name='x' type='fd'/></event><enum name='f'><entry name='z'/></enum>" ++
      "<request name='s'/></interface></protocol>")
    ∃ p, (parse input).result = .ok p ∧ p.Outlines (openings (calls input)) ∧
      p.interfaces.map (·.requests.map Message.name) = [["r", "s"]] ∧
      p.interfaces.map (·.events.map (·.args.map Arg.name)) = [[["x"]]] ∧
      p.interfaces.map (·.enums.map Enum.name) = [["e", "f"]] ∧
      p.interfaces.map (·.enums.map (·.entries.map fun n => (n.name, n.value))) =
        [[[("x", "1"), ("y", "")], [("z", "")]]] := by
  intro input
  have hresult : (parse input).result = .ok {
      name := "p", uppercaseName := "P"
      interfaces := [{
        name := "i", uppercaseName := "I", version := 2
        requests := [
          { name := "r", uppercaseName := "R" }, { name := "s", uppercaseName := "S" }]
        events := [{
          name := "v", uppercaseName := "V"
          args := [{ name := "x", type := .fd }] }]
        enums := [{
          name := "e", uppercaseName := "E"
          entries := [
            { name := "x", uppercaseName := "X", value := "1" },
            { name := "y", uppercaseName := "Y", value := "" }] }, {
          name := "f", uppercaseName := "F"
          entries := [{ name := "z", uppercaseName := "Z", value := "" }] }] }] } := by
    decide +kernel
  exact ⟨_, hresult, outlines_of_parse hresult, rfl, rfl, rfl, rfl⟩

end WaylandDoc
