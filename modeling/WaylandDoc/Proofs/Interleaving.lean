import Mathlib.Tactic.Choose
import WaylandDoc.Page
import WaylandDoc.Proofs.Additions
import WaylandDoc.Proofs.Fragments
import WaylandDoc.Proofs.Rendering
import WaylandDoc.Proofs.Siblings

/-!
# Children in another order

Each child of an interface adds to one part of it. So only the order of the children for the same
part counts, and the version that the next message is compared with, which is that of the last one.
A document whose children are in another order is accepted as well and has the same page
(`parse_reordered`).
-/

namespace WaylandDoc

/-! ## Items in a row -/

/-- On its own the item makes `y` of an interface without children. -/
structure Item.Adds (item : Item) (q : Protocol) (y : Interface) : Prop where
  without : y.without item.part? = y.head
  applyAll : (Builder.inInterface q y.head).applyAll item.calls = .ok (Builder.inInterface q y)

namespace Interface

variable {x y : Interface}

@[simp] theorem head_head (x : Interface) : x.head.head = x.head := rfl

@[simp] theorem head_after (y x : Interface) : (y.after x).head = y.head := rfl

theorem eq_of_parts (hhead : y.head = x.head)
    (hmessages : ∀ kind, y.messages kind = x.messages kind) (henums : y.enums = x.enums)
    (hdescription : y.description = x.description) :
    y = { x with since := y.since } := by
  have hrequests := hmessages .request
  have hevents := hmessages .event
  cases x
  cases y
  simp_all [head, messages]

variable {q : Protocol} {effect : Item → Interface} {items items' : List Item}

/-- The interface with the items added one after the other, of which the effects are known. -/
def addItems (x : Interface) (effect : Item → Interface) (items : List Item) : Interface :=
  items.foldl (fun y item => (effect item).after y) x

/-- What is read off one part depends only on the items for it. -/
theorem addItems_part {β : Type} (read : Interface → β) (add : Interface → β → β) (part : Part)
    (hread : ∀ y z : Interface, read (y.after z) = add y (read z))
    (hadd : ∀ item ∈ items, item.part? ≠ some part → ∀ a, add (effect item) a = a) :
    read (x.addItems effect items) =
      (items.filter (·.part? = some part)).foldl (fun a item => add (effect item) a) (read x) := by
  induction items generalizing x with
  | nil => rfl
  | cons item items ih =>
    rw [List.forall_mem_cons] at hadd
    rw [addItems, List.foldl_cons, ← addItems, ih hadd.2, hread, List.filter_cons]
    split
    · rfl
    · rename_i hpart
      rw [hadd.1 (by simpa using hpart)]

theorem head_addItems (h : ∀ item ∈ items, (effect item).head = x.head) :
    (x.addItems effect items).head = x.head := by
  induction items generalizing x with
  | nil => rfl
  | cons item items ih =>
    rw [List.forall_mem_cons] at h
    rw [addItems, List.foldl_cons, ← addItems, ih, head_after, h.1]
    exact fun item' hitem' => by rw [h.2 item' hitem', head_after, h.1]

/-- Items that are in the same order for each part make the same interface, but for the version of
the last message. -/
theorem exists_addItems_since (heffect : ∀ item ∈ items, item.Adds q (effect item))
    (hhead : ∀ item ∈ items, (effect item).head = x.head) (hperm : items'.Perm items)
    (horder : ∀ part, items'.filter (·.part? = some part) = items.filter (·.part? = some part)) :
    ∃ since, x.addItems effect items' = { x.addItems effect items with since } := by
  have heffect' : ∀ item ∈ items', item.Adds q (effect item) :=
    fun item hitem => heffect item (hperm.mem_iff.1 hitem)
  have hpart {β : Type} (read : Interface → β) (add : Interface → β → β) (part : Part)
      (hread : ∀ y z : Interface, read (y.after z) = add y (read z))
      (hadd : ∀ item y, Item.Adds item q y → item.part? ≠ some part → ∀ a, add y a = a) :
      read (x.addItems effect items') = read (x.addItems effect items) := by
    rw [addItems_part read add part hread fun item hitem => hadd item _ (heffect' item hitem),
      horder, addItems_part read add part hread fun item hitem => hadd item _ (heffect item hitem)]
  have hmessages (kind : MessageKind) : (x.addItems effect items').messages kind =
      (x.addItems effect items).messages kind := by
    refine hpart (·.messages kind) (fun y l => l ++ y.messages kind) (.messages kind)
      (fun y z => y.messages_after z kind) fun item y hy hne l => ?_
    rw [← y.messages_without kind hne, hy.without, messages_head, List.append_nil]
  have henums : (x.addItems effect items').enums = (x.addItems effect items).enums := by
    refine hpart (·.enums) (fun y l => l ++ y.enums) .enums (fun y z => rfl)
      fun item y hy hne l => ?_
    rw [← y.enums_without hne, hy.without, head, List.append_nil]
  have hdescription : (x.addItems effect items').description =
      (x.addItems effect items).description := by
    refine hpart (·.description) (fun y d => y.description.or d) .description (fun y z => rfl)
      fun item y hy hne d => ?_
    rw [← y.description_without hne, hy.without, head, Option.none_or]
  have hheads : (x.addItems effect items').head = (x.addItems effect items).head := by
    rw [head_addItems hhead, head_addItems fun item hitem => hhead item (hperm.mem_iff.1 hitem)]
  exact ⟨_, eq_of_parts hheads hmessages henums hdescription⟩

end Interface

theorem Item.openAfter_items (names : List Bytes) (items : List Item) :
    Token.openAfter names (items.flatMap Item.tokens) = some names := by
  induction items with
  | nil => rfl
  | cons item items ih =>
    rw [List.flatMap_cons, Token.openAfter_append, item.openAfter_tokens, Option.bind_some, ih]

/-- The version is that of the last message, or else the one before. -/
theorem Protocol.exists_after_since (p : Protocol) (i : Nat) (x : Interface) (since : UInt32) :
    ∃ since', p.after i { x with since } =
      (p.after i x).modifyInterface i ({ · with since := since' }) := by
  refine ⟨((p.interface? i).elim since fun y => (y.after { x with since }).since), ?_⟩
  simp only [after, modifyInterface, List.modify_modify_eq]
  refine congrArg (fun l => { p with interfaces := l }) (List.ext_getElem? fun j => ?_)
  simp only [List.getElem?_modify]
  split
  · rename_i hj
    subst hj
    cases hy : p.interfaces[i]? with
    | none => rfl
    | some y => simp [interface?, hy, Interface.after]
  · rfl

/-! ## Builders -/

namespace Builder

variable {q : Protocol} {x : Interface} {b : Builder} {past : History} {names : List Bytes}
  {effect : Item → Interface} {items : List Item}

/-- Every item of a run has an effect of its own. -/
theorem exists_adds (ht : (inInterface q x).Tracks past) (hn : past.Nested)
    (hnames : past.openNames = names.map localName)
    (hcollected : (names.map localName).countP isCollected = 0)
    (h : (inInterface q x).applyAll (items.flatMap Item.calls) = .ok b) :
    ∀ item ∈ items, ∃ y, item.Adds q y ∧ y.head = x.head := by
  induction items generalizing x past with
  | nil => simp
  | cons item items ih =>
    obtain ⟨b₁, hitem, h⟩ := applyAll_append_eq_ok.1 h
    obtain ⟨hn₁, hnames₁⟩ := History.nested_of_openAfter hn hnames (item.openAfter_tokens names)
    have ht₁ := ht.applyAll (grounded_inInterface q x) hn₁ hitem
    -- The elements around an item are those around the interface, so no text is pending after it.
    obtain ⟨y, hy, hcalls, rfl⟩ :=
      applyAll_item item hitem (ht₁.pending_eq_none hnames₁ hcollected)
    have hhead : y.head = x.head := by
      rw [← y.head_without item.part?, hy, Interface.head_head]
    refine List.forall_mem_cons.2 ⟨⟨y, ⟨hy.trans hhead.symm, hhead ▸ hcalls⟩, hhead⟩, ?_⟩
    have hlater := ih ht₁ hn₁ hnames₁ h
    simpa only [Interface.head_after, hhead] using hlater

/-- Items whose effects are known may follow each other in any order. -/
theorem applyAll_items (heffect : ∀ item ∈ items, item.Adds q (effect item))
    (hhead : ∀ item ∈ items, (effect item).head = x.head) :
    (inInterface q x).applyAll (items.flatMap Item.calls) =
      .ok (inInterface q (x.addItems effect items)) := by
  induction items generalizing x with
  | nil => rfl
  | cons item items ih =>
    rw [List.forall_mem_cons] at heffect hhead
    have hitem : (inInterface q x).applyAll item.calls =
        .ok (inInterface q ((effect item).after x)) := by
      rw [applyAll_inInterface, ← hhead.1, heffect.1.applyAll, map_eq_ok]
      exact ⟨_, rfl, after_inInterface ..⟩
    refine applyAll_append_eq_ok.2 ⟨_, hitem, ih heffect.2 fun item' hitem' => ?_⟩
    rw [hhead.2 item' hitem', Interface.head_after, hhead.1]

/-- What comes after the items does not see the version of the last message. -/
theorem exists_applyAll_since {cs : List Call} {p : Protocol} (since : UInt32)
    (h : (inInterface q x).applyAll cs = .ok b) (hp : b.protocol = some p) :
    ∃ b' since', (inInterface q { x with since }).applyAll cs = .ok b' ∧
      b'.protocol = some (p.modifyInterface q.interfaces.length ({ · with since := since' })) := by
  rw [applyAll_inInterface, map_eq_ok] at h
  obtain ⟨b, h, rfl⟩ := h
  obtain ⟨t, ht, rfl⟩ := Option.map_eq_some_iff.1 hp
  have h' : (inInterface q { x with since }).applyAll cs =
      .ok (b.after q.interfaces.length { x with since }) := by
    rw [applyAll_inInterface, map_eq_ok]
    exact ⟨b, h, rfl⟩
  obtain ⟨since', hsince⟩ := t.exists_after_since q.interfaces.length x since
  exact ⟨_, since', h', by simp [after, ht, hsince]⟩

/-- Where an interface starts, no other cursor leads to a node. -/
theorem exists_inInterface_of_start {tag : Bytes} {b' : Builder} (ht : b.Tracks past)
    (hpending : b.pending = none)
    (htag : Element.ofName? (localName (Tag.name tag)) = some .interface)
    (h : b.apply (.start tag) = .ok b') :
    ∃ q x, b' = inInterface q x ∧ q.interfaces.length = past.interfaceCount := by
  cases starts_of_start htag h with
  | @message e kind m p i x he => cases kind <;> cases he
  | @interface x q hd hq =>
    rw [hpending]
    exact ⟨q, x, rfl, ht.counts.interfaces hq⟩

/-- The items may be in another order. -/
theorem exists_applyAll_items {items' : List Item} {rest : List Call} {p : Protocol}
    (ht : (inInterface q x).Tracks past) (hn : past.Nested)
    (hnames : past.openNames = names.map localName)
    (hcollected : (names.map localName).countP isCollected = 0) (hperm : items'.Perm items)
    (horder : ∀ part, items'.filter (·.part? = some part) = items.filter (·.part? = some part))
    (h : (inInterface q x).applyAll (items.flatMap Item.calls ++ rest) = .ok b)
    (hp : b.protocol = some p) :
    ∃ b' since, (inInterface q x).applyAll (items'.flatMap Item.calls ++ rest) = .ok b' ∧
      b'.protocol = some (p.modifyInterface q.interfaces.length ({ · with since })) := by
  obtain ⟨b₁, hitems, hrest⟩ := applyAll_append_eq_ok.1 h
  -- The effects are read off the run in the first order and make up the run in the second.
  have : Nonempty Interface := ⟨x⟩
  choose! effect heffect using exists_adds ht hn hnames hcollected hitems
  have hadds := fun item hitem => (heffect item hitem).1
  have hheads := fun item hitem => (heffect item hitem).2
  cases hitems.symm.trans (applyAll_items hadds hheads)
  obtain ⟨since, hsince⟩ := Interface.exists_addItems_since hadds hheads hperm horder
  obtain ⟨b', since', hrest', hp'⟩ := exists_applyAll_since since hrest hp
  rw [← hsince] at hrest'
  have hitems' := applyAll_items (fun item hitem => hadds item (hperm.mem_iff.1 hitem))
    (fun item hitem => hheads item (hperm.mem_iff.1 hitem))
  exact ⟨b', since', applyAll_append_eq_ok.2 ⟨_, hitems', hrest'⟩, hp'⟩

/-- An interface outside of the elements with a text whose children are in another order. -/
theorem exists_applyAll_reordered {before : List Token} {tag : Bytes} {items' : List Item}
    {rest : List Call} {p : Protocol} (hopen : Token.openAfter [] before = some names)
    (htag : Element.ofName? (localName (Tag.name tag)) = some .interface)
    (houtside : History.collecting (before.flatMap Token.calls).reverse = false)
    (hperm : items'.Perm items)
    (horder : ∀ part, items'.filter (·.part? = some part) = items.filter (·.part? = some part))
    (h : Builder.applyAll {} (before.flatMap Token.calls ++
      (.start tag :: (items.flatMap Item.calls ++ rest))) = .ok b) (hp : b.protocol = some p) :
    ∃ b' since, Builder.applyAll {} (before.flatMap Token.calls ++
        (.start tag :: (items'.flatMap Item.calls ++ rest))) = .ok b' ∧
      b'.protocol = some (p.modifyInterface
        (History.interfaceCount (before.flatMap Token.calls).reverse) ({ · with since })) := by
  obtain ⟨b₀, hb₀, h⟩ := applyAll_append_eq_ok.1 h
  obtain ⟨b₁, hstart, h⟩ := applyAll_cons_eq_ok.1 h
  have hnil : History.Nested [] := trivial
  obtain ⟨hn, hnames⟩ := History.nested_of_openAfter hnil rfl hopen
  have ht := tracks_empty.applyAll grounded_empty hn hb₀
  have hgrounded := grounded_empty.applyAll hb₀
  rw [List.append_nil] at hn hnames ht
  have hcollected : (names.map localName).countP isCollected = 0 := by
    rw [History.collecting, hnames, List.any_eq_false] at houtside
    exact List.countP_eq_zero.2 houtside
  have hcollected₁ : ((Tag.name tag :: names).map localName).countP isCollected = 0 := by
    simpa [isCollected, htag] using hcollected
  have ht₁ := ht.start hgrounded htag (starts_of_start htag hstart)
  obtain ⟨q, x, rfl, hindex⟩ :=
    exists_inInterface_of_start ht (ht.pending_eq_none hnames hcollected) htag hstart
  have hnames₁ : History.openNames (.start tag :: (before.flatMap Token.calls).reverse) =
      (Tag.name tag :: names).map localName := congrArg (localName (Tag.name tag) :: ·) hnames
  obtain ⟨b', since, h', hp'⟩ :=
    exists_applyAll_items ht₁ hn hnames₁ hcollected₁ hperm horder h hp
  rw [hindex] at hp'
  exact ⟨b', since, applyAll_append_eq_ok.2 ⟨b₀, hb₀, applyAll_cons_eq_ok.2 ⟨_, hstart, h'⟩⟩, hp'⟩

end Builder

/-! ## Documents -/

/-- Other tokens between the first and the last ones of a document. -/
theorem dropMark_splice {input : Bytes} {first mid last : List Token}
    (h : Token.Cuts (dropMark input) (first ++ (mid ++ last)) [])
    {t : Token} (hmem : t ∈ first) (ht : t.isText = false) (new : List Token) :
    dropMark (input.take (sizeUpTo input first) ++ new.flatMap Token.render ++
      input.drop (sizeUpTo input (first ++ mid))) =
        (first ++ (new ++ last)).flatMap Token.render := by
  obtain ⟨rest, hfirst, -⟩ := h.exists_of_append
  have hfirst := lex_take_sizeUpTo hfirst
  rw [← List.append_assoc] at h
  obtain ⟨rest', hmid, hlast⟩ := h.exists_of_append
  have htake : dropMark (input.take (sizeUpTo input first)) = first.flatMap Token.render := by
    simpa using (Token.lex_eq_complete.1 hfirst).eq_append
  have hdrop : input.drop (sizeUpTo input (first ++ mid)) = last.flatMap Token.render := by
    simpa [drop_sizeUpTo hmid] using hlast.eq_append
  rw [List.append_assoc, dropMark_append_of_mem (by rwa [hfirst]) ht, htake, hdrop,
    List.flatMap_append, List.flatMap_append]

/-- The second document is the first one with the children of an interface element, and what stands
between them, in another order. The element is in no copyright and no description, and `i`
interfaces begin before it. Those children that are for the same part keep their order. -/
inductive Reordered (input : Bytes) (i : Nat) : Bytes → Prop where
  | intro {before after : List Token} {tag endTag : Bytes} {items items' : List Item}
      (htokens : tokens input =
        before ++ [.start tag] ++ (items.flatMap Item.tokens ++ .close endTag :: after))
      (htag : Element.ofName? (localName (Tag.name tag)) = some .interface)
      (houtside : History.collecting (before.flatMap Token.calls).reverse = false)
      (hindex : History.interfaceCount (before.flatMap Token.calls).reverse = i)
      (hperm : items'.Perm items)
      (horder : ∀ part, items'.filter (·.part? = some part) = items.filter (·.part? = some part)) :
      Reordered input i (input.take (sizeUpTo input (before ++ [.start tag])) ++
        (items'.flatMap Item.tokens).flatMap Token.render ++
        input.drop (sizeUpTo input (before ++ [.start tag] ++ items.flatMap Item.tokens)))

/-- The page does not show the version that the next message would be compared with. -/
theorem Protocol.toHtml_since (p : Protocol) (i : Nat) (since : UInt32) :
    (p.modifyInterface i ({ · with since })).toHtml = p.toHtml := by
  have hpages := map_modify_of_eq (f := fun y : Interface => { y with since })
    (g := Page.ofInterface) (fun _ => rfl) p.interfaces i
  have hbody : Page.body (p.modifyInterface i ({ · with since })) = Page.body p := by
    rw [Page.body, modifyInterface, hpages, Page.body]
  have hhtml (p : Protocol) : p.toHtml = "<!DOCTYPE html>\n" ++ (Page.ofProtocol p).render := rfl
  rw [hhtml, hhtml, Page.ofProtocol, hbody]
  rfl

/-- The children of an interface may be in any order that keeps requests, events, enums and
descriptions each in theirs. The document is accepted as before, its tree is the same but for the
version that the next message of the interface would be compared with, and its page is the same. -/
theorem parse_reordered {input input' : Bytes} {i : Nat} {p : Protocol}
    (h : Reordered input i input') (hp : (parse input).result = .ok p) :
    ∃ since, (parse input').result = .ok (p.modifyInterface i ({ · with since })) ∧
      (p.modifyInterface i ({ · with since })).toHtml = p.toHtml := by
  cases h with
  | @intro before after tag endTag items items' htokens htag houtside hindex hperm horder =>
  obtain ⟨ts, hlex, hbalanced, hread, b, hb, hbp⟩ := parse_eq_ok_iff.1 hp
  rw [tokens, hlex] at htokens
  subst htokens
  have hcuts := Token.lex_eq_complete.1 hlex
  have hinput := dropMark_splice hcuts (t := .start tag) (by simp) rfl
    (items'.flatMap Item.tokens)
  -- They are the same tokens, so each of them stands for itself and can be decoded as before.
  have htokens := ((hperm.flatMap_right Item.tokens).append_right
    (.close endTag :: after)).append_left (before ++ [.start tag])
  have hbalanced' : Token.Balanced
      (before ++ [.start tag] ++ (items'.flatMap Item.tokens ++ .close endTag :: after)) := by
    rw [Token.Balanced] at hbalanced ⊢
    simpa only [Token.openAfter_append, Item.openAfter_items] using hbalanced
  have hcalls (items : List Item) : (before ++ [Token.start tag] ++
      (items.flatMap Item.tokens ++ Token.close endTag :: after)).flatMap Token.calls =
        before.flatMap Token.calls ++ (.start tag :: (items.flatMap Item.calls ++
          (Token.close endTag :: after).flatMap Token.calls)) := by
    have hitems : (items.flatMap Item.tokens).flatMap Token.calls = items.flatMap Item.calls :=
      List.flatMap_assoc
    rw [List.flatMap_append, List.flatMap_append, List.flatMap_append, hitems, List.append_assoc]
    rfl
  rw [Token.Balanced, List.append_assoc, Token.openAfter_append,
    Option.bind_eq_some_iff] at hbalanced
  obtain ⟨names, hopen, -⟩ := hbalanced
  rw [hcalls] at hb
  obtain ⟨b', since, hb', hp'⟩ :=
    Builder.exists_applyAll_reordered hopen htag houtside hperm horder hb hbp
  rw [← hcalls items'] at hb'
  rw [hindex] at hp'
  exact ⟨since, parse_of_render hinput (fun t ht => hcuts.stands t (htokens.mem_iff.1 ht))
    (fun t ht => hread t (htokens.mem_iff.1 ht)) hbalanced' hb' hp', p.toHtml_since i since⟩

/-- An event, an enum, a description, an unknown element and a text come before another text, which
the first one meets, and a request. -/
theorem parse_reordered_children :
    let around (children : Bytes) := ascii "<protocol name='p'><interface name='i' version='2'>" ++
      children ++ ascii "</interface></protocol>"
    let first := ascii "t<request name='a' since='2'/>"
    let second := ascii "<event name='b'><arg name='c' type='int'/></event><enum name='e'/>" ++
      ascii "<description summary='s'>d</description><x/>u"
    ∃ p since, (parse (around (first ++ second))).result = .ok p ∧
      (parse (around (second ++ first))).result = .ok (p.modifyInterface 0 ({ · with since })) ∧
      (p.modifyInterface 0 ({ · with since })).toHtml = p.toHtml := by
  intro around first second
  let input := around (first ++ second)
  let plain (t : Token) (h : _) (h' : _) : Item := ⟨none, [t], .other h h'⟩
  let t := plain (.text (ascii "t")) rfl (by decide +kernel)
  let u := plain (.text (ascii "u")) rfl (by decide +kernel)
  let x := plain (.empty (ascii "x")) rfl (by decide +kernel)
  let request : Item := ⟨some (.messages .request), [.empty (ascii "request name='a' since='2'")],
    .element (e := .request) (by decide +kernel) rfl .empty (by decide +kernel)⟩
  let event : Item := ⟨some (.messages .event), .start (ascii "event name='b'") ::
      ([.empty (ascii "arg name='c' type='int'")] ++ [.close (ascii "event")]),
    .element (e := .event) (by decide +kernel) rfl
      (@Token.Spans.tags _ [.empty (ascii "arg name='c' type='int'")] _ rfl (by decide +kernel))
      (by decide +kernel)⟩
  let enum : Item := ⟨some .enums, [.empty (ascii "enum name='e'")],
    .element (e := .enum) (by decide +kernel) rfl .empty (by decide +kernel)⟩
  let description : Item := ⟨some .description, .start (ascii "description summary='s'") ::
      ([.text (ascii "d")] ++ [.close (ascii "description")]),
    .element (e := .description) (by decide +kernel) rfl
      (@Token.Spans.tags _ [.text (ascii "d")] _ rfl (by decide +kernel)) (by decide +kernel)⟩
  let items := [t, request] ++ [event, enum, description, x, u]
  let items' := [event, enum, description, x, u] ++ [t, request]
  let before := [Token.start (ascii "protocol name='p'")]
  let tag := ascii "interface name='i' version='2'"
  have hfacts : tokens input = before ++ [.start tag] ++ (items.flatMap Item.tokens ++
        .close (ascii "interface") :: [.close (ascii "protocol")]) ∧
      around (second ++ first) = input.take (sizeUpTo input (before ++ [.start tag])) ++
        (items'.flatMap Item.tokens).flatMap Token.render ++
        input.drop (sizeUpTo input (before ++ [.start tag] ++ items.flatMap Item.tokens)) ∧
      (parse input).result.toOption.isSome := by
    decide +kernel
  obtain ⟨htokens, hbytes, haccepted⟩ := hfacts
  have horder : ∀ part,
      items'.filter (·.part? = some part) = items.filter (·.part? = some part) := by
    intro part
    cases part with
    | messages kind => cases kind <;> rfl
    | enums | description => rfl
  have hreordered : Reordered input 0 (around (second ++ first)) := by
    rw [hbytes]
    exact .intro htokens (by decide +kernel) (by decide +kernel) (by decide +kernel)
      List.perm_append_comm horder
  obtain ⟨p, hp⟩ := Option.isSome_iff_exists.1 haccepted
  rw [toOption_eq_some] at hp
  obtain ⟨since, hresult, hpage⟩ := parse_reordered hreordered hp
  exact ⟨p, since, hp, hresult, hpage⟩

end WaylandDoc
