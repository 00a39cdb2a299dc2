import MarkupEditor.Proofs.Editing.AspectFrames
import MarkupEditor.Proofs.Editing.AttributeForms
import MarkupEditor.Proofs.Editing.Generations
import MarkupEditor.Proofs.Editing.Histories
import MarkupEditor.Proofs.Editing.Sessions

set_option autoImplicit false

namespace MarkupEditor

open MarkupEditor.Parser

theorem Literal.held_of_plain {value : Literal} (plain : ∀ x, value ≠ .number x) : value.Held none := by
  cases value with
  | null => exact .null
  | boolean b => exact .boolean b
  | string content => exact .string content
  | number x => exact absurd rfl (plain x)

namespace Manner

/-- A manner in which no text is kept, and anything may be the value of an attribute. -/
abbrev unkept : Manner where
  keeps _ _ := False
  holds _ _ := True

theorem unkept_uniform : unkept.Uniform :=
  fun _ _ _ _ _ _ _ _ _ => trivial

theorem rereadsKept_unkept : Printer.RereadsKept unkept :=
  fun _ _ _ _ keeps => keeps.elim

end Manner

namespace Tree

variable {t u v : Tree} {element attr x id : NodeId} {name other : String} {value : Literal} {site : Site}

theorem Legible.unkept (h : t.Legible .edited site id) : t.Legible .unkept site id :=
  h.change fun _ _ _ _ _ takes => takes.mono (fun _ _ _ => trivial) fun _ _ kept => kept

theorem Legible.setAttribute (h : t.Legible .unkept site id) (stored : t.Stored) (helement : t.isElement element = true)
    (named : IsAttributeName name) (held : value.Held none) :
    (t.setAttribute element name value).Legible .unkept site id := by
  obtain ⟨span, tag, as, xs, closed, hn⟩ := exists_of_isElement helement
  let t₁ := (t.alloc (.literal value none)).2
  have h₁ : t₁.get? element = some (elementNode span tag as xs closed) := by
    rw [get?_alloc_old (lt_size_of_get? hn), hn]
  obtain ⟨attr, -, holds⟩ := holdsLiteral_setAttribute stored helement name value
  have literal : (t.setAttribute element name value).Legible .unkept (.value name) ⟨t.size⟩ :=
    .node holds.inner ⟨held, trivial⟩ trivial nofun
  rcases setAttribute_cases stored hn name value with ⟨attr, old, outer, -, hattr, set⟩ | ⟨-, set⟩ <;> rw [set] at literal ⊢
  · exact (h.alloc _).setValue (by rw [get?_alloc_old (lt_size_of_get? hattr), hattr]) literal
  · exact (h.alloc _).addAttribute Manner.unkept_uniform h₁ named literal

theorem get?_setAttribute (stored : t.Stored) (helement : t.isElement element = true) (value : Literal)
    (hx : x.index < t.size) (apart : x ≠ element) (missing : t.findAttribute? element name ≠ some x) :
    (t.setAttribute element name value).get? x = t.get? x := by
  obtain ⟨span, tag, as, xs, closed, h⟩ := exists_of_isElement helement
  have old (y : NodeId) (hy : y.index < t.size) : (t.alloc (.literal value none)).2.get? y = t.get? y := get?_alloc_old hy
  rcases setAttribute_cases stored h name value with ⟨attr, _, outer, found, hattr, set⟩ | ⟨-, set⟩ <;> rw [set]
  · have ne : attr ≠ x := by
      rintro rfl
      exact missing found
    rw [setValue_eq ((old attr (lt_size_of_get? hattr)).trans hattr), get?_setKind_ne ne, old x hx]
  · have low : x.index < (t.alloc (.literal value none)).2.size := by
      rw [size_alloc]
      exact Nat.lt_succ_of_lt hx
    rw [addAttribute_eq ((old element (lt_size_of_get? h)).trans h), get?_setKind_ne (Ne.symm apart),
      get?_alloc_old low, old x hx]

section

variable (stored : t.Stored) (helement : t.isElement element = true) (value : Literal) (differs : other ≠ name)

include stored helement

theorem contained?_setAttribute (hx : x.index < t.size) :
    (t.setAttribute element name value).contained? x = t.contained? x := by
  obtain ⟨_, _, _, _, _, h⟩ := exists_of_isElement helement
  obtain ⟨rewrites, -⟩ := rewrites_setAttribute stored h name value
  by_cases same : x = element
  · subst same
    have kept := (rewrites.isElement hx).trans helement
    rw [contained?_eq_heldBy, contained?_eq_heldBy, heldBy_of_isElement helement (by decide),
      heldBy_of_isElement kept (by decide)]
  · by_cases found : t.findAttribute? element name = some x
    · have plain {w : Tree} (named : w.isNamed name x = true) : w.contained? x = none := by
        unfold isNamed at named
        unfold contained?
        split at named
        · rename_i hk
          rw [hk]
        · cases named
      have named : t.isNamed name x = true := List.find?_some found
      rw [plain named, plain ((rewrites.isNamed name hx).trans named)]
    · rw [contained?, contained?, kind?, kind?, get?_setAttribute stored helement value hx same found]

include differs

theorem get?_otherAttribute (found : t.findAttribute? element other = some attr) :
    (t.setAttribute element name value).get? attr = t.get? attr := by
  obtain ⟨_, _, _, _, _, h⟩ := exists_of_isElement helement
  obtain ⟨hmem, _, _, hattr⟩ := exists_of_findAttribute? found
  refine get?_setAttribute stored helement value (lt_size_of_get? hattr) (ne_element hattr h rfl) fun found' => ?_
  obtain ⟨-, _, _, hattr'⟩ := exists_of_findAttribute? found'
  cases hattr.symm.trans hattr'
  exact differs rfl

theorem findAttribute?_setAttribute :
    (t.setAttribute element name value).findAttribute? element other = t.findAttribute? element other := by
  obtain ⟨_, _, _, _, _, h⟩ := exists_of_isElement helement
  obtain ⟨rewrites, adds⟩ := rewrites_setAttribute stored h name value
  exact findAttribute?_of_adds stored rewrites.sort (adds.imp fun _ h => ⟨h.1, fun a ha => (h.2 a ha).2⟩) differs

theorem getAttribute?_setAttribute :
    (t.setAttribute element name value).getAttribute? element other = t.getAttribute? element other := by
  obtain ⟨_, _, _, _, _, h⟩ := exists_of_isElement helement
  obtain ⟨rewrites, -⟩ := rewrites_setAttribute stored h name value
  rw [getAttribute?, getAttribute?, findAttribute?_setAttribute stored helement value differs]
  cases found : t.findAttribute? element other with
  | none => rfl
  | some attr =>
    have same : (t.setAttribute element name value).attributeValue? attr = t.attributeValue? attr := by
      rw [attributeValue?, attributeValue?, kind?, kind?, get?_otherAttribute stored helement value differs found]
    have literal (y : NodeId) (hy : y.index < t.size) : (t.setAttribute element name value).literal? y = t.literal? y := by
      rw [literal?_eq_sort, literal?_eq_sort, rewrites.sort y hy]
    simp only [Option.bind_some, same]
    cases holds : t.attributeValue? attr with
    | none => rfl
    | some held =>
      obtain ⟨_, _, hattr⟩ := exists_of_attributeValue? holds
      have low : held.index < t.size := stored hattr held (List.mem_singleton.2 rfl)
      dsimp only
      rw [literal held low, contained?_setAttribute stored helement value low]
      cases contains : t.contained? held with
      | none => rfl
      | some e =>
        obtain ⟨_, hheld⟩ := exists_of_contained? contains
        exact congrArg ((t.literal? held).or ·) (literal e (stored hheld e (List.mem_singleton.2 rfl)))

end

/-- A number that an attribute of a tagged element holds without a spelling is the one in its marker. -/
theorem Tagging.bare_number {i : Nat} {content : Binary64} {span : Option Span} (h : t.Tagging)
    (hi : t.elements[i]? = some element) (legible : t.tag.tree.Legible .edited site element)
    (found : t.tag.tree.findAttribute? element name = some attr) (holds : t.tag.tree.attributeValue? attr = some x)
    (bare : t.tag.tree.get? x = some ⟨.literal (.number content) none, span⟩) : content = .ofNat i := by
  have isMarker : name = markerAttribute := by
    cases legible.attributeValue found holds with
    | @node _ _ _ stored takes =>
      rw [bare] at stored
      cases stored
      exact Manner.marked_marksNumbers _ _ takes.holds
  subst isMarker
  obtain ⟨owns, hmarker⟩ := h.marker hi
  have among : attr ∈ (t.tag.tree.attributesOf element).filter t.tag.tree.isMarker :=
    List.mem_filter.2 ⟨(exists_of_findAttribute? found).1, List.find?_some found⟩
  rw [owns] at among
  obtain rfl := List.mem_singleton.1 among
  rw [attributeValue?, kind?_of_get? hmarker.marker] at holds
  obtain rfl := Option.some.inj holds
  rw [hmarker.value] at bare
  cases bare
  rfl

theorem get?_of_setAttribute {literal : Literal} {raw : Option String} {span : Option Span} (stored : t.Stored)
    (helement : t.isElement element = true) (value : Literal) (hx : x.index < t.size)
    (there : (t.setAttribute element name value).get? x = some ⟨.literal literal raw, span⟩) :
    t.get? x = some ⟨.literal literal raw, span⟩ := by
  obtain ⟨_, _, _, _, _, hn⟩ := exists_of_isElement helement
  obtain ⟨rewrites, -⟩ := rewrites_setAttribute stored hn name value
  have isLiteral : t.literal? x = some literal := by
    rw [literal?_eq_sort, ← rewrites.sort x hx, ← literal?_eq_sort, literal?_of_get? there]
  obtain ⟨_, _, hliteral⟩ := exists_of_literal? isLiteral
  rw [← there]
  refine (get?_setAttribute stored helement value hx (ne_element hliteral hn rfl) fun found => ?_).symm
  obtain ⟨-, _, _, hattr⟩ := exists_of_findAttribute? found
  cases hliteral.symm.trans hattr

/-- After an attribute was set to another literal the numbers without a spelling are still those of markers. -/
theorem Tagging.bare_setAttribute {i : Nat} {content : Binary64} {span : Option Span} (h : t.Tagging)
    (hi : t.elements[i]? = some element) (legible : t.tag.tree.Legible .edited site element)
    (plain : ∀ x, value ≠ .number x)
    (found : (t.tag.tree.setAttribute element name value).findAttribute? element other = some attr)
    (holds : (t.tag.tree.setAttribute element name value).attributeValue? attr = some x)
    (bare : (t.tag.tree.setAttribute element name value).get? x = some ⟨.literal (.number content) none, span⟩) :
    content = .ofNat i := by
  have separate := h.separate
  have helement := separate.isElement element (List.mem_of_getElem? hi)
  by_cases differs : other = name
  · subst differs
    obtain ⟨_, found', ⟨⟨_, outer⟩, inner⟩⟩ := holdsLiteral_setAttribute separate.stored helement other value
    obtain rfl := Option.some.inj (found.symm.trans found')
    rw [attributeValue?, kind?_of_get? outer] at holds
    obtain rfl := Option.some.inj holds
    rw [inner] at bare
    cases bare
    exact absurd rfl (plain content)
  · rw [findAttribute?_setAttribute separate.stored helement value differs] at found
    rw [attributeValue?, kind?, get?_otherAttribute separate.stored helement value differs found] at holds
    obtain ⟨_, _, hattr⟩ := exists_of_attributeValue? holds
    have hx : x.index < t.tag.tree.size := separate.stored hattr x (List.mem_singleton.2 rfl)
    exact h.bare_number hi legible found holds (get?_of_setAttribute separate.stored helement value hx bare)

/-- What a committed markup shows of an attribute that was set in a tree. It has as many elements as the edited tree;
the one in the place of the element that was picked has the literal, and its other attributes read as before. -/
structure ShowsAttribute (before after committed : Tree) (element : NodeId) (name : String) (value : Literal) : Prop where
  size : committed.elements.length = after.elements.length
  there : element ∈ after.elements
  reads : ∀ i : Nat, after.elements[i]? = some element → ∃ x, committed.elements[i]? = some x ∧
    committed.getAttribute? x name = some value ∧
    ∀ other, other ≠ name → committed.getAttribute? x other = before.getAttribute? element other

section

variable {i : Nat} (h : t.Tagging) (hi : t.elements[i]? = some element)
  (set : t.tag.tree.setAttribute element name value = u)

include h hi set

theorem Tagging.mem_elements_setAttribute : element ∈ u.elements ↔ element ∈ t.tag.tree.elements := by
  subst set
  have separate := h.separate
  have helement := separate.isElement element (List.mem_of_getElem? hi)
  obtain ⟨_, _, _, _, _, hn⟩ := exists_of_isElement helement
  have valid : (Mutation.setAttribute name value).validate t.tag.tree element = .ok () :=
    Mutation.validate_setAttribute.2 helement
  have effect : (Mutation.setAttribute name value).Effect t.tag.tree element (t.tag.tree.setAttribute element name value) :=
    Mutation.effect_perform separate.stored valid
  have grounded := effect.rewrites.grounded separate.stored separate.root h.grounded_tag
  rw [← effect.rewrites.root] at grounded
  have old := lt_size_of_get? hn
  rw [grounded.mem_elements, h.grounded_tag.mem_elements, effect.rewrites.isElement old]
  refine and_congr_left fun _ => ⟨fun reached => ?_, effect.reaches_self h.grounded_tag helement⟩
  rw [effect.rewrites.root] at reached
  exact effect.rewrites.reached_before separate.stored separate.root old reached

/-- The code of the edited tree shows the attribute, if its name is one that attributes can have and the element is in the
tree. -/
theorem Tagging.showsAttribute (small : i < 2 ^ 53) (legible : t.tag.tree.Legible .edited .markup element)
    (plain : ∀ x, value ≠ .number x) (edited : u.Legible .unkept .root u.root) (there : element ∈ u.elements)
    (grounded : v.Grounded v.root) (same : (v.shape v.root).erase true = (u.shape u.root).respelled.text.erase true) :
    t.tag.tree.ShowsAttribute u v element name value := by
  subst set
  have separate := h.separate
  have helement := separate.isElement element (List.mem_of_getElem? hi)
  have forms := edited.elements_again grounded same
  refine ⟨by simpa using congrArg List.length forms, there, fun j hj => ?_⟩
  have form := congrArg (·[j]?) forms
  simp only [List.getElem?_map, hj, Option.map_some] at form
  obtain ⟨x, hx, alike⟩ := Option.map_eq_some_iff.1 form
  have hgrounded := grounded.reaches (grounded.mem_elements.1 (List.mem_of_getElem? hx)).1
  obtain ⟨_, inside⟩ := edited.reaches (edited.grounded.mem_elements.1 there).1
  have again (other : String) : v.getAttribute? x other =
      (t.tag.tree.setAttribute element name value).getAttribute? element other :=
    inside.getAttribute?_again hgrounded alike other fun attr y content span found holds bare =>
      h.bare_setAttribute hi legible plain found holds bare ▸ Binary64.rereads_ofNat small
  refine ⟨x, hx, ?_, fun other differs => ?_⟩
  · obtain ⟨_, found, holds⟩ := holdsLiteral_setAttribute separate.stored helement name value
    rw [again, holds.getAttribute? found]
  · rw [again, getAttribute?_setAttribute separate.stored helement value differs]

end

theorem ShowsAttribute.isAttributeName {markup : String} (h : t.ShowsAttribute u v element name value)
    (parsed : parse markup = .ok v) : IsAttributeName name := by
  have legible := parse_legible parsed
  obtain ⟨i, hi⟩ := List.mem_iff_getElem?.1 h.there
  obtain ⟨x, hx, reads, -⟩ := h.reads i hi
  obtain ⟨attr, found, -⟩ := Option.bind_eq_some_iff.1 reads
  obtain ⟨_, inside⟩ := legible.reaches (legible.grounded.mem_elements.1 (List.mem_of_getElem? hx)).1
  exact inside.isAttributeName found

/-- Setting an attribute of an element of a tagged source. If the name is one that attributes can have, the code of the
edited tree is accepted and has its elements, and it shows the attribute just if moreover the element is in the tree. -/
theorem OpaqueFree.code_setAttribute {source : String} {i : Nat} (free : t.OpaqueFree) (parsed : parse source = .ok t)
    (hi : t.elements[i]? = some element) (small : i < 2 ^ 53) (plain : ∀ x, value ≠ .number x)
    (set : t.tag.tree.setAttribute element name value = u) :
    (IsAttributeName name → ∃ v, parse u.code = .ok v ∧ v.elements.length = u.elements.length) ∧
      ((∃ v, parse u.code = .ok v ∧ t.tag.tree.ShowsAttribute u v element name value) ↔
        IsAttributeName name ∧ element ∈ t.tag.tree.elements) := by
  have tagging := parse_tagging parsed
  have separate := tagging.separate
  have helement := separate.isElement element (List.mem_of_getElem? hi)
  obtain ⟨_, _, _, _, _, hn⟩ := exists_of_isElement helement
  obtain ⟨legible, elements⟩ := free.tag_legible parsed
  have root : u.root = t.tag.tree.root := set ▸ (rewrites_setAttribute separate.stored hn name value).1.root
  have edited (named : IsAttributeName name) : u.Legible .unkept .root u.root := by
    rw [root, ← set]
    exact legible.unkept.setAttribute separate.stored helement named (Literal.held_of_plain plain)
  have there := tagging.mem_elements_setAttribute hi set
  refine ⟨fun named => ?_, fun ⟨v, accepted, shows⟩ => ⟨shows.isAttributeName accepted, there.1 shows.there⟩,
    fun ⟨named, before⟩ => ?_⟩
  all_goals
    obtain ⟨v, accepted, same⟩ := (edited named).reparses Manner.rereadsKept_unkept
    refine ⟨v, accepted, ?_⟩
    have grounded := (parse_legible accepted).grounded
  · simpa using congrArg List.length ((edited named).elements_again grounded same)
  · exact tagging.showsAttribute hi set small (elements element (List.mem_of_getElem? hi)) plain (edited named)
      (there.2 before) grounded same

end Tree

/-- A session of a markup without texts that are kept commits what a request to set an attribute makes of the tree. If the
name is one that attributes can have, the committed markup is accepted and has the elements of that tree. It shows the
attribute, and the others as before, just if moreover the element that is picked is in the tree. -/
theorem setAttribute_committed {source marker name committed : String} {value : Literal} {told : List String} {t : Tree}
    {s next : Session} (parsed : parse source = .ok t) (free : t.OpaqueFree) (loaded : Session.load source = .ok s)
    (plain : ∀ x, value ≠ .number x)
    (accepted : (s.pick marker).apply (.setAttribute name value) = ⟨next, .ok (some committed), told⟩) :
    ∃ e, (s.pick marker).pickedNode? = some e ∧
      (IsAttributeName name →
        ∃ v, parse committed = .ok v ∧ v.elements.length = next.tree.elements.length) ∧
      ((∃ v, parse committed = .ok v ∧ s.tree.ShowsAttribute next.tree v e name value) ↔
        IsAttributeName name ∧ e ∈ s.tree.elements) := by
  rw [Session.load, tagMarkup_of_ok parsed] at loaded
  have generation := congrArg Session.generation (Except.ok.inj loaded)
  have applies := (s.pick marker).applies (.setAttribute name value)
  rw [accepted] at applies
  cases applies with
  | @committed e picked =>
    obtain ⟨i, read, hi⟩ := Option.bind_eq_some_iff.1 picked
    have small : i < 2 ^ 53 := Nat.lt_trans (parseMarker?_lt read) (by decide)
    change s.generation.mapping.get? i = some e at hi
    rw [← generation] at hi
    have tree : s.tree = t.tag.tree := congrArg Generation.tree generation.symm
    refine ⟨e, picked, ?_⟩
    rw [tree]
    exact free.code_setAttribute parsed hi small plain (congrArg (Tree.setAttribute · e name value) tree.symm)

/-- Whether a request to set an attribute of the element with a marker is accepted, in a session of a tree without texts
that are kept, and what then is true of the session, the element and the committed markup. -/
def Tree.setsAttribute (t : Tree) (source marker name : String) (value : Literal)
    (test : Session → NodeId → String → Bool) : Bool :=
  let s := (Chronicle.opened source t).session.pick marker
  (t.preorder t.root).all (fun id => !t.isOpaque id) &&
    s.pickedNode?.any fun e => (s.apply (.setAttribute name value)).answer.toOption.any fun answer =>
      answer.any fun committed => test s e committed

theorem exists_setsAttribute {source marker name : String} {value : Literal} {test : Session → NodeId → String → Bool}
    (h : (parse source).toOption.any (fun t => t.setsAttribute source marker name value test) = true) :
    ∃ t s next e committed told, parse source = .ok t ∧ t.OpaqueFree ∧ Session.load source = .ok s ∧
      (s.pick marker).pickedNode? = some e ∧
      (s.pick marker).apply (.setAttribute name value) = ⟨next, .ok (some committed), told⟩ ∧
      test (s.pick marker) e committed = true := by
  obtain ⟨t, parsed, h⟩ := exists_parse h
  obtain ⟨free, h⟩ := Bool.and_eq_true_iff.1 h
  obtain ⟨e, picked, h⟩ := (Option.any_eq_true _ _).1 h
  obtain ⟨answer, answered, h⟩ := (Option.any_eq_true _ _).1 h
  obtain ⟨committed, rfl, h⟩ := (Option.any_eq_true _ _).1 h
  have loaded : Session.load source = .ok (Chronicle.opened source t).session := by
    rw [Session.load, tagMarkup_of_ok parsed]
    rfl
  have plain : t.OpaqueFree := (Tree.opaqueFree_iff (parse_legible parsed).grounded).2 fun id hid => by
    simpa using List.all_eq_true.1 free id hid
  cases reaction : ((Chronicle.opened source t).session.pick marker).apply (.setAttribute name value) with
  | mk next result told =>
    rw [reaction] at answered
    cases result with
    | error => cases answered
    | ok result =>
      obtain rfl := Option.some.inj answered
      exact ⟨t, _, next, e, committed, told, parsed, plain, loaded, picked, reaction, h⟩

/-- An attribute that is there is given a text with quotes and braces, in an element that has others. -/
theorem setAttribute_committed_quoted : ∃ t s next e v committed told,
    parse "<r><a id=<b/> title='old' on>x</a></r>" = .ok t ∧ t.OpaqueFree ∧
      Session.load "<r><a id=<b/> title='old' on>x</a></r>" = .ok s ∧
      (s.pick "1").apply (.setAttribute "title" (.string "\"\x7b' \n")) = ⟨next, .ok (some committed), told⟩ ∧
      (s.pick "1").pickedNode? = some e ∧ parse committed = .ok v ∧
      s.tree.ShowsAttribute next.tree v e "title" (.string "\"\x7b' \n") := by
  have sets : (parse "<r><a id=<b/> title='old' on>x</a></r>").toOption.any (fun t =>
      t.setsAttribute "<r><a id=<b/> title='old' on>x</a></r>" "1" "title" (.string "\"\x7b' \n")
        fun s e _ => decide (e ∈ s.tree.elements)) = true := by decide +kernel
  obtain ⟨t, s, next, e, committed, told, parsed, free, loaded, picked, accepted, there⟩ := exists_setsAttribute sets
  obtain ⟨e', picked', -, shows⟩ := setAttribute_committed parsed free loaded (by rintro _ ⟨⟩) accepted
  obtain rfl := Option.some.inj (picked.symm.trans picked')
  obtain ⟨v, parsed', shows⟩ := shows.2 ⟨.plain ⟨.identifier "title", rfl, rfl⟩, of_decide_eq_true there⟩
  exact ⟨t, s, next, e, v, committed, told, parsed, free, loaded, accepted, picked, parsed', shows⟩

/-- With an empty name a request is accepted, and the committed markup is not. -/
theorem setAttribute_committed_nameless : ∃ t s next committed told, parse "<p />" = .ok t ∧ t.OpaqueFree ∧
    Session.load "<p />" = .ok s ∧
    (s.pick "0").apply (.setAttribute "" (.string "x")) = ⟨next, .ok (some committed), told⟩ ∧
    (parse committed).isOk = false := by
  have sets : (parse "<p />").toOption.any (fun t => t.setsAttribute "<p />" "0" "" (.string "x")
      fun _ _ committed => !(parse committed).isOk) = true := by decide +kernel
  obtain ⟨t, s, next, e, committed, told, parsed, free, loaded, -, accepted, refused⟩ := exists_setsAttribute sets
  exact ⟨t, s, next, committed, told, parsed, free, loaded, accepted, by simpa using refused⟩

end MarkupEditor
