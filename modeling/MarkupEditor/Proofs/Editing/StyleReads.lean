import MarkupEditor.Proofs.Editing.LockstepEdits
import MarkupEditor.Proofs.Editing.StyleWrites

set_option autoImplicit false

namespace MarkupEditor

namespace Tree

variable {t u v : Tree} {element attr container object expression p : NodeId} {properties : List NodeId}
  {styles left : StyleMap} {name value : String}

/-- The kinds of nodes are the same, but for what objects and properties hold. -/
def Styled (t u : Tree) : Prop :=
  ∀ id, id.index < t.size → u.kind? id = t.kind? id ∨
    (∃ properties others, t.kind? id = some (.object properties) ∧ u.kind? id = some (.object others)) ∨
    ∃ key old new, t.kind? id = some (.property key old false) ∧ u.kind? id = some (.property key new false)

theorem Overwrites.styled (h : Overwrites properties styles t u) : t.Styled u := by
  intro id hid
  obtain same | ⟨-, before, -, -, -, after, -⟩ := h.node id hid
  · exact .inl (by rw [kind?, kind?, same])
  · exact .inr (.inr ⟨_, _, _, kind?_of_get? before, kind?_of_get? after⟩)

theorem styled_setObject {span : Option Span} (hobject : t.get? object = some ⟨.object properties, span⟩)
    (others : List NodeId) : t.Styled (t.setKind object (.object others)) := by
  intro id _
  by_cases same : object = id
  · subst same
    exact .inr (.inl ⟨_, _, kind?_of_get? hobject, kind?_of_get? (get?_setKind_of_get? hobject _)⟩)
  · exact .inl (by rw [kind?, get?_setKind_ne same, kind?])

namespace Styled

variable (h : t.Styled u)

include h

theorem attributesOf (helement : t.isElement element = true) : u.attributesOf element = t.attributesOf element := by
  obtain ⟨span, name, as, xs, closed, hn⟩ := exists_of_isElement helement
  have hk := kind?_of_get? hn
  obtain same | ⟨_, _, object, -⟩ | ⟨_, _, _, property, -⟩ := h element (lt_size_of_get? hn)
  · rw [Tree.attributesOf, Tree.attributesOf, same]
  · cases hk.symm.trans object
  · cases hk.symm.trans property

theorem isNamed {id : NodeId} (hid : id.index < t.size) (name : String) : u.isNamed name id = t.isNamed name id := by
  obtain same | ⟨_, _, before, after⟩ | ⟨_, _, _, before, after⟩ := h id hid
  · rw [Tree.isNamed, Tree.isNamed, same]
  all_goals rw [Tree.isNamed, Tree.isNamed, before, after]

theorem attributeValue? {id : NodeId} (hid : id.index < t.size) : u.attributeValue? id = t.attributeValue? id := by
  obtain same | ⟨_, _, before, after⟩ | ⟨_, _, _, before, after⟩ := h id hid
  · rw [Tree.attributeValue?, Tree.attributeValue?, same]
  all_goals rw [Tree.attributeValue?, Tree.attributeValue?, before, after]

theorem contained? {id : NodeId} (hid : id.index < t.size) : u.contained? id = t.contained? id := by
  obtain same | ⟨_, _, before, after⟩ | ⟨_, _, _, before, after⟩ := h id hid
  · rw [Tree.contained?, Tree.contained?, same]
  all_goals rw [Tree.contained?, Tree.contained?, before, after]

theorem isObject {id : NodeId} (hid : id.index < t.size) : u.isObject id = t.isObject id := by
  obtain same | ⟨_, _, before, after⟩ | ⟨_, _, _, before, after⟩ := h id hid
  · rw [Tree.isObject, Tree.isObject, same]
  all_goals rw [Tree.isObject, Tree.isObject, before, after]

end Styled

theorem findAttribute?_congr (helement : t.isElement element = true)
    (attributes : u.attributesOf element = t.attributesOf element) (stored : t.Stored)
    (named : ∀ id, id.index < t.size → u.isNamed name id = t.isNamed name id) :
    u.findAttribute? element name = t.findAttribute? element name := by
  obtain ⟨span, tag, as, xs, closed, hn⟩ := exists_of_isElement helement
  rw [findAttribute?, findAttribute?, attributes, attributesOf_eq hn]
  exact List.find?_congr fun a ha => named a (stored hn a (List.mem_append_left _ ha))

theorem styleObject?_eq_some : t.styleObject? element = some object ↔ ∃ attr container,
    t.findAttribute? element styleAttribute = some attr ∧ t.attributeValue? attr = some container ∧
      t.contained? container = some object ∧ t.isObject object = true := by
  simp only [styleObject?, Option.bind_eq_some_iff, Option.filter_eq_some_iff]
  constructor
  · rintro ⟨attr, found, container, holds, contained, isObject⟩
    exact ⟨attr, container, found, holds, contained, isObject⟩
  · rintro ⟨attr, container, found, holds, contained, isObject⟩
    exact ⟨attr, found, container, holds, contained, isObject⟩

theorem isElement_of_styleObject? (h : t.styleObject? element = some object) : t.isElement element = true := by
  obtain ⟨attr, container, found, -⟩ := styleObject?_eq_some.1 h
  exact isElement_of_findAttribute? found

theorem Styled.styleObject? (h : t.Styled u) (stored : t.Stored) (found : t.styleObject? element = some object) :
    u.styleObject? element = some object := by
  have helement := isElement_of_styleObject? found
  obtain ⟨attr, container, found, holds, contained, isObject⟩ := styleObject?_eq_some.1 found
  obtain ⟨-, old, span, hattr⟩ := exists_of_findAttribute? found
  obtain ⟨_, hcontainer⟩ := exists_of_contained? contained
  obtain ⟨_, _, hobject⟩ := exists_of_isObject isObject
  refine styleObject?_eq_some.2 ⟨attr, container, ?_, ?_, ?_, ?_⟩
  · rwa [findAttribute?_congr helement (h.attributesOf helement) stored fun id hid => h.isNamed hid _]
  · rwa [h.attributeValue? (lt_size_of_get? hattr)]
  · rwa [h.contained? (lt_size_of_get? hcontainer)]
  · rwa [h.isObject (lt_size_of_get? hobject)]

section

variable {span : Option Span} {as xs : List NodeId} {closed : Bool} {tag : String}

theorem isNamed_of_get? (same : u.get? p = t.get? p) (name : String) : u.isNamed name p = t.isNamed name p := by
  rw [isNamed, isNamed, kind?, kind?, same]

/-- An attribute is found as before, if no node but one was touched and that one is named as it was. -/
theorem findAttribute?_of_kept (stored : t.Stored) (h : t.get? element = some (elementNode span tag as xs closed))
    (kept : ∀ id : NodeId, id.index < t.size → p ≠ id → u.get? id = t.get? id) (apart : p ≠ element)
    (here : u.isNamed name p = t.isNamed name p) : u.findAttribute? element name = t.findAttribute? element name := by
  have helement : t.isElement element = true := by
    rw [isElement, kind?_of_get? h]
    rfl
  have attributes : u.attributesOf element = t.attributesOf element := by
    rw [attributesOf, attributesOf, kind?, kind?, kept element (lt_size_of_get? h) apart]
  refine findAttribute?_congr helement attributes stored fun id hid => ?_
  by_cases same : p = id
  · rw [← same, here]
  · exact isNamed_of_get? (kept id hid same) name

theorem HasStyle.isObject (h : t.HasStyle object container) : t.isObject object = true := by
  rw [Tree.isObject, kind?_of_get? h.inner]

theorem HasStyle.contained? (h : t.HasStyle object container) : t.contained? container = some object := by
  rw [Tree.contained?, kind?_of_get? h.outer]

theorem findAttribute?_addAttribute (stored : t.Stored) (h : t.get? element = some (elementNode span tag as xs closed))
    (missing : t.findAttribute? element name = none) (value : NodeId) :
    (t.addAttribute element name value).findAttribute? element name = some ⟨t.size⟩ ∧
      (t.addAttribute element name value).get? ⟨t.size⟩ = some ⟨.namedAttribute name (some value), none⟩ := by
  let attr : NodeId := ⟨t.size⟩
  let t₁ := (t.alloc (.namedAttribute name (some value))).2
  let u := t₁.setKind element (.element tag (as ++ [attr]) xs closed)
  have h₁ : t₁.get? element = some (elementNode span tag as xs closed) := by
    rw [get?_alloc_old (lt_size_of_get? h), h]
  have hattr : u.get? attr = some ⟨.namedAttribute name (some value), none⟩ :=
    (get?_setKind_ne (ne_of_index_ne (Nat.ne_of_lt (lt_size_of_get? h)))).trans (get?_alloc_new t _)
  have named : u.isNamed name attr = true := by
    rw [isNamed, kind?_of_get? hattr]
    exact beq_self_eq_true _
  have others : ∀ a ∈ as, u.isNamed name a = false := by
    intro a ha
    rw [findAttribute?, attributesOf_eq h, List.find?_eq_none] at missing
    have old : a.index < t.size := stored h a (List.mem_append_left _ ha)
    by_cases same : element = a
    · rw [← same, isNamed, kind?_of_get? (get?_setKind_of_get? h₁ _)]
    · rw [isNamed_of_get? (t := t), Bool.eq_false_iff.2 (missing a ha)]
      rw [get?_setKind_ne same, get?_alloc_old old]
  have attributes : u.attributesOf element = as ++ [attr] := by
    rw [attributesOf, kind?_of_get? (get?_setKind_of_get? h₁ _)]
  rw [addAttribute_eq h]
  refine ⟨?_, hattr⟩
  change u.findAttribute? element name = some attr
  rw [findAttribute?, attributes, List.find?_append, List.find?_eq_none.2 fun a ha => Bool.eq_false_iff.1 (others a ha),
    Option.none_or, List.find?_singleton, if_pos named]

theorem styleObject?_add (stored : t.Stored) (h : t.get? element = some (elementNode span tag as xs closed))
    (missing : t.findAttribute? element styleAttribute = none) :
    ((t.allocStyle []).2.2.addAttribute element styleAttribute (t.allocStyle []).2.1).styleObject? element =
      some (t.allocStyle []).1 := by
  let container := (t.allocStyle []).2.1
  let t₁ := (t.allocStyle []).2.2
  have h₁ : t₁.get? element = some (elementNode span tag as xs closed) := by
    rw [get?_allocStyle (lt_size_of_get? h), h]
  have h₂ : (t₁.alloc (.namedAttribute styleAttribute (some container))).2.get? element =
      some (elementNode span tag as xs closed) := by
    rw [get?_alloc_old (lt_size_of_get? h₁), h₁]
  have style : (t₁.addAttribute element styleAttribute container).HasStyle (t.allocStyle []).1 container := by
    rw [addAttribute_eq h₁]
    exact ((hasStyle_alloc t).alloc _).setKind h₂ nofun nofun _
  have stored₁ : (t.alloc (.object [])).2.Stored := stored.alloc fun c hc => absurd hc List.not_mem_nil
  have stored₂ : t₁.Stored := stored₁.alloc fun c hc => by
    obtain rfl := List.mem_singleton.1 hc
    rw [size_alloc]
    exact Nat.lt_succ_self _
  have missing₁ : t₁.findAttribute? element styleAttribute = none := by
    have h' : (t.alloc (.object [])).2.get? element = some (elementNode span tag as xs closed) := by
      rw [get?_alloc_old (lt_size_of_get? h), h]
    exact (findAttribute?_alloc stored₁ h' _ _).trans ((findAttribute?_alloc stored h _ _).trans missing)
  obtain ⟨found, hattr⟩ := findAttribute?_addAttribute stored₂ h₁ missing₁ container
  refine styleObject?_eq_some.2 ⟨_, container, found, ?_, style.contained?, style.isObject⟩
  rw [attributeValue?, kind?_of_get? hattr]

theorem styleObject?_replace {old : Option NodeId} (stored : t.Stored)
    (h : t.get? element = some (elementNode span tag as xs closed))
    {outer : Option Span} (hattr : t.get? attr = some ⟨.namedAttribute styleAttribute old, outer⟩)
    (found : t.findAttribute? element styleAttribute = some attr) :
    ((t.allocStyle []).2.2.setValue attr (t.allocStyle []).2.1).styleObject? element = some (t.allocStyle []).1 := by
  let container := (t.allocStyle []).2.1
  let t₁ := (t.allocStyle []).2.2
  let u := t₁.setKind attr (.namedAttribute styleAttribute (some container))
  have hattr₁ : t₁.get? attr = some ⟨.namedAttribute styleAttribute old, outer⟩ := by
    rw [get?_allocStyle (lt_size_of_get? hattr), hattr]
  have style : u.HasStyle (t.allocStyle []).1 container := (hasStyle_alloc t).setKind hattr₁ nofun nofun _
  have hattr' : u.get? attr = some ⟨.namedAttribute styleAttribute (some container), outer⟩ := get?_setKind_of_get? hattr₁ _
  have kept (id : NodeId) (old : id.index < t.size) (apart : attr ≠ id) : u.get? id = t.get? id := by
    rw [get?_setKind_ne apart, get?_allocStyle old]
  have here : u.isNamed styleAttribute attr = t.isNamed styleAttribute attr := by
    rw [isNamed, isNamed, kind?_of_get? hattr, kind?_of_get? hattr']
  rw [setValue_eq hattr₁]
  refine styleObject?_eq_some.2 ⟨attr, container, ?_, ?_, style.contained?, style.isObject⟩
  · change u.findAttribute? element styleAttribute = some attr
    rw [findAttribute?_of_kept stored h kept (ne_element hattr h rfl) here, found]
  · change u.attributeValue? attr = some container
    rw [attributeValue?, kind?_of_get? hattr']

theorem styleObject?_spread (stored : t.Stored) (h : t.get? element = some (elementNode span tag as xs closed))
    {outer : Option Span} (hcontainer : t.get? container = some ⟨.expressionContainer (some expression), outer⟩)
    (found : t.findAttribute? element styleAttribute = some attr) (holds : t.attributeValue? attr = some container) :
    (t.spreadStyle container expression).2.styleObject? element = some (t.spreadStyle container expression).1 := by
  obtain ⟨hcontainer', hobject, -, kept⟩ := spreadStyle_spec hcontainer
  have here : (t.spreadStyle container expression).2.isNamed styleAttribute container =
      t.isNamed styleAttribute container := by
    rw [isNamed, isNamed, kind?_of_get? hcontainer, kind?_of_get? hcontainer']
  obtain ⟨-, value, _, hattr⟩ := exists_of_findAttribute? found
  refine styleObject?_eq_some.2 ⟨attr, container, ?_, ?_, ?_, ?_⟩
  · rw [findAttribute?_of_kept stored h kept (ne_element hcontainer h rfl) here, found]
  · have plain : container ≠ attr := by
      rintro rfl
      cases hcontainer.symm.trans hattr
    rw [← holds, attributeValue?, attributeValue?, kind?, kind?, kept attr (lt_size_of_get? hattr) plain]
  · rw [contained?, kind?_of_get? hcontainer']
  · rw [isObject, kind?_of_get? hobject]

theorem styleObject?_ensureStyle (stored : t.Stored) (helement : t.isElement element = true) :
    ∃ object u, t.ensureStyle element = some (object, u) ∧ u.styleObject? element = some object := by
  obtain ⟨span, tag, as, xs, closed, h⟩ := exists_of_isElement helement
  obtain ⟨object, u, ensure, way⟩ := ensuresStyle helement
  refine ⟨object, u, ensure, ?_⟩
  cases way with
  | there found => exact found
  | added missing => exact styleObject?_add stored h missing
  | replaced found hattr => exact styleObject?_replace stored h hattr found
  | spread found holds hcontainer => exact styleObject?_spread stored h hcontainer found holds

end

theorem styleObject?_writeStyle (stored : u.Stored) (ensure : t.ensureStyle element = some (object, u))
    (found : u.styleObject? element = some object) (styles : StyleMap) :
    (t.writeStyle element styles).styleObject? element = some object := by
  obtain ⟨properties, span, hobject⟩ := exists_of_styleObject? found
  have written := overwrites_writeProperties u styles properties stored
  let v := (u.writeProperties styles properties).2.2
  let left := (u.writeProperties styles properties).2.1
  obtain ⟨allocated, -, -⟩ := declares_allocDeclarations v left
  have hobject' : (v.allocDeclarations left).2.get? object = some ⟨.object properties, span⟩ :=
    get?_allocDeclarations_object (get?_writeProperties_object hobject styles properties) left
  have stored' : v.Stored := written.stored stored
  have afterWriting := written.styled.styleObject? stored found
  have afterAdding := allocated.styled.styleObject? stored' afterWriting
  rw [writeStyle_eq ensure hobject]
  exact (styled_setObject hobject' _).styleObject? (allocated.stored stored') afterAdding

theorem lt_size_of_mem_writeProperties (stored : t.Stored) (inside : ∀ p ∈ properties, p.index < t.size)
    (hp : p ∈ (t.writeProperties styles properties).1) : p.index < (t.writeProperties styles properties).2.2.size := by
  obtain hmem | ⟨_, _, _, _, hn, -⟩ := (Writes.writeProperties t styles properties).2 p hp
  · exact Nat.lt_of_lt_of_le (inside p hmem) (overwrites_writeProperties t styles properties stored).size
  · exact lt_size_of_get? hn

theorem readStyle_writeStyle (stored : t.Stored) (helement : t.isElement element = true) (distinct : styles.Distinct) :
    ((t.writeStyle element styles).readStyle element).Perm styles := by
  obtain ⟨object, u, ensure, found⟩ := styleObject?_ensureStyle stored helement
  have stored' : u.Stored := by
    obtain ⟨_, _, _, _, _, h⟩ := exists_of_isElement helement
    exact stored.ensureStyle (lt_size_of_get? h) ensure
  obtain ⟨properties, span, hobject⟩ := exists_of_styleObject? found
  have inside : ∀ p ∈ properties, p.index < u.size := stored' hobject
  let v := (u.writeProperties styles properties).2.2
  let left := (u.writeProperties styles properties).2.1
  let kept := (u.writeProperties styles properties).1
  let w := (v.allocDeclarations left).2
  let added := (v.allocDeclarations left).1
  have written : Overwrites properties styles u v := overwrites_writeProperties u styles properties stored'
  obtain ⟨allocated, fresh, declares⟩ := declares_allocDeclarations v left
  have hobject' : w.get? object = some ⟨.object properties, span⟩ :=
    get?_allocDeclarations_object (get?_writeProperties_object hobject styles properties) left
  have old : ∀ q ∈ kept, w.declaration? q = v.declaration? q := by
    intro q hq
    have low := lt_size_of_mem_writeProperties stored' inside hq
    refine allocated.declaration?_of_same (written.stored stored') ((allocated.node q low).resolve_right fun ⟨hmem, _⟩ => ?_)
    exact absurd hmem List.not_mem_nil
  have perm : ((kept ++ added).filterMap w.declaration?).Perm styles := by
    rw [List.filterMap_append, filterMap_declaration? declares, List.filterMap_congr old]
    exact perm_writeProperties u styles properties stored' inside distinct
  rw [readStyle, styleObject?_writeStyle stored' ensure found, writeStyle_eq ensure hobject]
  dsimp only
  rw [propertiesOf_setObject hobject', declaration?_setObject hobject', StyleMap.ofList_of_distinct]
  · exact perm
  · exact (perm.map Prod.fst).nodup_iff.2 distinct

theorem distinct_readStyle (t : Tree) (element : NodeId) : (t.readStyle element).Distinct := by
  unfold readStyle
  split
  · exact StyleMap.distinct_ofList _
  · exact List.nodup_nil

theorem get?_styled (t : Tree) (element : NodeId) (name : String) (value : Option String) :
    (t.styled element name value).get? name = value.filter (· ≠ "") ∧
      ∀ other, other ≠ name → (t.styled element name value).get? other = t.getStyle? element other := by
  unfold styled
  cases value.filter (· ≠ "") with
  | some value => exact ⟨StyleMap.get?_insert_self _ _ _, fun other h => StyleMap.get?_insert_ne h⟩
  | none => exact ⟨StyleMap.get?_erase_self _ _, fun other h => StyleMap.get?_erase_ne h⟩

theorem distinct_styled (t : Tree) (element : NodeId) (name : String) (value : Option String) :
    (t.styled element name value).Distinct := by
  unfold styled
  cases value.filter (· ≠ "") with
  | some value => exact (distinct_readStyle t element).insert name value
  | none => exact (distinct_readStyle t element).erase name

/-- Writes to the style of an element are read back. A map that is written is the map that is read. A style
that is set has its value, or is gone if there is no value or an empty one, and every other style is what it
was. -/
theorem styles_read_back (stored : t.Stored) (helement : t.isElement element = true) :
    (∀ styles : StyleMap, styles.Distinct → ((t.writeStyle element styles).readStyle element).Perm styles) ∧
      ∀ name value, (t.setStyle element name value).getStyle? element name = value.filter (· ≠ "") ∧
        ∀ other, other ≠ name →
          (t.setStyle element name value).getStyle? element other = t.getStyle? element other := by
  refine ⟨fun styles distinct => readStyle_writeStyle stored helement distinct, fun name value => ?_⟩
  have distinct := distinct_styled t element name value
  have perm := readStyle_writeStyle stored helement distinct
  obtain ⟨set, others⟩ := get?_styled t element name value
  rw [setStyle_eq helement]
  refine ⟨?_, fun other h => ?_⟩
  · rw [getStyle?, StyleMap.get?_of_perm distinct perm, set]
  · rw [getStyle?, StyleMap.get?_of_perm distinct perm, others other h]

/-- The style has a name twice, a spread, a computed name and a value that is no literal. -/
theorem styles_read_back_mixed : ∃ (t : Tree) (element : NodeId),
    parse "<p style=\x7b\x7b color: 'red', ...base, 'color': 'blue', [k]: 1, margin: m \x7d\x7d />" = .ok t ∧
      t.Stored ∧ t.isElement element = true ∧ StyleMap.Distinct [("margin", "0"), ("color", "green")] ∧
      ((t.writeStyle element [("margin", "0"), ("color", "green")]).readStyle element).Perm
        [("margin", "0"), ("color", "green")] ∧
      (t.setStyle element "margin" (some "0")).getStyle? element "color" = t.getStyle? element "color" := by
  have told : (parse "<p style=\x7b\x7b color: 'red', ...base, 'color': 'blue', [k]: 1, margin: m \x7d\x7d />").toOption.any
      (fun t => t.elements.any t.isElement) = true := by decide +kernel
  obtain ⟨t, parsed, told⟩ := exists_parse told
  obtain ⟨element, -, helement⟩ := List.any_eq_true.1 told
  have stored := (parseWith_reads parsed).1.stored
  have distinct : StyleMap.Distinct [("margin", "0"), ("color", "green")] := by
    unfold StyleMap.Distinct
    decide
  obtain ⟨written, set⟩ := styles_read_back stored helement
  exact ⟨t, element, parsed, stored, helement, distinct, written _ distinct,
    (set "margin" (some "0")).2 "color" (by decide)⟩

end Tree

end MarkupEditor
