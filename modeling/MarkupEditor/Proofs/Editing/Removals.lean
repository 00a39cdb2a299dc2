import MarkupEditor.Proofs.Editing.Rewriting

set_option autoImplicit false

namespace MarkupEditor

/-- What a request for a style writes: the declarations of the element with the one that is asked for. -/
def Tree.styled (t : Tree) (element : NodeId) (name : String) (value : Option String) : StyleMap :=
  match value.filter (· ≠ "") with
  | some value => (t.readStyle element).insert name value
  | none => (t.readStyle element).erase name

/-- The nodes that a request for an element takes out, apart from texts and understood declarations. -/
inductive Mutation.Removes (t : Tree) (element : NodeId) : Mutation → NodeId → Prop where
  | value {name : String} {literal : Literal} {attr c : NodeId}
    (found : t.findAttribute? element name = some attr) (holds : t.attributeValue? attr = some c) :
    Removes t element (.setAttribute name literal) c
  | style {name : String} {value : Option String} {attr c : NodeId}
    (found : t.findAttribute? element styleAttribute = some attr) (holds : t.attributeValue? attr = some c)
    (plain : t.contained? c = none) : Removes t element (.setStyle name value) c
  | property {name : String} {value : Option String} {object p : NodeId}
    (found : t.styleObject? element = some object) (among : p ∈ t.propertiesOf object)
    (named : t.NamedIn (t.styled element name value) p) : Removes t element (.setStyle name value) p

def Mutation.attribute? : Mutation → Option String
  | .setText _ => none
  | .setStyle .. => some styleAttribute
  | .setAttribute name _ => some name

/-- The nodes that a request writes, apart from those that hold a style. -/
def Mutation.Writes (m : Mutation) (t : Tree) (element x : NodeId) : Prop :=
  x = element ∨ ∃ name, m.attribute? = some name ∧ t.findAttribute? element name = some x

namespace Tree

variable {t u : Tree} {element attr value x c : NodeId} {name : String} {span : Option Span}
  {as xs : List NodeId} {closed : Bool} {spot : NodeId → Prop} {out : NodeId → NodeId → Prop}

theorem setStyle_eq (helement : t.isElement element = true) (name : String) (value : Option String) :
    t.setStyle element name value = t.writeStyle element (t.styled element name value) := by
  rw [setStyle, if_pos helement, styled]
  cases value.filter (· ≠ "") <;> rfl

theorem findAttribute?_alloc (stored : t.Stored) (h : t.get? element = some (elementNode span name as xs closed))
    (kind : NodeKind NodeId) (other : String) :
    (t.alloc kind).2.findAttribute? element other = t.findAttribute? element other := by
  have h' : (t.alloc kind).2.get? element = some (elementNode span name as xs closed) := by
    rw [get?_alloc_old (lt_size_of_get? h), h]
  rw [findAttribute?, findAttribute?, attributesOf_eq h, attributesOf_eq h']
  refine List.find?_congr fun a ha => ?_
  rw [isNamed, isNamed, kind?, kind?, get?_alloc_old (stored h a (List.mem_append_left _ ha))]

/-- The two ways of setting an attribute: the one that there is gets the literal, or a new one is added with it. -/
theorem setAttribute_cases (stored : t.Stored) (h : t.get? element = some (elementNode span name as xs closed))
    (other : String) (literal : Literal) :
    (∃ attr old outer, t.findAttribute? element other = some attr ∧
        t.get? attr = some ⟨.namedAttribute other old, outer⟩ ∧
        t.setAttribute element other literal = (t.alloc (.literal literal none)).2.setValue attr ⟨t.size⟩) ∨
      t.findAttribute? element other = none ∧
        t.setAttribute element other literal = (t.alloc (.literal literal none)).2.addAttribute element other ⟨t.size⟩ := by
  have helement : t.isElement element = true := by
    rw [isElement, kind?_of_get? h]
    rfl
  rw [setAttribute, if_pos helement]
  dsimp only
  rw [findAttribute?_alloc stored h]
  cases found : t.findAttribute? element other with
  | none => exact .inr ⟨rfl, rfl⟩
  | some attr =>
    obtain ⟨-, old, outer, hattr⟩ := exists_of_findAttribute? found
    exact .inl ⟨attr, old, outer, rfl, hattr, rfl⟩

theorem lt_size_of_isNamed (h : t.isNamed name x = true) : x.index < t.size := by
  unfold isNamed at h
  split at h
  · rename_i hk
    obtain ⟨node, hn, -⟩ := Option.map_eq_some_iff.1 hk
    exact lt_size_of_get? hn
  · cases h

theorem ne_element {node : Node} (hx : t.get? x = some node)
    (h : t.get? element = some (elementNode span name as xs closed)) (plain : node.kind.isElement = false) :
    x ≠ element := by
  rintro rfl
  rw [hx] at h
  rw [Option.some.inj h] at plain
  cases plain

namespace Rewrites

theorem setValue {old : Option NodeId} (h : Rewrites spot out t u) (hx : attr.index < t.size)
    (hattr : u.get? attr = some ⟨.namedAttribute name old, span⟩) (sprouts : ∀ kept, Sprouts t u kept value)
    (place : spot attr) (outs : ∀ c ∈ old, out attr c) : Rewrites spot out t (u.setValue attr value) := by
  rw [Tree.setValue, kind?_of_get? hattr]
  refine h.write hx hattr _ rfl (fun c _ hc => .inr (outs c ?_)) (fun c hc => .inr ?_) (.inl place)
  · rw [childIds_of_get? hattr] at hc
    exact Option.mem_toList.1 hc
  · obtain rfl := List.mem_singleton.1 hc
    exact sprouts _

theorem addAttribute {tag : String} (h : Rewrites spot out t u) (hx : element.index < t.size)
    (hn : u.get? element = some (elementNode span tag as xs closed)) (sprouts : ∀ kept, Sprouts t u kept value)
    (place : spot element) (name : String) : Rewrites spot out t (u.addAttribute element name value) := by
  have hn' : (u.alloc (.namedAttribute name (some value))).2.get? element = some (elementNode span tag as xs closed) := by
    rw [get?_alloc_old (lt_size_of_get? hn), hn]
  rw [addAttribute_eq hn]
  refine (h.alloc _).write hx hn' _ rfl (fun c _ hc => .inl ?_) (fun c hc => ?_) (.inl place)
  · rw [childIds_of_get? hn'] at hc
    rcases List.mem_append.1 hc with hc | hc
    · exact List.mem_append_left _ (List.mem_append_left _ hc)
    · exact List.mem_append_right _ hc
  · rw [childIds_of_get? hn']
    rcases List.mem_append.1 hc with hc | hc
    · rcases List.mem_append.1 hc with hc | hc
      · exact .inl (List.mem_append_left _ hc)
      · obtain rfl := List.mem_singleton.1 hc
        refine .inr (sprouts_alloc h.size fun c hc _ => ?_)
        obtain rfl := List.mem_singleton.1 hc
        exact sprouts _
    · exact .inl (List.mem_append_right _ hc)

end Rewrites

theorem barren_of_isText (h : t.isText c = true) : t.Barren c := by
  rw [isText] at h
  cases hk : t.kind? c with
  | none => simp [hk] at h
  | some kind =>
    rw [hk] at h
    cases kind with
    | text =>
      refine barren_of_isElement (by rw [isElement, hk]; rfl) fun d hd => ?_
      rw [childIds, hk] at hd
      cases hd
    | _ => cases h

theorem rewrites_setText (editable : t.canEditText x = true) (text : String) :
    Rewrites (· = x) (fun _ c => t.Barren c) t (t.setText x text) := by
  unfold canEditText at editable
  unfold setText
  cases hk : t.kind? x with
  | none => exact .refl t
  | some kind =>
    obtain ⟨⟨kind, span⟩, hn, rfl⟩ := Option.map_eq_some_iff.1 hk
    rw [hk] at editable
    cases kind with
    | text old raw =>
      refine (Rewrites.refl t).write (lt_size_of_get? hn) hn _ rfl (fun c hc _ => ?_) nofun (.inl rfl)
      rw [childIds_of_get? hn] at hc
      cases hc
    | element name as xs closed =>
      have hn' : (t.alloc (.text text none)).2.get? x = some (elementNode span name as xs closed) := by
        rw [get?_alloc_old (lt_size_of_get? hn), hn]
      refine ((Rewrites.refl t).alloc _).write (lt_size_of_get? hn) hn' _ rfl (fun c _ hc => ?_)
        (fun c hc => ?_) (.inl rfl)
      · rw [childIds_of_get? hn'] at hc
        rcases List.mem_append.1 hc with hc | hc
        · exact .inl (List.mem_append_left _ hc)
        · exact .inr (barren_of_isText (List.all_eq_true.1 editable c hc))
      · rw [childIds_of_get? hn']
        rcases List.mem_append.1 hc with hc | hc
        · exact .inl (List.mem_append_left _ hc)
        · obtain rfl := List.mem_singleton.1 hc
          exact .inr (sprouts_leaf (Nat.le_refl _) rfl)
    | _ => cases editable

theorem attributesOf_setText (t : Tree) (x : NodeId) (text : String) :
    (t.setText x text).attributesOf x = t.attributesOf x := by
  unfold setText
  cases hk : t.kind? x with
  | none => rfl
  | some kind =>
    obtain ⟨⟨kind, span⟩, hn, rfl⟩ := Option.map_eq_some_iff.1 hk
    cases kind with
    | text old raw =>
      rw [attributesOf, attributesOf, hk, kind?_of_get? (get?_setKind_of_get? hn _)]
    | element name as xs closed =>
      have hn' : (t.alloc (.text text none)).2.get? x = some (elementNode span name as xs closed) := by
        rw [get?_alloc_old (lt_size_of_get? hn), hn]
      rw [attributesOf, attributesOf, hk, kind?_of_get? (get?_setKind_of_get? hn' _)]
    | _ => rfl

/-- An element keeps its attributes. One that is added comes after them and has a name that is new to the
element. -/
def AddsAttribute (t u : Tree) (element : NodeId) (name : String) : Prop :=
  ∃ added, u.attributesOf element = t.attributesOf element ++ added ∧
    ∀ a ∈ added, t.findAttribute? element name = none ∧ u.isNamed name a = true

theorem AddsAttribute.same (h : u.get? element = t.get? element) : t.AddsAttribute u element name :=
  ⟨[], by rw [attributesOf, attributesOf, kind?, kind?, h, List.append_nil], nofun⟩

theorem addsAttribute {other : String} (h : t.get? element = some (elementNode span name as xs closed))
    (h' : u.get? element = some (elementNode span name as xs closed))
    (missing : t.findAttribute? element other = none) (value : NodeId) :
    t.AddsAttribute (u.addAttribute element other value) element other := by
  have old := lt_size_of_get? h'
  have h'' : (u.alloc (.namedAttribute other (some value))).2.get? element = some (elementNode span name as xs closed) := by
    rw [get?_alloc_old old, h']
  have apart : element ≠ ⟨u.size⟩ := fun same => Nat.ne_of_lt old (congrArg NodeId.index same)
  rw [addAttribute_eq h']
  refine ⟨[⟨u.size⟩], ?_, fun a ha => ⟨missing, ?_⟩⟩
  · rw [attributesOf_eq h, attributesOf, kind?_of_get? (get?_setKind_of_get? h'' _)]
    rfl
  · obtain rfl := List.mem_singleton.1 ha
    have new : (u.alloc (.namedAttribute other (some value))).2.get? ⟨u.size⟩ =
      some ⟨.namedAttribute other (some value), none⟩ := get?_alloc_new u _
    rw [isNamed, kind?, get?_setKind_ne apart, new]
    exact beq_self_eq_true _

theorem rewrites_setAttribute (stored : t.Stored) (h : t.get? element = some (elementNode span name as xs closed))
    (other : String) (literal : Literal) :
    Rewrites (fun x => x = element ∨ t.findAttribute? element other = some x)
      (fun _ c => Mutation.Removes t element (.setAttribute other literal) c) t
      (t.setAttribute element other literal) ∧
    t.AddsAttribute (t.setAttribute element other literal) element other := by
  have sprouts : ∀ kept, Sprouts t (t.alloc (.literal literal none)).2 kept (t.alloc (.literal literal none)).1 :=
    fun _ => sprouts_leaf (Nat.le_refl _) rfl
  have h' : (t.alloc (.literal literal none)).2.get? element = some (elementNode span name as xs closed) := by
    rw [get?_alloc_old (lt_size_of_get? h), h]
  rcases setAttribute_cases stored h other literal with ⟨attr, old, outer, found, hattr, set⟩ | ⟨missing, set⟩ <;> rw [set]
  · have hattr' : (t.alloc (.literal literal none)).2.get? attr = some ⟨.namedAttribute other old, outer⟩ := by
      rw [get?_alloc_old (lt_size_of_get? hattr), hattr]
    refine ⟨((Rewrites.refl t).alloc _).setValue (lt_size_of_get? hattr) hattr' sprouts (.inr found) fun c hc => ?_,
      .same ?_⟩
    · exact .value found (by rw [attributeValue?, kind?_of_get? hattr]; exact hc)
    · rw [setValue_eq hattr', get?_setKind_ne (ne_element hattr h rfl), h', h]
  · exact ⟨((Rewrites.refl t).alloc _).addAttribute (lt_size_of_get? h) h' sprouts (.inl rfl) other,
      addsAttribute h h' missing _⟩

theorem allocStyle_advances (h : Rewrites spot out t u) : Advances spot out t u (u.allocStyle []).2.2 ∧
    (∀ kept, Sprouts t (u.allocStyle []).2.2 kept (u.allocStyle []).2.1) := by
  have object := Advances.alloc h (.object [])
  refine ⟨object.trans (.alloc object.rewrites _), fun kept => sprouts_alloc object.rewrites.size fun c hc _ => ?_⟩
  obtain rfl := List.mem_singleton.1 hc
  exact sprouts_leaf h.size rfl

/-- What making sure of a style object comes to. It was there, or it is new: then writing a map leaves what it
holds. -/
inductive Ensured (t : Tree) (element : NodeId) : NodeId → Tree → Prop where
  | there {object : NodeId} (found : t.styleObject? element = some object) : Ensured t element object t
  | new {object : NodeId} {u : Tree} (properties : List NodeId) (span : Option Span)
    (stored : u.get? object = some ⟨.object properties, span⟩)
    (rewrites : Rewrites (fun x => x = element ∨ t.findAttribute? element styleAttribute = some x)
      (fun x c => (∃ attr, t.findAttribute? element styleAttribute = some attr ∧
          t.attributeValue? attr = some c ∧ t.contained? c = none) ∨
        object ∈ u.childIds x ∧ ∃ p ∈ properties, c ∈ u.childIds p) t u)
    (writes : ∀ styles, u.writeProperties styles properties = (properties, styles, u))
    (adds : t.AddsAttribute u element styleAttribute) : Ensured t element object u

theorem ensured_add (h : t.get? element = some (elementNode span name as xs closed))
    (missing : t.findAttribute? element styleAttribute = none) : Ensured t element (t.allocStyle []).1
      ((t.allocStyle []).2.2.addAttribute element styleAttribute (t.allocStyle []).2.1) := by
  have h' : (t.allocStyle []).2.2.get? element = some (elementNode span name as xs closed) := by
    rw [get?_allocStyle (lt_size_of_get? h), h]
  have h'' : ((t.allocStyle []).2.2.alloc (.namedAttribute styleAttribute (some (t.allocStyle []).2.1))).2.get? element =
      some (elementNode span name as xs closed) := by
    rw [get?_alloc_old (lt_size_of_get? h'), h']
  obtain ⟨style, sprouts⟩ := allocStyle_advances (.refl t)
  refine .new [] none ?_ (style.rewrites.addAttribute (lt_size_of_get? h) h' sprouts (.inl rfl) _) (fun _ => rfl)
    (addsAttribute h h' missing _)
  rw [addAttribute_eq h']
  exact (((hasStyle_alloc t).alloc _).setKind h'' nofun nofun _).inner

theorem ensured_replace {old : Option NodeId} {tag : String} {outer : Option Span}
    (h : t.get? element = some (elementNode outer tag as xs closed))
    (hattr : t.get? attr = some ⟨.namedAttribute styleAttribute old, span⟩)
    (found : t.findAttribute? element styleAttribute = some attr) (plain : ∀ c ∈ old, t.contained? c = none) :
    Ensured t element (t.allocStyle []).1 ((t.allocStyle []).2.2.setValue attr (t.allocStyle []).2.1) := by
  have hattr' : (t.allocStyle []).2.2.get? attr = some ⟨.namedAttribute styleAttribute old, span⟩ := by
    rw [get?_allocStyle (lt_size_of_get? hattr), hattr]
  obtain ⟨style, sprouts⟩ := allocStyle_advances (.refl t)
  refine .new [] none ?_ (style.rewrites.setValue (lt_size_of_get? hattr) hattr' sprouts (.inr found)
    fun c hc => .inl ⟨attr, found, ?_, plain c hc⟩) (fun _ => rfl) (.same ?_)
  · rw [setValue_eq hattr']
    exact ((hasStyle_alloc t).setKind hattr' nofun nofun _).inner
  · rw [attributeValue?, kind?_of_get? hattr]
    exact hc
  · rw [setValue_eq hattr', get?_setKind_ne (ne_element hattr h rfl), get?_allocStyle (lt_size_of_get? h)]

theorem writeProperties_spread {p expression : NodeId} (h : t.get? p = some ⟨.spread expression, span⟩) (styles : StyleMap) :
    t.writeProperties styles [p] = ([p], styles, t) := by
  have undeclared : t.declaration? p = none := by rw [declaration?, kind?_of_get? h]
  have unnamed : t.propertyName? p = none := by rw [propertyName?, kind?_of_get? h]
  simp only [writeProperties, writeProperty, undeclared, unnamed]
  rfl

theorem ensured_spread {container expression : NodeId} {tag : String} {outer : Option Span}
    (h : t.get? element = some (elementNode outer tag as xs closed))
    (hcontainer : t.get? container = some ⟨.expressionContainer (some expression), span⟩) :
    Ensured t element (t.spreadStyle container expression).1 (t.spreadStyle container expression).2 := by
  let t₁ := (t.alloc (.spread expression)).2
  let spread : NodeId := ⟨t.size⟩
  let t₂ := (t₁.alloc (.object [spread])).2
  let object : NodeId := ⟨t₁.size⟩
  let u := t₂.setKind container (.expressionContainer (some object))
  have hc := lt_size_of_get? hcontainer
  have h₂ : t₂.get? container = some ⟨.expressionContainer (some expression), span⟩ := by
    rw [get?_alloc_old, get?_alloc_old hc, hcontainer]
    rw [size_alloc]
    exact Nat.lt_succ_of_lt hc
  obtain ⟨hcontainer', hobject, hspread, kept⟩ := spreadStyle_spec hcontainer
  have hs : u.childIds spread = [expression] := childIds_of_get? hspread
  have hu : u.childIds container = [object] := childIds_of_get? hcontainer'
  refine .new [spread] none hobject ?_ (fun styles => ?_) (.same ?_)
  · have sprouts : Sprouts t t₂ (t.childIds container) object := by
      refine sprouts_alloc (by rw [size_alloc]; exact Nat.le_succ _) fun c hc' _ => ?_
      obtain rfl := List.mem_singleton.1 hc'
      refine sprouts_alloc (Nat.le_refl _) fun c hc' hnot => absurd ?_ hnot
      rwa [childIds_of_get? hcontainer]
    refine (((Rewrites.refl t).alloc _).alloc _).write hc h₂ _ rfl (fun c hc' _ => .inr (.inr ?_))
      (fun c hc' => ?_) (.inr (by rfl))
    · rw [childIds_of_get? hcontainer] at hc'
      obtain rfl := List.mem_singleton.1 hc'
      exact ⟨hu ▸ List.mem_singleton.2 rfl, spread, List.mem_singleton.2 rfl, hs ▸ List.mem_singleton.2 rfl⟩
    · obtain rfl := List.mem_singleton.1 hc'
      exact .inr sprouts
  · exact writeProperties_spread hspread styles
  · exact kept element (lt_size_of_get? h) (ne_element hcontainer h rfl)

theorem ensured_ensureStyle {object : NodeId} (h : t.get? element = some (elementNode span name as xs closed))
    (he : t.ensureStyle element = some (object, u)) : Ensured t element object u := by
  have helement : t.isElement element = true := by
    rw [isElement, kind?_of_get? h]
    rfl
  obtain ⟨object', u', ensure, way⟩ := ensuresStyle helement
  obtain ⟨rfl, rfl⟩ := Prod.mk.inj (Option.some.inj (he.symm.trans ensure))
  cases way with
  | there found => exact .there found
  | added missing => exact ensured_add h missing
  | replaced found hattr plain => exact ensured_replace h hattr found plain
  | spread _ _ hcontainer => exact ensured_spread h hcontainer

theorem Rewrites.get?_element (h : Rewrites (fun _ => False) out t u)
    (hn : t.get? element = some (elementNode span name as xs closed)) : u.get? element = t.get? element := by
  rcases h.frame element _ hn with same | none | styling
  · rw [same, hn]
  · exact none.elim
  · cases styling

theorem AddsAttribute.rewrites {v : Tree} (h : t.AddsAttribute u element name) (more : Rewrites (fun _ => False) out u v)
    (isElement : u.isElement element = true) : t.AddsAttribute v element name := by
  obtain ⟨added, attributes, new⟩ := h
  obtain ⟨_, _, _, _, _, hn⟩ := exists_of_isElement isElement
  refine ⟨added, ?_, fun a ha => ⟨(new a ha).1, ?_⟩⟩
  · rw [← attributes, attributesOf, attributesOf, kind?, kind?, more.get?_element hn]
  · rw [more.isNamed name (lt_size_of_isNamed (new a ha).2), (new a ha).2]

theorem rewrites_writeNew {object : NodeId} {properties : List NodeId} (stored : t.get? object = some ⟨.object properties, span⟩)
    (styles : StyleMap) : Rewrites spot (fun _ _ => False) t
      ((t.allocDeclarations styles).2.setKind object (.object (properties ++ (t.allocDeclarations styles).1))) := by
  have unchanged : Rewrites spot (fun _ _ => False) t t := .refl t
  obtain ⟨added, sprouts⟩ := unchanged.allocDeclarations styles
  have stored' := get?_allocDeclarations_object stored styles
  refine added.rewrites.write (lt_size_of_get? stored) stored' _ rfl (fun c hc _ => .inl ?_) (fun c hc => ?_)
    (.inr (by rfl))
  · rw [childIds_of_get? stored] at hc
    exact List.mem_append_left _ hc
  · rw [childIds_of_get? stored']
    exact (List.mem_append.1 hc).imp_right fun hc => sprouts c hc _

/-- Writing styles: what was reached is reached, but for what the request takes out. -/
theorem rewrites_setStyle (stored : t.Stored) (h : t.get? element = some (elementNode span name as xs closed))
    (property : String) (value : Option String) :
    Rewrites (fun x => x = element ∨ t.findAttribute? element styleAttribute = some x)
      (fun x c => (t.setStyle element property value).Reaches x c ∨ t.Barren c ∨
        Mutation.Removes t element (.setStyle property value) c) t (t.setStyle element property value) ∧
    t.AddsAttribute (t.setStyle element property value) element styleAttribute := by
  have helement : t.isElement element = true := by
    rw [isElement, kind?_of_get? h]
    rfl
  rw [setStyle_eq helement]
  generalize hstyles : t.styled element property value = styles
  unfold writeStyle
  cases ensure : t.ensureStyle element with
  | none => exact ⟨.refl t, .same rfl⟩
  | some r =>
    obtain ⟨object, u⟩ := r
    dsimp only
    cases ensured_ensureStyle h ensure with
    | there found =>
      obtain ⟨properties, span', hobject⟩ := exists_of_styleObject? found
      have hproperties : t.propertiesOf object = properties := by rw [propertiesOf, kind?_of_get? hobject]
      have hobject' := get?_allocDeclarations_object (get?_writeProperties_object hobject styles properties)
        (t.writeProperties styles properties).2.1
      rw [hproperties, if_pos (by rw [isObject, kind?_of_get? hobject'])]
      have more : Rewrites (fun _ => False) (t.OutOfStyle object styles) t _ :=
        rewrites_writeObject stored hobject styles
      refine ⟨more.mono (fun _ => False.elim) fun x c hc => ?_, .same (more.get?_element h)⟩
      rintro (barren | ⟨rfl, named⟩)
      · exact .inr (.inl barren)
      · rw [childIds_of_get? hobject] at hc
        exact .inr (.inr (.property found (hproperties ▸ hc) (hstyles ▸ named)))
    | new properties span' hobject rewrites writes adds =>
      have hproperties : u.propertiesOf object = properties := by rw [propertiesOf, kind?_of_get? hobject]
      have hobject' := get?_allocDeclarations_object hobject styles
      have more : Rewrites (fun _ => False) (fun _ _ => False) u _ := rewrites_writeNew hobject styles
      rw [hproperties, writes, if_pos (by rw [isObject, kind?_of_get? hobject'])]
      have isElement : u.isElement element = true := (rewrites.isElement (lt_size_of_get? h)).trans helement
      refine ⟨(rewrites.trans (more.mono (fun _ => False.elim) fun _ _ _ => id)).mono (fun _ => id) fun x c _ => ?_,
        adds.rewrites more isElement⟩
      have keeps : ∀ a, ∀ b ∈ u.childIds a, Reaches _ a b := fun a b hb =>
        .step ((more.kept a b hb).resolve_right id) (.refl b)
      rintro (⟨attr, found, holds, plain⟩ | ⟨hx, p, hp, hc⟩)
      · exact .inr (.inr (.style found holds plain))
      · have hp : p ∈ u.childIds object := (childIds_of_get? hobject).symm ▸ hp
        exact .inl ((keeps x object hx).trans ((keeps object p hp).trans (keeps p c hc)))

end Tree

namespace Mutation

/-- What a request that is carried out does to a tree. -/
structure Effect (m : Mutation) (t : Tree) (element : NodeId) (u : Tree) : Prop where
  rewrites : t.Rewrites (m.Writes t element) (fun x c => u.Reaches x c ∨ t.Barren c ∨ m.Removes t element c) u
  adds : ∃ added, u.attributesOf element = t.attributesOf element ++ added ∧ ∀ a ∈ added,
    ∃ name, m.attribute? = some name ∧ t.findAttribute? element name = none ∧ u.isNamed name a = true

variable {t u : Tree} {m : Mutation} {element : NodeId}

theorem Effect.same (h : u.attributesOf element = t.attributesOf element)
    (rewrites : t.Rewrites (m.Writes t element) (fun x c => u.Reaches x c ∨ t.Barren c ∨ m.Removes t element c) u) :
    m.Effect t element u :=
  ⟨rewrites, [], by rw [h, List.append_nil], nofun⟩

theorem Effect.attribute {name : String} (writes : m.attribute? = some name) (adds : t.AddsAttribute u element name)
    (rewrites : t.Rewrites (fun x => x = element ∨ t.findAttribute? element name = some x)
      (fun x c => u.Reaches x c ∨ t.Barren c ∨ m.Removes t element c) u) : m.Effect t element u := by
  obtain ⟨added, attributes, new⟩ := adds
  exact ⟨rewrites.mono (fun x => Or.imp_right fun found => ⟨name, writes, found⟩) fun _ _ _ => id, added, attributes,
    fun a ha => ⟨name, writes, new a ha⟩⟩

theorem effect_perform (stored : t.Stored) (valid : m.validate t element = .ok ()) :
    m.Effect t element (m.perform t element) := by
  unfold validate at valid
  unfold perform
  split at valid
  · cases valid
  · split
    · exact .same rfl (.refl t)
    · cases m with
      | setText text =>
        cases editable : t.canEditText element with
        | false => simp [editable] at valid
        | true =>
          exact .same (Tree.attributesOf_setText t element text)
            ((Tree.rewrites_setText editable text).mono (fun _ => .inl) fun _ _ _ barren => .inr (.inl barren))
      | setStyle property value =>
        cases isElement : t.isElement element with
        | false => simp [isElement] at valid
        | true =>
          obtain ⟨_, _, _, _, _, h⟩ := Tree.exists_of_isElement isElement
          obtain ⟨rewrites, adds⟩ := Tree.rewrites_setStyle stored h property value
          exact .attribute rfl adds rewrites
      | setAttribute name value =>
        cases isElement : t.isElement element with
        | false => simp [isElement] at valid
        | true =>
          obtain ⟨_, _, _, _, _, h⟩ := Tree.exists_of_isElement isElement
          obtain ⟨rewrites, adds⟩ := Tree.rewrites_setAttribute stored h name value
          exact .attribute rfl adds (rewrites.mono (fun _ => id) fun _ _ _ removed => .inr (.inr removed))

end Mutation

end MarkupEditor
