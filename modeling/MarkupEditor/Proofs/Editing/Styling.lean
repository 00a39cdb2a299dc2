import MarkupEditor.Proofs.Editing.Legibility

set_option autoImplicit false

namespace MarkupEditor

open MarkupEditor.Parser

/-- The manner of an edited tree: no text is kept, and markers hold the numbers of elements. -/
abbrev Manner.edited : Manner :=
  .marked fun _ _ => False

theorem Lexer.identifierTail_all {cs : List Char} (h : cs.all continuesIdentifier = true) :
    identifierTail cs = (cs, []) := by
  induction cs with
  | nil => rfl
  | cons c cs ih =>
    obtain ⟨hc, hcs⟩ := Bool.and_eq_true_iff.1 (List.all_cons.symm.trans h)
    cases cs with
    | nil => simp [identifierTail, hc]
    | cons d cs =>
      rw [identifierTail, hc, Bool.true_or, if_pos rfl, ih hcs]
      rfl

theorem isName_of_isIdentifierName {name : String} (h : isIdentifierName name = true) : IsName name := by
  unfold isIdentifierName at h
  split at h
  · cases h
  · rename_i c cs htext
    obtain ⟨begins, hall⟩ := Bool.and_eq_true_iff.1 h
    refine ⟨_, Lexeme.identifierToken_whole begins (Lexer.identifierTail_all hall), ?_⟩
    rw [Lexeme.identifierToken_name?, ← htext, String.ofList_toList]

theorem PropertyKey.spelled_ofName {ι : Type} (name : String) :
    (PropertyKey.ofName name : PropertyKey ι).Spelled := by
  rw [ofName]
  split
  · rename_i h
    exact .identifier (isName_of_isIdentifierName h)
  · exact .string name

theorem PropertyKey.children_of_name? {ι : Type} {key : PropertyKey ι} {name : String}
    (h : key.name? = some name) : key.children = [] := by
  cases key with
  | computed e => cases h
  | _ => rfl

theorem PropertyKey.name?_ofName {ι : Type} (name : String) :
    (PropertyKey.ofName name : PropertyKey ι).name? = some name := by
  rw [ofName]
  split <;> rfl

namespace Tree

variable {m : Manner} {t u v : Tree} {site : Site} {id p object : NodeId} {name value : String}

theorem legible_string (ends : List Punctuator) (hends : ends ⊆ closers) {span : Option Span}
    (h : t.get? id = some ⟨.literal (.string value) none, span⟩) : t.Legible m (.expression ends) id :=
  .node h ⟨hends, Literal.Spelled.string value⟩ trivial nofun

theorem Legible.structured {ends : List Punctuator} (h : t.Legible .edited (.expression ends) id) :
    t.Legible .edited .structured id := by
  cases h with
  | @node _ _ node stored takes apart below =>
    have structured : Manner.Takes .edited .structured node.kind.bare := by
      cases hk : node.kind.bare <;> rw [hk] at takes
      case opaqueText parts => exact takes.2.elim
      all_goals exact takes.2
    exact .node stored structured apart (NodeKind.sites_of_isStructured structured _ _ ▸ below)

theorem Legible.expression {ends : List Punctuator} (h : t.Legible m .structured id)
    (hends : ends ⊆ closers) : t.Legible m (.expression ends) id := by
  cases h with
  | node stored takes apart below =>
    exact .node stored (takes.expression hends) apart (NodeKind.sites_of_isStructured takes _ _ ▸ below)

theorem Legible.content (h : t.Legible m .structured id) : t.Legible m .content id := by
  cases h with
  | node stored takes apart below =>
    exact .node stored takes.content apart (NodeKind.sites_of_isStructured takes _ _ ▸ below)

theorem sites_declaration {key : PropertyKey NodeId} (h : key.name? = some name) (literal : NodeId) :
    (NodeKind.property key literal false).sites site = [(.expression Listing.object.ends, literal)] := by
  rw [NodeKind.sites, PropertyKey.children_of_name? h]
  cases key <;> rfl

theorem exists_literal_of_declaration? {current : String} (h : t.declaration? p = some (name, current)) :
    ∃ key old span value,
      t.get? p = some ⟨.property key old false, span⟩ ∧ key.name? = some name ∧ t.literal? old = some value := by
  unfold declaration? at h
  split at h
  · rename_i key old hkind
    obtain ⟨⟨kind, span⟩, hn, rfl⟩ := Option.map_eq_some_iff.1 hkind
    obtain ⟨name', hname, hvalue⟩ := Option.bind_eq_some_iff.1 h
    obtain ⟨value, hl, heq⟩ := Option.map_eq_some_iff.1 hvalue
    cases heq
    exact ⟨key, old, span, value, hn, hname, hl⟩
  · cases h

theorem exists_of_declaration? {current : String} (h : t.declaration? p = some (name, current)) :
    ∃ key old span, t.get? p = some ⟨.property key old false, span⟩ ∧ key.name? = some name := by
  obtain ⟨key, old, span, -, hp, hname, -⟩ := exists_literal_of_declaration? h
  exact ⟨key, old, span, hp, hname⟩

theorem setDeclaration_eq {key : PropertyKey NodeId} {old : NodeId} {span : Option Span}
    (h : t.get? p = some ⟨.property key old false, span⟩) (value : String) :
    t.setDeclaration p value =
      (t.alloc (.literal (.string value) none)).2.setKind p (.property key ⟨t.size⟩ false) := by
  have hkind : (t.alloc (.literal (.string value) none)).2.kind? p = some (.property key old false) :=
    kind?_of_get? ((get?_alloc_old (lt_size_of_get? h)).trans h)
  simp only [Tree.setDeclaration, hkind]
  rfl

/-- A declaration that an edit made. -/
def Declares (t : Tree) (p : NodeId) : Prop :=
  ∃ name value literal span, t.get? p = some ⟨.property (.ofName name) literal false, span⟩ ∧
    t.get? literal = some ⟨.literal (.string value) none, none⟩

theorem Declares.legible (h : t.Declares p) : t.Legible m .property p := by
  obtain ⟨name, value, literal, span, hp, hliteral⟩ := h
  refine .node hp ⟨(PropertyKey.spelled_ofName name).map _, nofun⟩ trivial fun inner child hc => ?_
  rw [sites_declaration (PropertyKey.name?_ofName name), List.mem_singleton] at hc
  cases hc
  exact legible_string Listing.object.ends (Printer.listing_closes .object) hliteral

/-- What writing declarations does to a tree: what was legible in a manner stays so, other nodes than
properties stay as they are, and declarations are declarations. -/
structure Writes (t u : Tree) : Prop where
  root : u.root = t.root
  legible : ∀ m site id, t.Legible m site id → u.Legible m site id
  other : ∀ id node, t.get? id = some node → (∀ key value shorthand, node.kind ≠ .property key value shorthand) →
    u.get? id = some node
  declares : ∀ p, t.Declares p → u.Declares p

namespace Writes

theorem refl (t : Tree) : t.Writes t where
  root := rfl
  legible _ _ _ h := h
  other _ _ h _ := h
  declares _ h := h

theorem trans (h : t.Writes u) (h' : u.Writes v) : t.Writes v where
  root := h'.root.trans h.root
  legible m site id hl := h'.legible m site id (h.legible m site id hl)
  other id node hn plain := h'.other id node (h.other id node hn plain) plain
  declares p hp := h'.declares p (h.declares p hp)

theorem alloc (t : Tree) (kind : NodeKind NodeId) : t.Writes (t.alloc kind).2 where
  root := rfl
  legible _ _ _ h := h.alloc kind
  other id node h _ := by rw [get?_alloc_old (lt_size_of_get? h), h]
  declares p h := by
    obtain ⟨name, value, literal, span, hp, hliteral⟩ := h
    refine ⟨name, value, literal, span, ?_, ?_⟩
    · rw [get?_alloc_old (lt_size_of_get? hp), hp]
    · rw [get?_alloc_old (lt_size_of_get? hliteral), hliteral]

theorem allocDeclaration (t : Tree) (name value : String) :
    t.Writes (t.allocDeclaration name value).2 ∧
      (t.allocDeclaration name value).2.Declares (t.allocDeclaration name value).1 := by
  let t₁ := (t.alloc (.literal (.string value) none)).2
  let kind : NodeKind NodeId := .property (.ofName name) ⟨t.size⟩ false
  have literal : t₁.get? ⟨t.size⟩ = some ⟨.literal (.string value) none, none⟩ := get?_alloc_new t _
  change t.Writes (t₁.alloc kind).2 ∧ (t₁.alloc kind).2.Declares (t₁.alloc kind).1
  refine ⟨(alloc t _).trans (alloc t₁ _), name, value, ⟨t.size⟩, none, get?_alloc_new t₁ kind, ?_⟩
  rw [get?_alloc_old (lt_size_of_get? literal), literal]

theorem setDeclaration {current : String} (h : t.declaration? p = some (name, current)) (value : String) :
    t.Writes (t.setDeclaration p value) := by
  obtain ⟨key, old, span, hp, hkey⟩ := exists_of_declaration? h
  let t₁ := (t.alloc (.literal (.string value) none)).2
  let literal : NodeId := ⟨t.size⟩
  have hp₁ : t₁.get? p = some ⟨.property key old false, span⟩ := by
    rw [get?_alloc_old (lt_size_of_get? hp), hp]
  have hliteral : t₁.get? literal = some ⟨.literal (.string value) none, none⟩ := get?_alloc_new t _
  have hne : p ≠ literal := ne_of_index_ne (Nat.ne_of_lt (lt_size_of_get? hp))
  have hliteral' : (t₁.setKind p (.property key literal false)).get? literal =
      some ⟨.literal (.string value) none, none⟩ := by
    rw [get?_setKind_ne hne, hliteral]
  rw [setDeclaration_eq hp]
  refine (alloc t (.literal (.string value) none)).trans (u := t₁)
    ⟨rfl, fun m site id hl => ?_, fun id node hn plain => ?_, fun x hx => ?_⟩
  · refine Legible.setKind hp₁ rfl (fun site hsite _ => ?_) hl
    cases hsite with
    | @node _ _ node stored takes apart below =>
      rw [hp₁] at stored
      cases stored
      refine .node (get?_setKind_of_get? hp₁ _) takes trivial fun inner child hc => ?_
      rw [sites_declaration hkey, List.mem_singleton] at hc
      cases hc
      exact legible_string Listing.object.ends (Printer.listing_closes .object) hliteral'
  · have hid : p ≠ id := by
      rintro rfl
      rw [hp₁] at hn
      cases hn
      exact plain _ _ _ rfl
    rw [get?_setKind_ne hid, hn]
  · obtain ⟨name', value', literal', span', hx, hl⟩ := hx
    have hkeep : p ≠ literal' := by
      rintro rfl
      rw [hp₁] at hl
      cases hl
    by_cases hpx : p = x
    · subst hpx
      rw [hp₁] at hx
      cases hx
      exact ⟨name', value, literal, _, get?_setKind_of_get? hp₁ _, hliteral'⟩
    · exact ⟨name', value', literal', span', by rw [get?_setKind_ne hpx, hx],
        by rw [get?_setKind_ne hkeep, hl]⟩

theorem writeProperty (t : Tree) (styles : StyleMap) (p : NodeId) :
    t.Writes (t.writeProperty styles p).2.2 ∧ ∀ kept, (t.writeProperty styles p).1 = some kept →
      kept = p ∨ (t.writeProperty styles p).2.2.Declares kept := by
  unfold Tree.writeProperty
  split
  · rename_i name current hdeclared
    split
    · exact ⟨refl t, nofun⟩
    · rename_i value hvalue
      refine ⟨?_, fun kept hk => .inl (Option.some.inj hk).symm⟩
      dsimp only
      split
      · exact refl t
      · exact setDeclaration hdeclared value
  · split
    · exact ⟨refl t, fun kept hk => .inl (Option.some.inj hk).symm⟩
    · rename_i name hname
      split
      · exact ⟨refl t, fun kept hk => .inl (Option.some.inj hk).symm⟩
      · rename_i value hvalue
        obtain ⟨writes, declares⟩ := allocDeclaration t name value
        refine ⟨writes, fun kept hk => .inr ?_⟩
        cases hk
        exact declares

theorem writeProperties (t : Tree) (styles : StyleMap) (properties : List NodeId) :
    t.Writes (t.writeProperties styles properties).2.2 ∧
      ∀ kept ∈ (t.writeProperties styles properties).1,
        kept ∈ properties ∨ (t.writeProperties styles properties).2.2.Declares kept := by
  induction properties generalizing t styles with
  | nil => exact ⟨refl t, nofun⟩
  | cons p properties ih =>
    obtain ⟨first, kept⟩ := writeProperty t styles p
    obtain ⟨rest, others⟩ := ih (t.writeProperty styles p).2.2 (t.writeProperty styles p).2.1
    refine ⟨first.trans rest, fun x hx => ?_⟩
    obtain hx | hx := List.mem_append.1 hx
    · obtain rfl | declares := kept x (Option.mem_toList.1 hx)
      · exact .inl List.mem_cons_self
      · exact .inr (rest.declares x declares)
    · exact (others x hx).imp (List.mem_cons_of_mem p) id

theorem allocDeclarations (t : Tree) (styles : StyleMap) :
    t.Writes (t.allocDeclarations styles).2 ∧
      ∀ added ∈ (t.allocDeclarations styles).1, (t.allocDeclarations styles).2.Declares added := by
  induction styles generalizing t with
  | nil => exact ⟨refl t, nofun⟩
  | cons entry styles ih =>
    obtain ⟨name, value⟩ := entry
    obtain ⟨first, declares⟩ := allocDeclaration t name value
    obtain ⟨rest, others⟩ := ih (t.allocDeclaration name value).2
    refine ⟨first.trans rest, fun x hx => ?_⟩
    obtain rfl | hx := List.mem_cons.1 hx
    · exact rest.declares _ declares
    · exact others x hx

end Writes

/-- An empty style object in braces. -/
structure HasStyle (t : Tree) (object container : NodeId) : Prop where
  inner : t.get? object = some ⟨.object [], none⟩
  outer : t.get? container = some ⟨.expressionContainer (some object), none⟩

/-- What making sure of a style object does to a tree: there is one, and what was legible in a manner stays
so. -/
structure Ensures (m : Manner) (t u : Tree) (object : NodeId) : Prop where
  root : u.root = t.root
  legible : ∀ site id, t.Legible m site id → u.Legible m site id
  object : ∃ properties span, u.get? object = some ⟨.object properties, span⟩

section

variable {element attr container expression : NodeId} {span : Option Span} {as xs : List NodeId} {closed : Bool}

theorem HasStyle.congr (h : t.HasStyle object container) (inner : u.get? object = t.get? object)
    (outer : u.get? container = t.get? container) : u.HasStyle object container :=
  ⟨by rw [inner, h.inner], by rw [outer, h.outer]⟩

theorem HasStyle.legible (h : t.HasStyle object container) :
    t.Legible .edited (.value styleAttribute) container := by
  refine .node h.outer ⟨fun he => absurd he (by decide), nofun⟩ trivial fun inner child hc => ?_
  cases List.mem_singleton.1 hc
  exact .node h.inner ⟨Printer.singleton_closes (by decide), trivial⟩ trivial nofun

theorem hasStyle_alloc (t : Tree) :
    (t.allocStyle []).2.2.HasStyle (t.allocStyle []).1 (t.allocStyle []).2.1 := by
  let t₁ := (t.alloc (.object [])).2
  have inner : t₁.get? ⟨t.size⟩ = some ⟨.object [], none⟩ := get?_alloc_new t _
  refine ⟨?_, get?_alloc_new t₁ _⟩
  change (t₁.alloc _).2.get? ⟨t.size⟩ = _
  rw [get?_alloc_old (lt_size_of_get? inner), inner]

theorem get?_allocStyle (h : id.index < t.size) : (t.allocStyle []).2.2.get? id = t.get? id := by
  change (((t.alloc _).2).alloc _).2.get? id = t.get? id
  rw [get?_alloc_old (by rw [size_alloc]; exact Nat.lt_succ_of_lt h), get?_alloc_old h]

theorem Legible.allocStyle (h : t.Legible m site id) : (t.allocStyle []).2.2.Legible m site id :=
  (h.alloc _).alloc _

theorem HasStyle.alloc (h : t.HasStyle object container) (kind : NodeKind NodeId) :
    (t.alloc kind).2.HasStyle object container :=
  h.congr (get?_alloc_old (lt_size_of_get? h.inner)) (get?_alloc_old (lt_size_of_get? h.outer))

theorem HasStyle.setKind (h : t.HasStyle object container) {node : Node} (stored : t.get? id = some node)
    (inner : node.kind ≠ .object []) (outer : node.kind ≠ .expressionContainer (some object))
    (kind : NodeKind NodeId) : (t.setKind id kind).HasStyle object container := by
  refine h.congr (get?_setKind_ne ?_) (get?_setKind_ne ?_)
  · rintro rfl
    rw [h.inner] at stored
    cases stored
    exact inner rfl
  · rintro rfl
    rw [h.outer] at stored
    cases stored
    exact outer rfl

theorem addAttribute_eq (h : t.get? element = some (elementNode span name as xs closed)) (other : String)
    (value : NodeId) : t.addAttribute element other value =
      (t.alloc (.namedAttribute other (some value))).2.setKind element
        (.element name (as ++ [(t.alloc (.namedAttribute other (some value))).1]) xs closed) := by
  let u := (t.alloc (.namedAttribute other (some value))).2
  have h' : u.get? element = some (elementNode span name as xs closed) := by
    rw [get?_alloc_old (lt_size_of_get? h), h]
  change u.setAttributes element (u.attributesOf element ++ [_]) = _
  rw [attributesOf_eq h', setAttributes_eq h']
  rfl

theorem setValue_eq {old : Option NodeId} (h : t.get? attr = some ⟨.namedAttribute name old, span⟩)
    (value : NodeId) : t.setValue attr value = t.setKind attr (.namedAttribute name (some value)) := by
  rw [setValue, kind?_of_get? h]

theorem Legible.addAttribute {other : String} {value : NodeId} (hl : t.Legible m site id) (hm : m.Uniform)
    (h : t.get? element = some (elementNode span name as xs closed)) (named : IsAttributeName other)
    (held : (t.addAttribute element other value).Legible m (.value other) value) :
    (t.addAttribute element other value).Legible m site id := by
  let attr : NodeId := ⟨t.size⟩
  let t₁ := (t.alloc (.namedAttribute other (some value))).2
  have h₁ : t₁.get? element = some (elementNode span name as xs closed) := by
    rw [get?_alloc_old (lt_size_of_get? h), h]
  rw [addAttribute_eq h] at held ⊢
  change (t₁.setKind element (.element name (as ++ [attr]) xs closed)).Legible m (.value other) value at held
  change (t₁.setKind element (.element name (as ++ [attr]) xs closed)).Legible m site id
  have hattr : (t₁.setKind element (.element name (as ++ [attr]) xs closed)).get? attr =
      some ⟨.namedAttribute other (some value), none⟩ :=
    (get?_setKind_ne (ne_of_index_ne (Nat.ne_of_lt (lt_size_of_get? h)))).trans (get?_alloc_new t _)
  refine Legible.setKind h₁ rfl (fun site hsite ih => ?_) (hl.alloc _)
  cases hsite with
  | @node _ _ node stored takes apart below =>
    rw [h₁] at stored
    cases stored
    refine .node (get?_setKind_of_get? h₁ _) (hm.element takes)
      (apart.congr fun child _ => isText_setKind h₁ (by rfl) child) fun inner child hc => ?_
    obtain hc | hc := List.mem_append.1 hc
    · obtain ⟨a, ha, heq⟩ := List.mem_map.1 hc
      cases heq
      obtain ha | ha := List.mem_append.1 ha
      · exact ih child (List.mem_append_left _ ha) .attr
          (below .attr child (List.mem_append_left _ (List.mem_map_of_mem ha)))
      · cases List.mem_singleton.1 ha
        refine .node hattr named trivial fun inner child hc => ?_
        cases List.mem_singleton.1 hc
        exact held
    · have hmem : (inner, child) ∈ (NodeKind.element name as xs closed).sites site :=
        List.mem_append_right _ hc
      exact ih child (NodeKind.child_of_site hmem) inner (below inner child hmem)

theorem Legible.setValue {value : NodeId} {old : Option NodeId} (hl : t.Legible m site id)
    (h : t.get? attr = some ⟨.namedAttribute name old, span⟩)
    (held : (t.setValue attr value).Legible m (.value name) value) : (t.setValue attr value).Legible m site id := by
  rw [setValue_eq h] at held ⊢
  refine Legible.setKind h rfl (fun site hsite _ => ?_) hl
  cases hsite with
  | @node _ _ node stored takes =>
    rw [h] at stored
    cases stored
    refine .node (get?_setKind_of_get? h _) ?_ trivial fun inner child hc => ?_
    · cases site with
      | attr => exact takes
      | value | part => exact takes.1.elim
      | expression => exact takes.2.elim
      | _ => exact takes.elim
    · cases List.mem_singleton.1 hc
      exact held

theorem ensures_add (h : t.get? element = some (elementNode span name as xs closed)) :
    t.Ensures .edited ((t.allocStyle []).2.2.addAttribute element styleAttribute (t.allocStyle []).2.1)
      (t.allocStyle []).1 := by
  let container := (t.allocStyle []).2.1
  let t₁ := (t.allocStyle []).2.2
  have h₁ : t₁.get? element = some (elementNode span name as xs closed) := by
    rw [get?_allocStyle (lt_size_of_get? h), h]
  have h₂ : (t₁.alloc (.namedAttribute styleAttribute (some container))).2.get? element =
      some (elementNode span name as xs closed) := by
    rw [get?_alloc_old (lt_size_of_get? h₁), h₁]
  have style : (t₁.addAttribute element styleAttribute container).HasStyle (t.allocStyle []).1 container := by
    rw [addAttribute_eq h₁]
    exact ((hasStyle_alloc t).alloc _).setKind h₂ nofun nofun _
  have named : IsAttributeName styleAttribute := .plain ⟨.identifier styleAttribute, rfl, rfl⟩
  refine ⟨?_, fun site id hl => hl.allocStyle.addAttribute Manner.marked_uniform h₁ named style.legible, [], none,
    style.inner⟩
  rw [addAttribute_eq h₁]
  rfl

theorem ensures_replace {value : Option NodeId}
    (h : t.get? attr = some ⟨.namedAttribute styleAttribute value, span⟩) :
    t.Ensures .edited ((t.allocStyle []).2.2.setValue attr (t.allocStyle []).2.1) (t.allocStyle []).1 := by
  let container := (t.allocStyle []).2.1
  let t₁ := (t.allocStyle []).2.2
  have h₁ : t₁.get? attr = some ⟨.namedAttribute styleAttribute value, span⟩ := by
    rw [get?_allocStyle (lt_size_of_get? h), h]
  have style : (t₁.setValue attr container).HasStyle (t.allocStyle []).1 container := by
    rw [setValue_eq h₁]
    exact (hasStyle_alloc t).setKind h₁ nofun nofun (.namedAttribute styleAttribute (some container))
  refine ⟨?_, fun site id hl => hl.allocStyle.setValue h₁ style.legible, [], none, style.inner⟩
  rw [setValue_eq h₁]
  rfl

def spreadStyle (t : Tree) (container expression : NodeId) : NodeId × Tree :=
  let (spread, t) := t.alloc (.spread expression)
  let (object, t) := t.alloc (.object [spread])
  (object, t.setKind container (.expressionContainer (some object)))

/-- What spreading an expression writes: a spread of it alone in a new object, which the container holds. -/
theorem spreadStyle_spec (h : t.get? container = some ⟨.expressionContainer (some expression), span⟩) :
    (t.spreadStyle container expression).2.get? container =
        some ⟨.expressionContainer (some (t.spreadStyle container expression).1), span⟩ ∧
      (t.spreadStyle container expression).2.get? (t.spreadStyle container expression).1 =
        some ⟨.object [⟨t.size⟩], none⟩ ∧
      (t.spreadStyle container expression).2.get? ⟨t.size⟩ = some ⟨.spread expression, none⟩ ∧
      ∀ id : NodeId, id.index < t.size → container ≠ id →
        (t.spreadStyle container expression).2.get? id = t.get? id := by
  let t₁ := (t.alloc (.spread expression)).2
  let spread : NodeId := ⟨t.size⟩
  let t₂ := (t₁.alloc (.object [spread])).2
  let object : NodeId := ⟨t₁.size⟩
  have h₁ : t₁.get? container = some ⟨.expressionContainer (some expression), span⟩ := by
    rw [get?_alloc_old (lt_size_of_get? h), h]
  have h₂ : t₂.get? container = some ⟨.expressionContainer (some expression), span⟩ := by
    rw [get?_alloc_old (lt_size_of_get? h₁), h₁]
  have hspread : t₁.get? spread = some ⟨.spread expression, none⟩ := get?_alloc_new t _
  refine ⟨get?_setKind_of_get? h₂ _, ?_, ?_, fun id hid apart => ?_⟩
  · exact (get?_setKind_ne (ne_of_index_ne (Nat.ne_of_lt (lt_size_of_get? h₁)))).trans (get?_alloc_new t₁ _)
  · refine (get?_setKind_ne (ne_of_index_ne (Nat.ne_of_lt (lt_size_of_get? h)))).trans ?_
    exact (get?_alloc_old (lt_size_of_get? hspread)).trans hspread
  · refine (get?_setKind_ne apart).trans ?_
    refine (get?_alloc_old ?_).trans (get?_alloc_old hid)
    exact Nat.lt_of_lt_of_eq (Nat.lt_succ_of_lt hid) (size_alloc t _).symm

theorem ensures_spread (h : t.get? container = some ⟨.expressionContainer (some expression), span⟩)
    (legible : t.Legible m (.expression Listing.object.ends) expression) :
    t.Ensures m (t.spreadStyle container expression).2 (t.spreadStyle container expression).1 := by
  let t₁ := (t.alloc (.spread expression)).2
  let t₂ := (t₁.alloc (.object [⟨t.size⟩])).2
  have h₂ : t₂.get? container = some ⟨.expressionContainer (some expression), span⟩ := by
    rw [get?_alloc_old, get?_alloc_old (lt_size_of_get? h), h]
    exact Nat.lt_of_lt_of_eq (Nat.lt_succ_of_lt (lt_size_of_get? h)) (size_alloc t _).symm
  obtain ⟨hcontainer, hobject, hspread, -⟩ := spreadStyle_spec h
  refine ⟨rfl, fun site id hl => ?_, _, none, hobject⟩
  refine Legible.setKind h₂ rfl (fun site hsite ih => ?_) ((hl.alloc _).alloc _)
  have argument := ih expression (List.mem_singleton.2 rfl) _ ((legible.alloc _).alloc _)
  have within :
      (t.spreadStyle container expression).2.Legible m .structured (t.spreadStyle container expression).1 := by
    refine .node hobject trivial trivial fun inner child hc => ?_
    cases List.mem_singleton.1 hc
    refine .node hspread trivial trivial fun inner child hc => ?_
    cases List.mem_singleton.1 hc
    exact argument
  cases hsite with
  | @node _ _ node stored takes =>
    obtain rfl := Option.some.inj (h₂.symm.trans stored)
    refine .node hcontainer takes trivial fun inner child hc => ?_
    cases List.mem_singleton.1 hc
    cases site with
    | child => exact within.content
    | _ => exact within.expression (Printer.singleton_closes (by decide))

theorem exists_of_findAttribute? (h : t.findAttribute? element name = some attr) :
    attr ∈ t.attributesOf element ∧ ∃ value span, t.get? attr = some ⟨.namedAttribute name value, span⟩ := by
  refine ⟨List.mem_of_find?_eq_some h, ?_⟩
  have named : t.isNamed name attr = true := List.find?_some h
  unfold isNamed at named
  split at named
  · rename_i other value hkind
    obtain ⟨⟨kind, span⟩, hn, rfl⟩ := Option.map_eq_some_iff.1 hkind
    cases beq_iff_eq.1 named
    exact ⟨value, span, hn⟩
  · cases named

theorem isElement_of_findAttribute? (found : t.findAttribute? element name = some attr) : t.isElement element = true := by
  have hmem := (exists_of_findAttribute? found).1
  unfold attributesOf at hmem
  split at hmem
  · rename_i hk
    rw [isElement, hk]
    rfl
  · cases hmem

theorem exists_of_contained? (h : t.contained? container = some expression) :
    ∃ span, t.get? container = some ⟨.expressionContainer (some expression), span⟩ := by
  unfold contained? at h
  split at h
  · rename_i hkind
    obtain ⟨⟨kind, span⟩, hn, rfl⟩ := Option.map_eq_some_iff.1 hkind
    cases h
    exact ⟨span, hn⟩
  · cases h

theorem exists_of_isObject (h : t.isObject object = true) :
    ∃ properties span, t.get? object = some ⟨.object properties, span⟩ := by
  unfold isObject at h
  split at h
  · rename_i properties hkind
    obtain ⟨⟨kind, span⟩, hn, rfl⟩ := Option.map_eq_some_iff.1 hkind
    exact ⟨properties, span, hn⟩
  · cases h

theorem exists_of_isElement (h : t.isElement element = true) :
    ∃ span name as xs closed, t.get? element = some (elementNode span name as xs closed) := by
  unfold isElement at h
  cases hn : t.get? element with
  | none => rw [kind?, hn] at h; cases h
  | some node =>
    rw [kind?_of_get? hn] at h
    obtain ⟨kind, span⟩ := node
    cases kind with
    | element name as xs closed => exact ⟨span, name, as, xs, closed, rfl⟩
    | _ => cases h

theorem exists_of_styleObject? (h : t.styleObject? element = some object) :
    ∃ properties span, t.get? object = some ⟨.object properties, span⟩ := by
  obtain ⟨attr, -, hvalue⟩ := Option.bind_eq_some_iff.1 h
  obtain ⟨container, -, hobject⟩ := Option.bind_eq_some_iff.1 hvalue
  exact exists_of_isObject (Option.filter_eq_some_iff.1 hobject).2

/-- The ways in which a style object is made sure of: it is there, a style attribute is added, the attribute is
given another value, or what it held is spread. -/
inductive EnsuresStyle (t : Tree) (element : NodeId) : NodeId → Tree → Prop where
  | there {object : NodeId} (found : t.styleObject? element = some object) : EnsuresStyle t element object t
  | added (missing : t.findAttribute? element styleAttribute = none) :
    EnsuresStyle t element (t.allocStyle []).1
      ((t.allocStyle []).2.2.addAttribute element styleAttribute (t.allocStyle []).2.1)
  | replaced {attr : NodeId} {old : Option NodeId} {span : Option Span}
    (found : t.findAttribute? element styleAttribute = some attr)
    (hattr : t.get? attr = some ⟨.namedAttribute styleAttribute old, span⟩)
    (plain : ∀ c ∈ old, t.contained? c = none) :
    EnsuresStyle t element (t.allocStyle []).1 ((t.allocStyle []).2.2.setValue attr (t.allocStyle []).2.1)
  | spread {attr container expression : NodeId} {span : Option Span}
    (found : t.findAttribute? element styleAttribute = some attr) (holds : t.attributeValue? attr = some container)
    (hcontainer : t.get? container = some ⟨.expressionContainer (some expression), span⟩)
    (plain : t.isObject expression = false) :
    EnsuresStyle t element (t.spreadStyle container expression).1 (t.spreadStyle container expression).2

theorem ensuresStyle (helement : t.isElement element = true) :
    ∃ object u, t.ensureStyle element = some (object, u) ∧ t.EnsuresStyle element object u := by
  rw [ensureStyle, if_pos helement]
  cases found : t.findAttribute? element styleAttribute with
  | none => exact ⟨_, _, rfl, .added found⟩
  | some attr =>
    obtain ⟨-, old, span', hattr⟩ := exists_of_findAttribute? found
    have holds : t.attributeValue? attr = old := by rw [attributeValue?, kind?_of_get? hattr]
    refine ⟨(t.ensureObject attr).1, (t.ensureObject attr).2, rfl, ?_⟩
    unfold ensureObject
    simp only [holds]
    cases old with
    | none => exact .replaced found hattr fun c hc => absurd hc (Option.not_mem_none c)
    | some container =>
      cases contained : t.contained? container with
      | none =>
        simp only [Option.bind_some, contained]
        exact .replaced found hattr fun c hc => Option.some.inj hc ▸ contained
      | some expression =>
        simp only [Option.bind_some, contained]
        cases isObject : t.isObject expression with
        | true => exact .there (by simp [styleObject?, found, holds, contained, isObject])
        | false =>
          obtain ⟨_, hcontainer⟩ := exists_of_contained? contained
          exact .spread found holds hcontainer isObject

theorem Legible.attribute (h : t.Legible m site element) (found : t.findAttribute? element name = some attr) :
    t.Legible m .attr attr := by
  have hmem := (exists_of_findAttribute? found).1
  obtain ⟨span, tag, as, xs, closed, hn⟩ := exists_of_isElement (isElement_of_findAttribute? found)
  rw [attributesOf_eq hn] at hmem
  cases h with
  | @node _ _ _ stored takes apart below =>
    rw [hn] at stored
    cases stored
    exact below .attr attr (List.mem_append_left _ (List.mem_map_of_mem hmem))

theorem Legible.held (h : t.Legible m .attr attr) (holds : t.attributeValue? attr = some container)
    (hcontainer : t.get? container = some ⟨.expressionContainer (some expression), span⟩) :
    t.Legible m (.expression [.closeBrace]) expression := by
  cases h with
  | @node _ _ node stored takes apart below =>
    obtain ⟨kind, _⟩ := node
    rw [attributeValue?, kind?_of_get? stored] at holds
    cases kind with
    | namedAttribute name value =>
      obtain rfl : value = some container := holds
      cases below (.value name) container (List.mem_singleton.2 rfl) with
      | @node _ _ node stored takes apart below =>
        rw [hcontainer] at stored
        cases stored
        exact below (.expression [.closeBrace]) expression (List.mem_singleton.2 rfl)
    | _ => cases holds

theorem isElement_of_ensureStyle (ensure : t.ensureStyle element = some (object, u)) : t.isElement element = true := by
  unfold ensureStyle at ensure
  split at ensure
  · assumption
  · cases ensure

theorem ensures_ensureStyle (h : t.Legible .edited .markup element)
    (ensure : t.ensureStyle element = some (object, u)) : t.Ensures .edited u object := by
  have helement := isElement_of_ensureStyle ensure
  obtain ⟨_, _, _, _, _, stored⟩ := exists_of_isElement helement
  obtain ⟨_, _, same, way⟩ := ensuresStyle helement
  cases same.symm.trans ensure
  cases way with
  | there found => exact ⟨rfl, fun _ _ hl => hl, exists_of_styleObject? found⟩
  | added missing => exact ensures_add stored
  | replaced found hattr => exact ensures_replace hattr
  | spread found holds hcontainer =>
    exact ensures_spread hcontainer
      (((h.attribute found).held holds hcontainer).structured.expression (Printer.listing_closes .object))

theorem takes_object {xs ys : List Unit} (h : m.Takes site (.object xs)) :
    m.Takes site (.object ys) := by
  cases site with
  | value => exact h.1.elim
  | _ => exact h

theorem get?_setObject {properties others : List NodeId} {node : Node}
    (hobject : t.get? object = some ⟨.object properties, span⟩) (hx : t.get? id = some node)
    (ne : ∀ properties, node.kind ≠ .object properties) :
    (t.setKind object (.object others)).get? id = some node := by
  rw [get?_setKind_ne, hx]
  rintro rfl
  cases hobject.symm.trans hx
  exact ne _ rfl

theorem Declares.setKind {properties others : List NodeId} (h : t.Declares p)
    (hobject : t.get? object = some ⟨.object properties, span⟩) :
    (t.setKind object (.object others)).Declares p := by
  obtain ⟨name, value, literal, span', hp, hliteral⟩ := h
  exact ⟨name, value, literal, span', get?_setObject hobject hp (by rintro _ ⟨⟩),
    get?_setObject hobject hliteral (by rintro _ ⟨⟩)⟩

theorem Legible.setObject {properties others : List NodeId}
    (hobject : t.get? object = some ⟨.object properties, span⟩)
    (hothers : ∀ x ∈ others, x ∈ properties ∨ t.Declares x) (h : t.Legible m site id) :
    (t.setKind object (.object others)).Legible m site id := by
  refine Legible.setKind hobject rfl (fun site hsite ih => ?_) h
  cases hsite with
  | @node _ _ node stored takes apart below =>
    obtain rfl := Option.some.inj (hobject.symm.trans stored)
    refine .node (get?_setKind_of_get? hobject _) (takes_object takes) trivial fun inner x hc => ?_
    obtain ⟨x, hx, heq⟩ := List.mem_map.1 hc
    cases heq
    obtain old | declares := hothers x hx
    · exact ih x old .property (below .property x (List.mem_map_of_mem old))
    · exact (declares.setKind hobject).legible

theorem writeStyle_legible
    (ensures : ∀ object u, t.ensureStyle element = some (object, u) → t.Ensures m u object) (styles : StyleMap) :
    (t.writeStyle element styles).root = t.root ∧
      ∀ site id, t.Legible m site id → (t.writeStyle element styles).Legible m site id := by
  unfold writeStyle
  split
  · exact ⟨rfl, fun _ _ h => h⟩
  · rename_i object t₁ hensure
    obtain ⟨root, legible, properties, span, hobject₁⟩ := ensures object t₁ hensure
    have hproperties : t₁.propertiesOf object = properties := by rw [propertiesOf, kind?_of_get? hobject₁]
    rw [hproperties]
    obtain ⟨written, kept⟩ := Writes.writeProperties t₁ styles properties
    obtain ⟨allocated, added⟩ := Writes.allocDeclarations (t₁.writeProperties styles properties).2.2
      (t₁.writeProperties styles properties).2.1
    have writes := written.trans allocated
    have hobject := writes.other object _ hobject₁ (by rintro _ _ _ ⟨⟩)
    dsimp only
    split
    · refine ⟨writes.root.trans root, fun site id h => ?_⟩
      refine Legible.setObject hobject (fun x hx => ?_) (writes.legible m site id (legible site id h))
      obtain hx | hx := List.mem_append.1 hx
      · exact (kept x hx).imp_right (allocated.declares x)
      · exact .inr (added x hx)
    · exact ⟨writes.root.trans root, fun site id h => writes.legible m site id (legible site id h)⟩

/-- Setting a style keeps a tree legible, and its root. -/
theorem setStyle_legible (helement : t.Legible .edited .markup element) (name : String) (value : Option String) :
    (t.setStyle element name value).root = t.root ∧
      ∀ site id, t.Legible .edited site id → (t.setStyle element name value).Legible .edited site id := by
  unfold setStyle
  split
  · dsimp only
    split <;> exact writeStyle_legible (fun _ _ => ensures_ensureStyle helement) _
  · exact ⟨rfl, fun _ _ h => h⟩

end

end Tree

end MarkupEditor
