import MarkupEditor.Proofs.Editing.StyleForms
import MarkupEditor.Proofs.Editing.StyleReads
import MarkupEditor.Proofs.Printer.Regeneration
import MarkupEditor.Proofs.Printer.Widening

set_option autoImplicit false

namespace MarkupEditor

open MarkupEditor.Parser

theorem Manner.plain_marksNumbers (keeps : Site → List (OpaquePart Unit) → Prop) : (plain keeps).MarksNumbers :=
  fun _ value h => absurd rfl (h value)

namespace Tree

variable {t u : Tree} {element attr container expression object declared id : NodeId} {name value : String}
  {span : Option Span}

/-- Whether a kept text, if it is one, has no comma outside its brackets. -/
def sparesComma (t : Tree) (id : NodeId) : Bool :=
  match t.kind? id with
  | some (.opaqueText parts) => KeptItem.spares [.comma] [] (KeptItem.ofParts parts)
  | _ => true

/-- An expression between braces that is kept whole is legible as the argument of a spread in an object, too, if it
has no comma outside its brackets. -/
theorem Legible.argument (h : t.Legible (.plain Manner.KeptWhole) (.expression [.closeBrace]) expression)
    (spares : t.sparesComma expression = true) :
    t.Legible (.plain Manner.KeptWhole) (.expression Listing.object.ends) expression := by
  have hends := Printer.listing_closes .object
  cases h with
  | @node _ _ node stored takes apart below =>
    obtain ⟨kind, span⟩ := node
    rw [sparesComma, kind?_of_get? stored] at spares
    cases kind with
    | opaqueText parts =>
      obtain ⟨-, ⟨-, c, d, kept⟩, closes⟩ := takes
      have narrow : [Punctuator.closeBrace] ⊆ Listing.object.ends := by decide
      have new : ∀ mark ∈ Listing.object.ends, mark ∈ [Punctuator.closeBrace] ∨ mark ∈ [Punctuator.comma] := by
        decide
      have wide := Printer.kept_wide narrow new hends kept closes (by rwa [KeptItem.ofParts_map])
      exact .node stored ⟨hends, ⟨hends, c, d, wide⟩, closes⟩ apart below
    | _ => exact .node stored ⟨hends, takes.2⟩ apart (NodeKind.sites_of_isStructured takes.2 _ _ ▸ below)

theorem Grounded.shape_of_same (h : t.Grounded id) (same : ∀ x, t.Reaches id x → u.get? x = t.get? x) :
    u.Grounded id ∧ u.shape id = t.shape id := by
  induction h with
  | intro id hchild ih =>
    have here := same id (.refl id)
    have children : u.childIds id = t.childIds id := by rw [childIds, childIds, kind?, kind?, here]
    have below : ∀ c ∈ t.childIds id, u.Grounded c ∧ u.shape c = t.shape c :=
      fun c hc => ih c hc fun x hx => same x (.step hc hx)
    have grounded : u.Grounded id := .intro fun c hc => (below c (children ▸ hc)).1
    refine ⟨grounded, ?_⟩
    cases hn : t.get? id with
    | none => rw [shape_of_none hn, shape_of_none (here.trans hn)]
    | some node =>
      rw [grounded.shape_eq (here.trans hn), Grounded.shape_eq (Acc.intro id hchild) hn]
      rw [childIds_of_get? hn] at below
      exact congrArg _ (NodeKind.map_congr fun c hc => (below c hc).2)

/-- What is left where an expression is spread into a new style object with a declaration after it. Other nodes
than the container stay as they are. -/
structure Spreads (t u : Tree) (container expression : NodeId) (name value : String) (object declared : NodeId) :
    Prop where
  frame : ∀ x : NodeId, x.index < t.size → container ≠ x → u.get? x = t.get? x
  outer : ∃ span, u.get? container = some ⟨.expressionContainer (some object), span⟩
  inner : u.get? object = some ⟨.object [⟨t.size⟩, declared], none⟩
  spread : u.get? ⟨t.size⟩ = some ⟨.spread expression, none⟩
  declares : u.DeclaresAs declared name value

section

variable (found : t.findAttribute? element styleAttribute = some attr) (holds : t.attributeValue? attr = some container)
  (hcontainer : t.get? container = some ⟨.expressionContainer (some expression), span⟩)
  (plain : t.isObject expression = false)

include found holds hcontainer plain

theorem ensureStyle_spread : t.ensureStyle element = some (t.spreadStyle container expression) := by
  have contained : t.contained? container = some expression := by rw [contained?, kind?_of_get? hcontainer]
  rw [ensureStyle, if_pos (isElement_of_findAttribute? found), found]
  simp only [ensureObject, holds, Option.bind_some, contained, plain]
  rfl

/-- No style is understood in an expression that is no object, so the one that is set is the only one. -/
theorem styled_spread (name : String) (filled : value ≠ "") :
    t.styled element name (some value) = [(name, value)] := by
  have contained : t.contained? container = some expression := by rw [contained?, kind?_of_get? hcontainer]
  have unstyled : t.styleObject? element = none := by
    rw [styleObject?, found, Option.bind_some, holds, Option.bind_some, contained, Option.filter_some, plain]
    rfl
  rw [Tree.styled, Option.filter_some, if_pos (decide_eq_true filled), readStyle, unstyled]
  rfl

theorem styleObject?_setStyle_spread (stored : t.Stored) (name : String) (value : Option String) :
    (t.setStyle element name value).styleObject? element = some (t.spreadStyle container expression).1 := by
  have helement := isElement_of_findAttribute? found
  obtain ⟨_, _, _, _, _, h⟩ := exists_of_isElement helement
  have ensure := ensureStyle_spread found holds hcontainer plain
  rw [setStyle_eq helement]
  exact styleObject?_writeStyle (stored.ensureStyle (lt_size_of_get? h) ensure) ensure
    (styleObject?_spread stored h hcontainer found holds) _

theorem setStyle_spread (name : String) (filled : value ≠ "") : ∃ declared,
    t.Spreads (t.setStyle element name (some value)) container expression name value
      (t.spreadStyle container expression).1 declared := by
  let object := (t.spreadStyle container expression).1
  let u := (t.spreadStyle container expression).2
  have ensure : t.ensureStyle element = some (object, u) := ensureStyle_spread found holds hcontainer plain
  obtain ⟨hcontainer', hobject, hspread, kept⟩ := spreadStyle_spec hcontainer
  let v := (u.allocDeclarations [(name, value)]).2
  have hobject' : v.get? object = _ := get?_allocDeclarations_object hobject [(name, value)]
  obtain ⟨written, -, declares⟩ := declares_allocDeclarations u [(name, value)]
  obtain ⟨declared, others, ⟨literal, hdeclared, hliteral⟩, none, added⟩ :=
    List.forall₂_cons_right_iff.1 declares
  cases List.forall₂_nil_right_iff.1 none
  have set : t.setStyle element name (some value) = v.setKind object (.object [⟨t.size⟩, declared]) := by
    rw [setStyle_eq (isElement_of_findAttribute? found), styled_spread found holds hcontainer plain name filled,
      writeStyle_eq ensure hobject, writeProperties_spread hspread, added]
    rfl
  have before (x : NodeId) (hx : x.index < u.size) : v.get? x = u.get? x :=
    (written.node x hx).resolve_right fun h => absurd h.1 List.not_mem_nil
  rw [set]
  refine ⟨declared, fun x hx ne => ?_, ⟨span, ?_⟩, get?_setKind_of_get? hobject' _, ?_, literal, ?_, ?_⟩
  · obtain ⟨node, hn⟩ := get?_isSome_iff.2 hx
    have old := (kept x hx ne).trans hn
    rw [get?_setKind_ne, before x (lt_size_of_get? old), kept x hx ne]
    rintro rfl
    exact absurd hx (Nat.not_lt.2 ((Nat.le_succ _).trans_eq (size_alloc t _).symm))
  · exact get?_setObject hobject' ((before _ (lt_size_of_get? hcontainer')).trans hcontainer') (by rintro _ ⟨⟩)
  · exact get?_setObject hobject' ((before _ (lt_size_of_get? hspread)).trans hspread) (by rintro _ ⟨⟩)
  · exact get?_setObject hobject' hdeclared (by rintro _ ⟨⟩)
  · exact get?_setObject hobject' hliteral (by rintro _ ⟨⟩)

end

theorem Grounded.elements_plain {node : Node} (h : t.Grounded id) (hn : t.get? id = some node)
    (plain : node.kind.isElement = false) :
    (t.preorder id).filter t.isElement = node.kind.children.flatMap fun c => (t.preorder c).filter t.isElement := by
  have none : t.isElement id = false := by
    rw [isElement, kind?_of_get? hn]
    exact plain
  rw [h.preorder_eq, List.filter_cons_of_neg (Bool.eq_false_iff.1 none), childIds_of_get? hn, List.filter_flatMap]

theorem Spreads.elements_below (h : t.Spreads u container expression name value object declared) (stored : t.Stored)
    (hcontainer : t.get? container = some ⟨.expressionContainer (some expression), span⟩) (grounded : t.Grounded id)
    (grounded' : u.Grounded id) (hid : id.index < t.size) :
    (u.preorder id).filter u.isElement = (t.preorder id).filter t.isElement := by
  obtain ⟨frame, ⟨span', outer⟩, inner, spread, literal, hdeclared, hliteral⟩ := h
  induction grounded with
  | intro id hchild ih =>
    have grounded : t.Grounded id := Acc.intro id hchild
    by_cases here : container = id
    · subst here
      have hobject := grounded'.of_kind? (kind?_of_get? outer) object (List.mem_singleton.2 rfl)
      have inside := hobject.of_kind? (kind?_of_get? inner)
      have hspread := inside ⟨t.size⟩ List.mem_cons_self
      have hexpression := hspread.of_kind? (kind?_of_get? spread) expression (List.mem_singleton.2 rfl)
      have mem : expression ∈ t.childIds container := childIds_of_get? hcontainer ▸ List.mem_singleton.2 rfl
      have same := ih expression mem hexpression (stored hcontainer expression (List.mem_singleton.2 rfl))
      have none : (u.preorder declared).filter u.isElement = [] := by
        have hdeclares := inside declared (List.mem_cons_of_mem _ (List.mem_singleton.2 rfl))
        have children : (NodeKind.property (.ofName name) literal false).children = [literal] := by
          rw [NodeKind.children, PropertyKey.children_of_name? (PropertyKey.name?_ofName name), List.nil_append]
        have hvalue := hdeclares.of_kind? (kind?_of_get? hdeclared) literal (children ▸ List.mem_singleton.2 rfl)
        rw [hdeclares.elements_plain hdeclared rfl, children, List.flatMap_singleton,
          hvalue.elements_plain hliteral rfl]
        rfl
      rw [grounded.elements_plain hcontainer rfl, grounded'.elements_plain outer rfl]
      simp only [NodeKind.children, Option.toList_some, List.flatMap_cons, List.flatMap_nil, List.append_nil, ← same,
        hobject.elements_plain inner rfl, hspread.elements_plain spread rfl, none]
    · have same := frame id hid here
      have children : u.childIds id = t.childIds id := by rw [childIds, childIds, kind?, kind?, same]
      have element : u.isElement id = t.isElement id := by rw [isElement, isElement, kind?, kind?, same]
      have below : (t.childIds id).flatMap (fun c => (u.preorder c).filter u.isElement) =
          (t.childIds id).flatMap fun c => (t.preorder c).filter t.isElement := by
        refine List.flatMap_congr fun c hc => ih c hc (grounded'.child (children ▸ hc)) ?_
        obtain ⟨node, hn, hmem⟩ := exists_get?_of_mem_childIds hc
        exact stored hn c hmem
      rw [grounded.preorder_eq, grounded'.preorder_eq, List.filter_cons, List.filter_cons, element, List.filter_flatMap,
        List.filter_flatMap, children, below]

theorem Grounded.spread_again {x y : NodeId} (h : t.Grounded x) (hx : t.get? x = some ⟨.spread expression, span⟩)
    (h' : u.Grounded y) (same : (u.shape y).erase true = (t.shape x).respelled.text.erase true) :
    ∃ argument, u.kind? y = some (.spread argument) ∧ u.printNode argument = t.printNode expression := by
  have kinds := congrArg Shape.kind? same
  rw [h.shape_eq hx, Shape.respelled_node, Shape.kind?_erase, Shape.kind?_erase, h'.kind?_shape] at kinds
  obtain ⟨kind, hkind, spread⟩ := Option.map_eq_some_iff.1 kinds
  obtain ⟨kind, hy, rfl⟩ := Option.map_eq_some_iff.1 hkind
  cases kind with
  | spread argument =>
    refine ⟨argument, hy, ?_⟩
    have argument := Shape.print_congr (NodeKind.spread.inj spread)
    exact argument.trans (t.shape expression).print_respelled
  | _ => cases spread

theorem Legible.declaration_again {m : Manner} {x y : NodeId} (h : t.Legible m .property x) (hm : m.MarksNumbers)
    (h' : u.Grounded y) (same : (u.shape y).erase true = (t.shape x).respelled.text.erase true) :
    u.declaration? y = t.declaration? x := by
  have reading : (u.shape y).reading = (t.shape x).reading :=
    calc (u.shape y).reading
      _ = ((t.shape x).respelled.text.erase true).reading := by rw [← same, Shape.reading_erase]
      _ = (t.shape x).respelled.text.reading := Shape.reading_erase true _
      _ = (t.shape x).reading := h.shape.readsAlike hm
  rw [← h'.reading_declaration, reading, h.grounded.reading_declaration]

section

variable {v : Tree} {element' : NodeId}

/-- The expression that is spread is printed as before: all below it was there before the container. -/
theorem Spreads.printNode (h : t.Spreads v container expression name value object declared) (ht : t.Descending)
    (hcontainer : t.get? container = some ⟨.expressionContainer (some expression), span⟩) :
    v.Grounded expression ∧ v.printNode expression = t.printNode expression := by
  have frame : ∀ x, t.Reaches expression x → v.get? x = t.get? x := by
    intro x hx
    have hlt : x.index < container.index :=
      Nat.lt_of_le_of_lt (ht.reaches_le hx) (ht hcontainer expression (List.mem_singleton.2 rfl))
    exact h.frame x (Nat.lt_trans hlt (lt_size_of_get? hcontainer)) (ne_of_index_ne (Nat.ne_of_gt hlt))
  obtain ⟨grounded, same⟩ := (ht.grounded expression).shape_of_same frame
  exact ⟨grounded, by rw [Tree.printNode, Tree.printNode, same]⟩

/-- Where an element with an expression that is spread is read again, its style has the spread and the declaration
again. -/
theorem Spreads.again (h : t.Spreads v container expression name value object declared) (ht : t.Descending)
    (hcontainer : t.get? container = some ⟨.expressionContainer (some expression), span⟩)
    (grounded : v.Grounded element) (styled : v.styleObject? element = some object) (grounded' : u.Grounded element')
    (same : (u.shape element').erase true = (v.shape element).respelled.text.erase true) :
    ∃ object' spread declared' argument, u.styleObject? element' = some object' ∧
      u.propertiesOf object' = [spread, declared'] ∧ u.kind? spread = some (.spread argument) ∧
      u.printNode argument = t.printNode expression ∧ u.declaration? declared' = some (name, value) := by
  have style := grounded.style_again grounded' same
  rw [styled, Option.map_some, propertiesOf, kind?_of_get? h.inner] at style
  obtain ⟨object', styled', properties⟩ := Option.map_eq_some_iff.1 style
  obtain ⟨spread, others, list, first, rest⟩ := List.map_eq_cons_iff.1 properties
  obtain ⟨declared', last, rfl, second, rest⟩ := List.map_eq_cons_iff.1 rest
  cases List.map_eq_nil_iff.1 rest
  have below : ∀ p ∈ [spread, declared'], u.Grounded p := by
    obtain ⟨_, hattr, _, hvalue, hobject⟩ := mem_childIds_of_styleObject? styled'
    obtain ⟨_, _, stored⟩ := exists_of_styleObject? styled'
    rw [propertiesOf, kind?_of_get? stored] at list
    refine list ▸ Grounded.of_kind? ?_ (kind?_of_get? stored)
    exact ((grounded'.child (mem_childIds_of_mem_attributesOf hattr)).child hvalue).child hobject
  obtain ⟨hexpression, printed⟩ := h.printNode ht hcontainer
  have hspread : v.Grounded ⟨t.size⟩ := .intro fun c hc => by
    rw [childIds_of_get? h.spread] at hc
    exact List.mem_singleton.1 hc ▸ hexpression
  obtain ⟨argument, again, same⟩ := hspread.spread_again h.spread (below spread List.mem_cons_self) first
  refine ⟨object', spread, declared', argument, styled', list, again, same.trans printed, ?_⟩
  obtain ⟨literal, hdeclared, hliteral⟩ := h.declares
  have declares : v.Declares declared := ⟨name, value, literal, none, hdeclared, hliteral⟩
  have legible : v.Legible (.plain Manner.KeptWhole) .property declared := declares.legible
  rw [legible.declaration_again (Manner.plain_marksNumbers _) (below declared' (by simp)) second]
  exact h.declares.declaration?

end

/-- Where a style is set on an expression that is no object, the code of the tree is accepted, and the style
of the element is an object of two properties there: a spread whose argument is printed as the expression,
and the new declaration. A comma outside the brackets of the expression would end the spread, and what a kept
text leaves open would go on behind it. -/
theorem spread_style {source : String} {i : Nat} (parsed : parse source = .ok t) (whole : t.KeptWhole)
    (place : t.elements[i]? = some element) (found : t.findAttribute? element styleAttribute = some attr)
    (holds : t.attributeValue? attr = some container) (contained : t.contained? container = some expression)
    (plain : t.isObject expression = false) (spares : t.sparesComma expression = true) (filled : value ≠ "") :
    ∃ u element' object spread declared argument,
      parse (t.setStyle element name (some value)).code = .ok u ∧ u.elements[i]? = some element' ∧
        u.styleObject? element' = some object ∧ u.propertiesOf object = [spread, declared] ∧
        u.kind? spread = some (.spread argument) ∧ u.printNode argument = t.printNode expression ∧
        u.declaration? declared = some (name, value) := by
  obtain ⟨span, hcontainer⟩ := exists_of_contained? contained
  obtain ⟨ht, hroot, -⟩ := parseWith_reads parsed
  have legible := whole.legible parsed
  obtain ⟨reached, helement⟩ := legible.grounded.mem_elements.1 (List.mem_of_getElem? place)
  obtain ⟨_, inside⟩ := legible.reaches reached
  have argument := ((inside.attribute found).held holds hcontainer).argument spares
  have ensures : ∀ object u, t.ensureStyle element = some (object, u) →
      t.Ensures (.plain Manner.KeptWhole) u object := by
    intro object u ensure
    cases (ensureStyle_spread found holds hcontainer plain).symm.trans ensure
    exact ensures_spread hcontainer argument
  obtain ⟨root, keeps⟩ := writeStyle_legible ensures (t.styled element name (some value))
  rw [← setStyle_eq helement] at root keeps
  have styled := styleObject?_setStyle_spread found holds hcontainer plain ht.stored name (some value)
  obtain ⟨declared, spreads⟩ := setStyle_spread found holds hcontainer plain name filled
  generalize t.setStyle element name (some value) = v at *
  have legible' : v.Legible (.plain Manner.KeptWhole) .root v.root := root.symm ▸ keeps .root t.root legible
  obtain ⟨u, hu, same⟩ := legible'.reparses Manner.rereadsKept_whole
  have grounded := (parse_legible hu).grounded
  have elements : v.elements = t.elements := by
    have below := spreads.elements_below ht.stored hcontainer legible.grounded (root ▸ legible'.grounded) hroot
    rw [legible'.grounded.elements_eq, legible.grounded.elements_eq, root, below]
  have again := congrArg (·[i]?) (legible'.elements_again grounded same)
  simp only [List.getElem?_map, elements, place, Option.map_some] at again
  obtain ⟨element', place', form⟩ := Option.map_eq_some_iff.1 again
  have helement' := grounded.reaches (grounded.mem_elements.1 (List.mem_of_getElem? place')).1
  obtain ⟨object', spread, declared', argument', found'⟩ :=
    spreads.again ht hcontainer (keeps _ element inside).grounded styled helement' form
  exact ⟨u, element', object', spread, declared', argument', hu, place', found'⟩

/-- Commas in brackets and in a string are part of the expression. -/
theorem spread_style_brackets : ∃ (t : Tree) (element attr container expression : NodeId),
    parse "<a><p style=\x7bx + f([1, y], \"3, 4\")\x7d /></a>" = .ok t ∧ t.KeptWhole ∧
      t.elements[1]? = some element ∧ t.findAttribute? element styleAttribute = some attr ∧
      t.attributeValue? attr = some container ∧ t.contained? container = some expression ∧
      t.isObject expression = false ∧ t.sparesComma expression = true ∧
      ∃ u element' object spread declared argument,
        parse (t.setStyle element "color" (some "red")).code = .ok u ∧ u.elements[1]? = some element' ∧
          u.styleObject? element' = some object ∧ u.propertiesOf object = [spread, declared] ∧
          u.kind? spread = some (.spread argument) ∧ u.printNode argument = t.printNode expression ∧
          u.declaration? declared = some ("color", "red") := by
  have told : (parse "<a><p style=\x7bx + f([1, y], \"3, 4\")\x7d /></a>").toOption.any (fun t =>
      (t.preorder t.root).all t.keepsWhole && t.elements[1]?.any fun e =>
        (t.findAttribute? e styleAttribute).any fun a => (t.attributeValue? a).any fun c =>
          (t.contained? c).any fun x => !t.isObject x && t.sparesComma x) = true := by
    decide +kernel
  obtain ⟨t, parsed, told⟩ := exists_parse told
  obtain ⟨whole, told⟩ := Bool.and_eq_true_iff.1 told
  obtain ⟨element, place, told⟩ := (Option.any_eq_true _ _).1 told
  obtain ⟨attr, found, told⟩ := (Option.any_eq_true _ _).1 told
  obtain ⟨container, holds, told⟩ := (Option.any_eq_true _ _).1 told
  obtain ⟨expression, contained, told⟩ := (Option.any_eq_true _ _).1 told
  obtain ⟨plain, spares⟩ := Bool.and_eq_true_iff.1 told
  rw [Bool.not_eq_true'] at plain
  have whole : t.KeptWhole := fun id hid =>
    List.all_eq_true.1 whole id ((parse_legible parsed).grounded.mem_preorder.2 hid)
  exact ⟨t, element, attr, container, expression, parsed, whole, place, found, holds, contained, plain, spares,
    spread_style parsed whole place found holds contained plain spares (by decide)⟩

/-- A comma outside brackets ends the spread, and what is after it is no property. -/
theorem spread_style_comma : ∃ (t u : Tree) (element attr container expression element' : NodeId),
    parse "<p style=\x7ba, b.c\x7d />" = .ok t ∧ t.elements[0]? = some element ∧
      t.findAttribute? element styleAttribute = some attr ∧ t.attributeValue? attr = some container ∧
      t.contained? container = some expression ∧ t.isObject expression = false ∧
      parse (t.setStyle element "color" (some "red")).code = .ok u ∧ u.elements[0]? = some element' ∧
      u.styleObject? element' = none := by
  have told : (parse "<p style=\x7ba, b.c\x7d />").toOption.any (fun t =>
      t.elements[0]?.any fun e => (t.findAttribute? e styleAttribute).any fun a => (t.attributeValue? a).any fun c =>
        (t.contained? c).any fun x => !t.isObject x &&
          (parse (t.setStyle e "color" (some "red")).code).toOption.any fun u =>
            u.elements[0]?.any fun e' => (u.styleObject? e').isNone) = true := by
    decide +kernel
  obtain ⟨t, parsed, told⟩ := exists_parse told
  obtain ⟨element, place, told⟩ := (Option.any_eq_true _ _).1 told
  obtain ⟨attr, found, told⟩ := (Option.any_eq_true _ _).1 told
  obtain ⟨container, holds, told⟩ := (Option.any_eq_true _ _).1 told
  obtain ⟨expression, contained, told⟩ := (Option.any_eq_true _ _).1 told
  obtain ⟨plain, told⟩ := Bool.and_eq_true_iff.1 told
  obtain ⟨u, parsed', told⟩ := exists_parse told
  obtain ⟨element', place', none⟩ := (Option.any_eq_true _ _).1 told
  rw [Bool.not_eq_true'] at plain
  exact ⟨t, u, element, attr, container, expression, element', parsed, place, found, holds, contained,
    plain, parsed', place', Option.isNone_iff_eq_none.1 none⟩

end Tree

end MarkupEditor
