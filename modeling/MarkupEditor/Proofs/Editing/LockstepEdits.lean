import MarkupEditor.Proofs.Editing.Lockstep

set_option autoImplicit false

namespace MarkupEditor.Tree

variable {inner : NodeId → Prop} {t t' u u' : Tree} {x y : NodeId}

namespace Lockstep

section

variable (s : Shares inner t t')

include s

theorem setValue (h : Lockstep inner t t' u u') (hx : Known inner t t' u x) (hy : Known inner t t' u y) :
    Yields inner t t' u [] [] (u.setValue x y) (u'.setValue (moved t t' x) (moved t t' y)) := by
  unfold Tree.setValue
  rcases h.kind? hx with eq | ⟨hu, hu'⟩
  · rw [eq]
    cases hk : u.kind? x with
    | none => exact h.yields
    | some kind =>
      cases kind with
      | namedAttribute name value =>
        have plain : u.isElement x = false := by
          rw [Tree.isElement, hk]
          rfl
        obtain ⟨node, hn, -⟩ := Option.map_eq_some_iff.1 hk
        refine .nil (h.setKind s _ (h.writable hx plain) (lt_size_of_get? hn) fun c hc => ?_) ?_
        · obtain rfl := List.mem_singleton.1 hc
          exact hy
        · rw [size_setKind]
      | _ => exact h.yields
  · obtain ⟨_, _, _, _, _, hn⟩ := exists_of_isElement hu
    obtain ⟨_, _, _, _, _, hn'⟩ := exists_of_isElement hu'
    rw [kind?_of_get? hn, kind?_of_get? hn']
    exact h.yields

theorem setAttributes (h : Lockstep inner t t' u u') (hx : Writable inner t x) (as : List NodeId)
    (known : ∀ a ∈ as, Known inner t t' u a) :
    Yields inner t t' u [] [] (u.setAttributes x as)
      (u'.setAttributes (moved t t' x) (as.map (moved t t'))) := by
  unfold Tree.setAttributes
  rw [h.kind?_written hx]
  cases hk : u.kind? x with
  | none => exact h.yields
  | some kind =>
    cases kind with
    | element name old xs closed =>
      obtain ⟨node, hn, -⟩ := Option.map_eq_some_iff.1 hk
      refine .nil (h.setKind s _ hx (lt_size_of_get? hn) fun c hc => ?_) ?_
      · rcases List.mem_append.1 hc with hc | hc
        · exact known c hc
        · refine h.below x hx c ?_
          rw [childIds, hk]
          exact List.mem_append_right _ hc
      · rw [size_setKind]
    | _ => exact h.yields

theorem addAttribute (h : Lockstep inner t t' u u') (hx : Writable inner t x) (hy : Known inner t t' u y)
    (name : String) :
    Yields inner t t' u [] [] (u.addAttribute x name y)
      (u'.addAttribute (moved t t' x) name (moved t t' y)) := by
  have attr := h.yields_alloc s (.namedAttribute name (some y)) fun c hc =>
    List.mem_singleton.1 hc ▸ hy
  have set := attr.trees.setAttributes s hx
    ((u.alloc (.namedAttribute name (some y))).2.attributesOf x ++
      [(u.alloc (.namedAttribute name (some y))).1]) fun a ha =>
    (List.mem_append.1 ha).elim (attr.trees.known_attribute hx) (attr.known a)
  rw [List.map_append, ← attr.trees.attributesOf hx, ← attr.moves] at set
  exact attr.trans set

theorem yields_literal (h : Lockstep inner t t' u u') (value : Literal) :
    Yields inner t t' u [(u.alloc (.literal value none)).1] [(u'.alloc (.literal value none)).1]
      (u.alloc (.literal value none)).2 (u'.alloc (.literal value none)).2 :=
  h.yields_alloc s (.literal value none) nofun

theorem setAttribute (h : Lockstep inner t t' u u') (hx : Writable inner t x) (hk : Known inner t t' u x)
    (name : String) (value : Literal) :
    Yields inner t t' u [] [] (u.setAttribute x name value) (u'.setAttribute (moved t t' x) name value) := by
  unfold Tree.setAttribute
  rw [h.isElement hk]
  split
  · have literal := h.yields_literal s value
    obtain ⟨moves, known⟩ := literal.head
    dsimp only
    rw [literal.trees.findAttribute? hx, moves]
    refine literal.trans ?_
    cases found : (u.alloc (.literal value none)).2.findAttribute? x name with
    | none => exact literal.trees.addAttribute s hx known name
    | some attr =>
      exact literal.trees.setValue s
        (literal.trees.known_attribute hx (exists_of_findAttribute? found).1) known
  · exact h.yields

theorem allocDeclaration (h : Lockstep inner t t' u u') (name value : String) :
    Yields inner t t' u [(u.allocDeclaration name value).1] [(u'.allocDeclaration name value).1]
      (u.allocDeclaration name value).2 (u'.allocDeclaration name value).2 := by
  have literal := h.yields_literal s (.string value)
  obtain ⟨moves, known⟩ := literal.head
  have property := literal.trees.yields_alloc s
    (.property (.ofName name) (u.alloc (.literal (.string value) none)).1 false) fun c hc => by
      rw [NodeKind.children, PropertyKey.children_of_name? (PropertyKey.name?_ofName name)] at hc
      exact List.mem_singleton.1 hc ▸ known
  rw [NodeKind.map, PropertyKey.map_ofName, ← moves] at property
  exact literal.trans property

theorem allocDeclarations (h : Lockstep inner t t' u u') (styles : StyleMap) :
    Yields inner t t' u (u.allocDeclarations styles).1 (u'.allocDeclarations styles).1
      (u.allocDeclarations styles).2 (u'.allocDeclarations styles).2 := by
  induction styles generalizing u u' with
  | nil => exact h.yields
  | cons entry styles ih =>
    have first := h.allocDeclaration s entry.1 entry.2
    exact first.append (ih first.trees)

theorem setDeclaration (h : Lockstep inner t t' u u') (hx : Known inner t t' u x) (value : String) :
    Yields inner t t' u [] [] (u.setDeclaration x value) (u'.setDeclaration (moved t t' x) value) := by
  have literal := h.yields_literal s (.string value)
  obtain ⟨moves, known⟩ := literal.head
  refine literal.trans ?_
  unfold Tree.setDeclaration
  dsimp only
  rw [moves]
  have hx := hx.mono literal.later
  have trees := literal.trees
  generalize u.alloc (.literal (.string value) none) = r at *
  generalize u'.alloc (.literal (.string value) none) = r' at *
  rcases trees.kind? hx with eq | ⟨hu, hu'⟩
  · rw [eq]
    cases hk : r.2.kind? x with
    | none => exact trees.yields
    | some kind =>
      cases kind with
      | property key old shorthand =>
        have plain : r.2.isElement x = false := by
          rw [Tree.isElement, hk]
          rfl
        obtain ⟨node, hn, -⟩ := Option.map_eq_some_iff.1 hk
        refine .nil (trees.setKind s _ (trees.writable hx plain) (lt_size_of_get? hn) fun c hc => ?_) ?_
        · rcases List.mem_append.1 hc with hc | hc
          · refine trees.known_child hx plain ?_
            rw [childIds, hk]
            exact List.mem_append_left _ hc
          · exact List.mem_singleton.1 hc ▸ known
        · rw [size_setKind]
      | _ => exact trees.yields
  · obtain ⟨_, _, _, _, _, hn⟩ := exists_of_isElement hu
    obtain ⟨_, _, _, _, _, hn'⟩ := exists_of_isElement hu'
    rw [kind?_of_get? hn, kind?_of_get? hn']
    exact trees.yields

theorem writeProperty (h : Lockstep inner t t' u u') (hx : Known inner t t' u x) (styles : StyleMap) :
    (u'.writeProperty styles (moved t t' x)).2.1 = (u.writeProperty styles x).2.1 ∧
      Yields inner t t' u (u.writeProperty styles x).1.toList (u'.writeProperty styles (moved t t' x)).1.toList
        (u.writeProperty styles x).2.2 (u'.writeProperty styles (moved t t' x)).2.2 := by
  have stays : Yields inner t t' u [x] [moved t t' x] u u' :=
    ⟨h, rfl, fun y hy => List.mem_singleton.1 hy ▸ hx, Nat.le_refl _⟩
  unfold Tree.writeProperty
  rw [h.declaration? hx, h.propertyName? hx]
  cases u.declaration? x with
  | some entry =>
    obtain ⟨name, current⟩ := entry
    dsimp only
    cases styles.get? name with
    | none => exact ⟨rfl, h.yields⟩
    | some value =>
      refine ⟨rfl, ?_⟩
      dsimp only
      split
      · exact stays
      · have set := h.setDeclaration s hx value
        exact ⟨set.trees, rfl, fun y hy => (stays.known y hy).mono set.later, set.later⟩
  | none =>
    dsimp only
    cases u.propertyName? x with
    | none => exact ⟨rfl, stays⟩
    | some name =>
      dsimp only
      cases styles.get? name with
      | none => exact ⟨rfl, stays⟩
      | some value => exact ⟨rfl, h.allocDeclaration s name value⟩

theorem writeProperties (h : Lockstep inner t t' u u') {properties : List NodeId}
    (known : ∀ p ∈ properties, Known inner t t' u p) (styles : StyleMap) :
    (u'.writeProperties styles (properties.map (moved t t'))).2.1 = (u.writeProperties styles properties).2.1 ∧
      Yields inner t t' u (u.writeProperties styles properties).1
        (u'.writeProperties styles (properties.map (moved t t'))).1
        (u.writeProperties styles properties).2.2
        (u'.writeProperties styles (properties.map (moved t t'))).2.2 := by
  induction properties generalizing u u' styles with
  | nil => exact ⟨rfl, h.yields⟩
  | cons p properties ih =>
    obtain ⟨left, first⟩ := h.writeProperty s (known p List.mem_cons_self) styles
    obtain ⟨rest, others⟩ := ih first.trees
      (fun q hq => (known q (List.mem_cons_of_mem p hq)).mono first.later) (u.writeProperty styles p).2.1
    simp only [List.map_cons, Tree.writeProperties]
    rw [left]
    exact ⟨rest, first.append others⟩

theorem allocStyle (h : Lockstep inner t t' u u') :
    Yields inner t t' u [(u.allocStyle []).1, (u.allocStyle []).2.1]
      [(u'.allocStyle []).1, (u'.allocStyle []).2.1] (u.allocStyle []).2.2 (u'.allocStyle []).2.2 := by
  have object := h.yields_alloc s (.object []) nofun
  obtain ⟨moves, known⟩ := object.head
  have container := object.trees.yields_alloc s
    (.expressionContainer (some (u.alloc (.object [])).1)) fun c hc =>
    List.mem_singleton.1 hc ▸ known
  simp only [NodeKind.map, Option.map_some, List.map_nil, ← moves] at container
  exact object.append container

theorem ensureObject (h : Lockstep inner t t' u u') (hx : Known inner t t' u x) :
    Yields inner t t' u [(u.ensureObject x).1] [(u'.ensureObject (moved t t' x)).1]
      (u.ensureObject x).2 (u'.ensureObject (moved t t' x)).2 := by
  have replaced : Yields inner t t' u [(u.allocStyle []).1] [(u'.allocStyle []).1]
      ((u.allocStyle []).2.2.setValue x (u.allocStyle []).2.1)
      ((u'.allocStyle []).2.2.setValue (moved t t' x) (u'.allocStyle []).2.1) := by
    have style := h.allocStyle s
    obtain ⟨object, container⟩ := List.cons.inj style.moves
    rw [object, List.head_eq_of_cons_eq container]
    have set := style.trees.setValue s (hx.mono style.later)
      (style.known (u.allocStyle []).2.1 (List.mem_cons_of_mem _ (List.mem_singleton.2 rfl)))
    exact ⟨set.trees, rfl, fun y hy => List.mem_singleton.1 hy ▸
      (style.known _ List.mem_cons_self).mono set.later, Nat.le_trans style.later set.later⟩
  unfold Tree.ensureObject
  dsimp only
  rw [h.attributeValue? hx]
  cases value : u.attributeValue? x with
  | none => exact replaced
  | some container =>
    have hc := h.known_attributeValue hx value
    simp only [Option.map_some, Option.bind_some]
    rw [h.contained? hc]
    cases contained : u.contained? container with
    | none => exact replaced
    | some expression =>
      have he := h.known_contained hc contained
      simp only [Option.map_some]
      rw [h.isObject he]
      split
      · exact ⟨h, rfl, fun y hy => List.mem_singleton.1 hy ▸ he, Nat.le_refl _⟩
      · have spread := h.yields_alloc s (.spread expression) fun c hc' =>
          List.mem_singleton.1 hc' ▸ he
        have object := spread.trees.yields_alloc s
          (.object [(u.alloc (.spread expression)).1]) spread.known
        simp only [NodeKind.map] at spread object
        rw [← spread.moves] at object
        obtain ⟨moves, known⟩ := object.head
        obtain ⟨span, hn⟩ := exists_of_contained? contained
        have plain : u.isElement container = false := by
          rw [Tree.isElement, kind?_of_get? hn]
          rfl
        have later := Nat.le_trans spread.later object.later
        have set := object.trees.setKind s
          (.expressionContainer
            (some ((u.alloc (.spread expression)).2.alloc (.object [(u.alloc (.spread expression)).1])).1))
          (h.writable hc plain)
          (Nat.lt_of_lt_of_le (lt_size_of_get? hn) later) fun c hc' => List.mem_singleton.1 hc' ▸ known
        simp only [NodeKind.map, Option.map_some, ← moves] at set
        refine ⟨set, object.moves, fun y hy => (object.known y hy).mono ?_, Nat.le_trans later ?_⟩ <;>
          rw [size_setKind]

theorem ensureStyle (h : Lockstep inner t t' u u') (hx : Writable inner t x) (hk : Known inner t t' u x) :
    (u.ensureStyle x = none ∧ u'.ensureStyle (moved t t' x) = none) ∨
      ∃ r r', u.ensureStyle x = some r ∧ u'.ensureStyle (moved t t' x) = some r' ∧
        Yields inner t t' u [r.1] [r'.1] r.2 r'.2 := by
  unfold Tree.ensureStyle
  rw [h.isElement hk, h.findAttribute? hx]
  split
  · right
    cases found : u.findAttribute? x styleAttribute with
    | some attr =>
      exact ⟨_, _, rfl, rfl, h.ensureObject s (h.known_attribute hx (exists_of_findAttribute? found).1)⟩
    | none =>
      have style := h.allocStyle s
      obtain ⟨object, container⟩ := List.cons.inj style.moves
      have add := style.trees.addAttribute s hx
        (style.known (u.allocStyle []).2.1 (List.mem_cons_of_mem _ (List.mem_singleton.2 rfl))) styleAttribute
      rw [← List.head_eq_of_cons_eq container] at add
      exact ⟨_, _, rfl, rfl, add.trees, congrArg (fun o => [o]) object, fun y hy => List.mem_singleton.1 hy ▸
        (style.known _ List.mem_cons_self).mono add.later, Nat.le_trans style.later add.later⟩
  · exact .inl ⟨rfl, rfl⟩

theorem writeStyle (h : Lockstep inner t t' u u') (hx : Writable inner t x) (hk : Known inner t t' u x)
    (styles : StyleMap) :
    Lockstep inner t t' (u.writeStyle x styles) (u'.writeStyle (moved t t' x) styles) := by
  unfold Tree.writeStyle
  obtain ⟨none, none'⟩ | ⟨r, r', some, some', ensured⟩ := h.ensureStyle s hx hk
  · rw [none, none']
    exact h
  · rw [some, some']
    obtain ⟨moves, known⟩ := ensured.head
    have properties : ∀ p ∈ r.2.propertiesOf r.1, Known inner t t' r.2 p := fun p hp =>
      ensured.trees.known_property known hp
    obtain ⟨left, written⟩ := ensured.trees.writeProperties s properties styles
    dsimp only
    rw [moves, ensured.trees.propertiesOf known, left]
    have added := written.trees.allocDeclarations s
      (r.2.writeProperties styles (r.2.propertiesOf r.1)).2.1
    have all := written.append added
    have known := known.mono all.later
    rw [all.trees.isObject known]
    split
    · rename_i object
      obtain ⟨_, _, hn⟩ := exists_of_isObject object
      have plain : ((r.2.writeProperties styles (r.2.propertiesOf r.1)).2.2.allocDeclarations
          (r.2.writeProperties styles (r.2.propertiesOf r.1)).2.1).2.isElement r.1 = false := by
        rw [Tree.isElement, kind?_of_get? hn]
        rfl
      rw [all.moves]
      exact all.trees.setKind s _ (all.trees.writable known plain) (lt_size_of_get? hn) all.known
    · exact all.trees

omit s in
theorem styleObject? (h : Lockstep inner t t' u u') (hx : Writable inner t x) :
    u'.styleObject? (moved t t' x) = (u.styleObject? x).map (moved t t') ∧
      ∀ object ∈ u.styleObject? x, Known inner t t' u object := by
  unfold Tree.styleObject?
  rw [h.findAttribute? hx]
  cases found : u.findAttribute? x styleAttribute with
  | none => exact ⟨rfl, nofun⟩
  | some attr =>
    have ha := h.known_attribute hx (exists_of_findAttribute? found).1
    simp only [Option.map_some, Option.bind_some]
    rw [h.attributeValue? ha]
    cases value : u.attributeValue? attr with
    | none => exact ⟨rfl, nofun⟩
    | some container =>
      have hc := h.known_attributeValue ha value
      simp only [Option.map_some, Option.bind_some]
      rw [h.contained? hc]
      cases contained : u.contained? container with
      | none => exact ⟨rfl, nofun⟩
      | some expression =>
        have he := h.known_contained hc contained
        simp only [Option.map_some, Option.filter_some]
        rw [h.isObject he]
        split
        · exact ⟨rfl, fun object ho => Option.some.inj ho ▸ he⟩
        · exact ⟨rfl, nofun⟩

omit s in
theorem readStyle (h : Lockstep inner t t' u u') (hx : Writable inner t x) :
    u'.readStyle (moved t t' x) = u.readStyle x := by
  obtain ⟨moves, known⟩ := h.styleObject? hx
  unfold Tree.readStyle
  rw [moves]
  cases hobject : u.styleObject? x with
  | none => rfl
  | some object =>
    have ho := known object hobject
    simp only [Option.map_some]
    have same : (u.propertiesOf object).filterMap (u'.declaration? ∘ moved t t') =
        (u.propertiesOf object).filterMap u.declaration? :=
      List.filterMap_congr fun p hp => h.declaration? (h.known_property ho hp)
    rw [h.propertiesOf ho, List.filterMap_map, same]

theorem setStyle (h : Lockstep inner t t' u u') (hx : Writable inner t x) (hk : Known inner t t' u x)
    (name : String) (value : Option String) :
    Lockstep inner t t' (u.setStyle x name value) (u'.setStyle (moved t t' x) name value) := by
  unfold Tree.setStyle
  rw [h.isElement hk, h.readStyle hx]
  split
  · dsimp only
    split <;> exact h.writeStyle s hx hk _
  · exact h

theorem setText (h : Lockstep inner t t' u u') (hx : Writable inner t x) (text : String) :
    Lockstep inner t t' (u.setText x text) (u'.setText (moved t t' x) text) := by
  unfold Tree.setText
  rw [h.kind?_written hx]
  cases hk : u.kind? x with
  | none => exact h
  | some kind =>
    obtain ⟨node, hn, -⟩ := Option.map_eq_some_iff.1 hk
    cases kind with
    | text old raw => exact h.setKind s _ hx (lt_size_of_get? hn) nofun
    | element name as xs closed =>
      have child := h.yields_alloc s (.text text none) nofun
      have set := child.trees.setKind s (.element name as [(u.alloc (.text text none)).1] closed) hx
        (Nat.lt_of_lt_of_le (lt_size_of_get? hn) child.later) fun c hc => by
          rcases List.mem_append.1 hc with hc | hc
          · refine (h.below x hx c ?_).mono child.later
            rw [childIds, hk]
            exact List.mem_append_left _ hc
          · exact child.known c hc
      simp only [NodeKind.map, ← child.moves] at set
      exact set
    | _ => exact h

omit s in
theorem canEditText (h : Lockstep inner t t' u u') (hx : Writable inner t x) :
    u'.canEditText (moved t t' x) = u.canEditText x := by
  unfold Tree.canEditText
  rw [h.kind?_written hx]
  cases hk : u.kind? x with
  | none => rfl
  | some kind =>
    cases kind with
    | element name as xs closed =>
      have known : ∀ c ∈ xs, Known inner t t' u c := fun c hc => h.below x hx c (by
        rw [childIds, hk]
        exact List.mem_append_right _ hc)
      simp only [Option.map_some, NodeKind.map]
      clear hk
      induction xs with
      | nil => rfl
      | cons c xs ih =>
        rw [List.map_cons, List.all_cons, List.all_cons, h.isText (known c List.mem_cons_self),
          ih fun d hd => known d (List.mem_cons_of_mem c hd)]
    | _ => rfl

theorem perform (h : Lockstep inner t t' u u') (hx : Writable inner t x) (hk : Known inner t t' u x)
    (m : Mutation) : Lockstep inner t t' (m.perform u x) (m.perform u' (moved t t' x)) := by
  unfold Mutation.perform
  split
  · exact h
  · cases m with
    | setText text => exact h.setText s hx text
    | setStyle property value => exact h.setStyle s hx hk property value
    | setAttribute name value => exact (h.setAttribute s hx hk name value).trees

end

end Lockstep

/-- A request for an inner node is answered in the same way on both trees, and the runs that carry it out go
in lockstep. -/
theorem Shares.perform (s : Shares inner t t') (hx : inner x) (m : Mutation) :
    m.validate t' x = m.validate t x ∧ Lockstep inner t t' (m.perform t x) (m.perform t' x) := by
  have known : Known inner t t' t x := .inl hx
  have canEditText := s.lockstep.canEditText (.inl hx)
  have isElement := s.lockstep.isElement known
  have perform := s.lockstep.perform s (.inl hx) known m
  rw [s.moved_inner hx] at canEditText isElement perform
  refine ⟨?_, perform⟩
  unfold Mutation.validate
  rw [s.same x hx, canEditText, isElement]

theorem Stored.shares (stored : t.Stored) : Shares (fun y => y.index < t.size) t t :=
  ⟨fun _ => id, fun _ => id, fun _ _ => rfl, fun y _ c hc => .inl (by
    obtain ⟨_, hn, hmem⟩ := exists_get?_of_mem_childIds hc
    exact stored hn c hmem)⟩

theorem Stored.perform (stored : t.Stored) (hx : x.index < t.size) (m : Mutation) : (m.perform t x).Stored :=
  (stored.shares.perform hx m).2.stored stored.shares stored

theorem Stored.ensureStyle {object : NodeId} (stored : t.Stored) (hx : x.index < t.size)
    (ensure : t.ensureStyle x = some (object, u)) : u.Stored := by
  obtain ⟨none, -⟩ | ⟨_, _, some, -, yields⟩ :=
    stored.shares.lockstep.ensureStyle stored.shares (.inl hx) (.inl hx)
  · cases none.symm.trans ensure
  · cases some.symm.trans ensure
    exact yields.trees.stored stored.shares stored

end MarkupEditor.Tree
