import MarkupEditor.Proofs.Editing.ElementForms

set_option autoImplicit false

namespace MarkupEditor

namespace Tree

variable {t u : Tree} {e id : NodeId} {elements : List NodeId} {span : Option Span} {name : String}
  {as xs : List NodeId} {closed : Bool}

theorem removeMarkers_eq (h : t.get? e = some (elementNode span name as xs closed)) :
    t.removeMarkers e = t.setKind e (.element name (as.filter fun a => !t.isMarker a) xs closed) := by
  rw [removeMarkers, attributesOf_eq h, setAttributes_eq h]

theorem isMarker_removeMarkers (h : t.get? e = some (elementNode span name as xs closed)) (a : NodeId) :
    (t.removeMarkers e).isMarker a = t.isMarker a := by
  rw [removeMarkers_eq h]
  by_cases same : e = a
  · subst same
    rw [isMarker_of_get? (get?_setKind_of_get? h _), isMarker_of_get? h]
  · rw [isMarker, isMarker, isNamed, isNamed, kind?, kind?, get?_setKind_ne same]

/-- What a tree is after the markers of some elements were removed. -/
structure Stripped (t : Tree) (elements : List NodeId) (u : Tree) : Prop where
  root : u.root = t.root
  old : ∀ id, id ∉ elements → u.get? id = t.get? id
  stripped : ∀ e span name as xs closed, e ∈ elements → t.get? e = some (elementNode span name as xs closed) →
    u.get? e = some (elementNode span name (as.filter fun a => !t.isMarker a) xs closed)

theorem stripped_foldl (distinct : elements.Nodup) (all : t.AreElements elements) :
    t.Stripped elements (elements.foldl removeMarkers t) := by
  induction elements generalizing t with
  | nil => exact ⟨rfl, fun _ _ => rfl, fun _ _ _ _ _ _ he => absurd he List.not_mem_nil⟩
  | cons e es ih =>
    obtain ⟨new, distinct⟩ := List.nodup_cons.1 distinct
    obtain ⟨span, name, as, xs, closed, h, -⟩ := all e List.mem_cons_self
    have other : ∀ id, id ≠ e → (t.removeMarkers e).get? id = t.get? id := fun id hid => by
      rw [removeMarkers_eq h, get?_setKind_ne (Ne.symm hid)]
    have size : (t.removeMarkers e).size = t.size := by rw [removeMarkers_eq h, size_setKind]
    have rest : (t.removeMarkers e).AreElements es := fun e' he' => by
      obtain ⟨span', name', as', xs', closed', hget, hstored⟩ := all e' (List.mem_cons_of_mem e he')
      refine ⟨span', name', as', xs', closed', ?_, size ▸ hstored⟩
      rw [other e' fun same => new (same ▸ he'), hget]
    have stripped := ih distinct rest
    refine ⟨?_, fun id hid => ?_, fun e' span' name' as' xs' closed' he' hget => ?_⟩
    · rw [List.foldl_cons, stripped.root, removeMarkers_eq h]
      rfl
    · obtain ⟨hne, hnot⟩ := not_or.1 fun hmem => hid (List.mem_cons.2 hmem)
      rw [List.foldl_cons, stripped.old id hnot, other id hne]
    · by_cases first : e' = e
      · subst first
        rw [h] at hget
        cases hget
        rw [List.foldl_cons, stripped.old e' new, removeMarkers_eq h]
        exact get?_setKind_of_get? h _
      · have he' := (List.mem_cons.1 he').resolve_left first
        rw [← other e' first] at hget
        rw [List.foldl_cons, stripped.stripped e' span' name' as' xs' closed' he' hget]
        simp only [isMarker_removeMarkers h]

theorem Stripped.shape (s : t.Stripped elements u) (all : t.AreElements elements)
    (every : ∀ x, t.Reaches id x → t.isElement x = true → x ∈ elements) (h : t.Grounded id) :
    u.Grounded id ∧ u.shape id = (t.shape id).unmarked := by
  induction h with
  | intro id hchild ih =>
    have hgrounded : t.Grounded id := Acc.intro id hchild
    have below : ∀ child ∈ t.childIds id, u.Grounded child ∧ u.shape child = (t.shape child).unmarked :=
      fun child hc => ih child hc fun x hx => every x (.step hc hx)
    by_cases hid : id ∈ elements
    · obtain ⟨span, name, as, xs, closed, hget, -⟩ := all id hid
      have hu := s.stripped id span name as xs closed hid hget
      rw [childIds_of_get? hget] at below
      have kept : ∀ a ∈ as, (u.shape a).isMarker = t.isMarker a := fun a ha => by
        have child : a ∈ t.childIds id := by
          rw [childIds_of_get? hget]
          exact List.mem_append_left _ ha
        rw [(below a (List.mem_append_left _ ha)).2, Shape.isMarker_unmarked, (hgrounded.child child).isMarker_shape]
      have grounded : u.Grounded id := by
        refine .intro fun child hc => ?_
        rw [childIds_of_get? hu] at hc
        rcases List.mem_append.1 hc with hc | hc
        · exact (below child (List.mem_append_left _ (List.mem_filter.1 hc).1)).1
        · exact (below child (List.mem_append_right _ hc)).1
      refine ⟨grounded, ?_⟩
      have attributes : ((as.map t.shape).map Shape.unmarked).filter (fun a => !a.isMarker) =
          (as.filter fun a => !t.isMarker a).map u.shape := by
        have same : as.map (Shape.unmarked ∘ t.shape) = as.map u.shape :=
          List.map_congr_left fun a ha => ((below a (List.mem_append_left _ ha)).2).symm
        rw [List.map_map, same, List.filter_map]
        exact congrArg _ (List.filter_congr fun a ha => congrArg (! ·) (kept a ha))
      have children : (xs.map t.shape).map Shape.unmarked = xs.map u.shape := by
        rw [List.map_map]
        exact List.map_congr_left fun x hx => ((below x (List.mem_append_right _ hx)).2).symm
      rw [grounded.shape_eq hu, hgrounded.shape_eq hget, Shape.unmarked_node]
      simp only [NodeKind.map, NodeKind.unmarked, attributes, children]
    · have same := s.old id hid
      cases hn : t.get? id with
      | none =>
        rw [hn] at same
        rw [shape_of_none hn, shape_of_none same]
        refine ⟨.intro fun child hc => ?_, rfl⟩
        rw [childIds_of_none same] at hc
        cases hc
      | some node =>
        rw [hn] at same
        rw [childIds_of_get? hn] at below
        have grounded : u.Grounded id := by
          refine .intro fun child hc => ?_
          rw [childIds_of_get? same] at hc
          exact (below child hc).1
        refine ⟨grounded, ?_⟩
        have plain : t.isElement id = false := Bool.eq_false_iff.2 fun element => hid (every id (.refl id) element)
        have forms : (node.kind.map t.shape).map Shape.unmarked = node.kind.map u.shape := by
          rw [NodeKind.map_map]
          exact NodeKind.map_congr fun child hc => ((below child hc).2).symm
        rw [grounded.shape_eq same, hgrounded.shape_eq hn, Shape.unmarked_node, forms]
        rw [isElement, kind?_of_get? hn] at plain
        obtain ⟨kind, span⟩ := node
        cases kind with
        | element => cases plain
        | _ => rfl

end Tree

theorem stripMarkers_eq {source : String} {t : Tree} (parsed : parse source = .ok t) :
    stripMarkers source = .ok (String.ofList (dropLastSemicolon (t.shape t.root).unmarked.print)) := by
  obtain ⟨descending, -, -⟩ := parseWith_reads parsed
  have grounded := descending.grounded t.root
  have all := Tree.areElements_elements grounded descending.stored
  have stripped := Tree.stripped_foldl (parseWith_wellFormed parsed).nodup_elements all
  have shape := (stripped.shape all (fun x hx element => grounded.mem_elements.2 ⟨hx, element⟩) grounded).2
  rw [stripMarkers, parsed]
  change Except.ok (String.ofList (dropLastSemicolon (Tree.shape _ (Tree.root _)).print)) = _
  rw [stripped.root, shape]

namespace Shape

theorem unmarked_erase (s : Shape) : (s.erase true).unmarked = s.unmarked.erase true := by
  induction s using Shape.induction with
  | missing => rfl
  | node span kind ih =>
    have below : (kind.map (erase true)).map unmarked = (kind.map unmarked).map (erase true) := by
      rw [NodeKind.map_map, NodeKind.map_map]
      exact NodeKind.map_congr ih
    rw [erase_node, NodeKind.erase_true, unmarked_node, unmarked_node, erase_node, NodeKind.erase_true, below]
    congr 1
    cases kind.map unmarked with
    | element name as xs closed =>
      simp only [NodeKind.map, NodeKind.unmarked, List.filter_map, Function.comp_def, isMarker_erase]
    | _ => rfl

theorem Legible.unmarked_silent {m : Manner} {s : Shape} (h : s.Legible m .child) :
    s.unmarked.print = [] ↔ s.print = [] := by
  cases h with
  | @node _ span kind takes =>
    have both {before after : List Char} (hbefore : before ≠ []) (hafter : after ≠ []) :
        after = [] ↔ before = [] :=
      iff_of_false hafter hbefore
    rw [unmarked_node, print_node, print_node]
    cases kind with
    | text => exact Iff.rfl
    | expressionContainer e => cases e <;> exact both (List.cons_ne_nil _ _) (List.cons_ne_nil _ _)
    | fragment xs => exact both (List.cons_ne_nil _ _) (List.cons_ne_nil _ _)
    | element name as xs closed =>
      refine both (fun h => ?_) fun h => ?_
      all_goals
        simp only [NodeKind.map, NodeKind.unmarked, NodeKind.printed] at h
        split at h <;> cases h
    | _ => exact takes.elim

end Shape

def Shape.StripsAlike (s : Shape) : Prop :=
  s.respelled.text.unmarked = s.unmarked.respelled.text ∧ s.respelled.value.unmarked = s.unmarked.respelled.value

theorem Literal.unmarked_respelled (value : Literal) (raw : Option String) :
    ((value.respelled raw).map Shape.unmarked).unmarked = value.respelled raw := by
  obtain ⟨content, spelling, literal⟩ | ⟨name, identifier⟩ := value.respelled_cases raw
  · rw [literal]
    rfl
  · rw [identifier]
    rfl

theorem Shape.StripsAlike.map {children : List Shape} (alike : ∀ x ∈ children, x.StripsAlike) :
    (children.map unmarked).map (fun x => x.respelled.text) =
      (children.map fun x => x.respelled.text).map unmarked := by
  rw [List.map_map, List.map_map]
  exact List.map_congr_left fun x hx => (alike x hx).1.symm

theorem Respelled.kept_map (children : List Shape) : kept (children.map Shape.respelled) =
    (children.map fun child => child.respelled.text).filter fun child => !child.print.isEmpty := by
  rw [kept, List.map_map]
  rfl

theorem Respelled.kept_unmarked {m : Manner} {children : List Shape} (legible : ∀ x ∈ children, x.Legible m .child)
    (alike : ∀ x ∈ children, x.StripsAlike) :
    (kept (children.map Shape.respelled)).map Shape.unmarked =
      kept ((children.map Shape.unmarked).map Shape.respelled) := by
  rw [kept_map, kept_map, Shape.StripsAlike.map alike, List.filter_map (f := Shape.unmarked)]
  refine congrArg _ (List.filter_congr fun y hy => ?_)
  obtain ⟨x, hx, rfl⟩ := List.mem_map.1 hy
  have silent : x.respelled.text.unmarked.print = [] ↔ x.respelled.text.print = [] := by
    rw [(alike x hx).1, Shape.print_respelled, Shape.print_respelled]
    exact (legible x hx).unmarked_silent
  rw [Function.comp_apply, Bool.eq_iff_iff]
  simpa using (not_congr silent).symm

namespace NodeKind

theorem respelledText_unmarked {m : Manner} {site : Site} {kind : NodeKind Shape}
    (below : ∀ inner child, (inner, child) ∈ kind.sites site → child.Legible m inner)
    (alike : ∀ child ∈ kind.children, child.StripsAlike) :
    ((kind.map Shape.respelled).respelledText.map Shape.unmarked).unmarked =
      ((kind.map Shape.unmarked).unmarked.map Shape.respelled).respelledText := by
  have mapped : ((kind.map Shape.respelled).map (·.text)).map Shape.unmarked =
      ((kind.map Shape.unmarked).map Shape.respelled).map (·.text) := by
    rw [map_map, map_map, map_map, map_map]
    exact map_congr fun child hc => (alike child hc).1
  cases kind with
  | literal value raw => exact value.unmarked_respelled raw
  | element name as xs closed =>
    have children := Respelled.kept_unmarked
      (fun x hx => below .child x (List.mem_append_right _ (List.mem_map_of_mem hx)))
      fun x hx => alike x (List.mem_append_right _ hx)
    have attributes : ((as.map fun a => a.respelled.text).map Shape.unmarked).filter (fun a => !a.isMarker) =
        ((as.map Shape.unmarked).filter fun a => !a.isMarker).map fun a => a.respelled.text := by
      rw [← Shape.StripsAlike.map fun a ha => alike a (List.mem_append_left _ ha), List.filter_map]
      exact congrArg _ (List.filter_congr fun a _ => congrArg (! ·) a.isMarker_respelled)
    simp only [map, respelledText, unmarked, children, List.map_map, Function.comp_def] at attributes ⊢
    rw [attributes, List.isEmpty_map, List.isEmpty_map]
  | fragment xs =>
    exact congrArg fragment (Respelled.kept_unmarked (fun x hx => below .child x (List.mem_map_of_mem hx)) alike)
  | namedAttribute name value =>
    cases value with
    | none => rfl
    | some v => exact congrArg (fun v => namedAttribute name (some v)) (alike v (List.mem_singleton.2 rfl)).2
  | property key value shorthand =>
    obtain ⟨keys, values, -⟩ := property.inj mapped
    cases key with
    | computed e => exact congrArg₂ (fun key value => property key value shorthand) keys values
    | _ => exact congrArg (fun value => property _ value shorthand) values
  | text value raw => rfl
  | _ => exact mapped

end NodeKind

/-- A legible node is read again without markers as what it is without them, by induction on the node. -/
theorem Shape.Legible.stripsAlike {m : Manner} {site : Site} {s : Shape} (h : s.Legible m site) : s.StripsAlike := by
  induction h with
  | @node site span kind takes apart below ih =>
    have text := NodeKind.respelledText_unmarked below fun child hc => by
      obtain ⟨inner, hmem⟩ := NodeKind.exists_site site hc
      exact ih inner child hmem
    have same : (Shape.node span kind).respelled.text.unmarked = (Shape.node span kind).unmarked.respelled.text := by
      rw [respelled_node, unmarked_node, unmarked_node, respelled_node, text]
    refine ⟨same, ?_⟩
    cases kind with
    | literal value raw =>
      cases value with
      | string content => rfl
      | _ =>
        refine congrArg (fun e => Shape.node span (.expressionContainer (some e))) ?_
        exact (unmarked_node none _).trans (congrArg _ (Literal.unmarked_respelled _ raw))
    | _ => exact same

end MarkupEditor
