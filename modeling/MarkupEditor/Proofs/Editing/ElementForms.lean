import MarkupEditor.Proofs.Editing.Summaries

set_option autoImplicit false

namespace MarkupEditor

@[simp] theorem NodeKind.isElement_map {ι κ : Type} (f : ι → κ) (kind : NodeKind ι) :
    (kind.map f).isElement = kind.isElement := by
  cases kind <;> rfl

namespace Shape

/-- The nested forms of the elements in a nested form, each before those of the elements below. -/
def elementForms (s : Shape) : List Shape :=
  (s.fold (missing, []) fun span kind =>
    (node span (kind.map Prod.fst),
      (if kind.isElement then [node span (kind.map Prod.fst)] else []) ++ kind.children.flatMap Prod.snd)).2

theorem elementForms_node (span : Option Span) (kind : NodeKind Shape) : (node span kind).elementForms =
    (if kind.isElement then [node span kind] else []) ++ kind.children.flatMap elementForms := by
  let reading : Shape → Shape × List Shape := fold (missing, []) fun span kind =>
    (node span (kind.map Prod.fst),
      (if kind.isElement then [node span (kind.map Prod.fst)] else []) ++ kind.children.flatMap Prod.snd)
  have itself : ∀ s, (reading s).1 = s := by
    intro s
    induction s using Shape.induction with
    | missing => rfl
    | node span kind ih =>
      have below : kind.map (Prod.fst ∘ reading) = kind :=
        (NodeKind.map_congr ih).trans kind.map_id
      rw [show reading (node span kind) = _ from fold_node _ _ span kind]
      exact congrArg (node span) ((NodeKind.map_map _ _ kind).trans below)
  have children : kind.map (Prod.fst ∘ reading) = kind :=
    (NodeKind.map_congr fun child _ => itself child).trans kind.map_id
  rw [elementForms, fold_node]
  change (if (kind.map reading).isElement then [node span ((kind.map reading).map Prod.fst)] else []) ++
    (kind.map reading).children.flatMap Prod.snd = _
  rw [NodeKind.map_map, children, NodeKind.isElement_map, NodeKind.children_map, List.flatMap_map]
  rfl

theorem elementForms_erase (s : Shape) : (s.erase true).elementForms = s.elementForms.map (erase true) := by
  induction s using Shape.induction with
  | missing => rfl
  | node span kind ih =>
    rw [elementForms_node span, List.map_append, List.map_flatMap, ← List.flatMap_congr ih, erase_node,
      NodeKind.erase_true, elementForms_node, NodeKind.isElement_map, NodeKind.children_map, List.flatMap_map]
    congr 1
    split
    · rw [List.map_singleton, erase_node, NodeKind.erase_true]
    · rfl

theorem isNamed_erase (spellings : Bool) (name : String) (s : Shape) :
    (s.erase spellings).isNamed name = s.isNamed name := by
  cases s with
  | missing => rfl
  | node span kind =>
    rw [erase_node]
    cases kind <;> rfl

theorem isMarker_erase (spellings : Bool) (s : Shape) : (s.erase spellings).isMarker = s.isMarker :=
  s.isNamed_erase spellings markerAttribute

end Shape

theorem Literal.respelled_cases (value : Literal) (raw : Option String) :
    (∃ content spelling, value.respelled raw = .literal content spelling) ∨
      ∃ name, value.respelled raw = .identifier name := by
  cases raw with
  | some raw => exact .inl ⟨value, some raw, value.respelled_some raw⟩
  | none =>
    cases value with
    | number x =>
      rw [Literal.respelled, Binary64.respelled]
      split
      · exact .inl ⟨_, _, rfl⟩
      · exact .inr ⟨_, rfl⟩
    | _ => exact .inl ⟨_, _, rfl⟩

theorem Literal.elementForms_respelled (value : Literal) (raw : Option String) (span : Option Span) :
    (Shape.node span (value.respelled raw)).elementForms = [] := by
  rw [Shape.elementForms_node]
  obtain ⟨content, spelling, literal⟩ | ⟨name, identifier⟩ := value.respelled_cases raw
  · rw [literal]
    rfl
  · rw [identifier]
    rfl

theorem Literal.elementForms_held (value : Literal) (raw : Option String) (span : Option Span) :
    (Shape.node span (.expressionContainer (some (.node none (value.respelled raw))))).elementForms = [] := by
  rw [Shape.elementForms_node]
  exact (List.append_nil _).trans (value.elementForms_respelled raw none)

/-- That the elements in a nested form are read again with their spelling, wherever it stands. -/
def Shape.KeepsElements (s : Shape) : Prop :=
  s.respelled.text.elementForms = s.elementForms.map (·.respelled.text) ∧
    s.respelled.value.elementForms = s.elementForms.map (·.respelled.text)

namespace Shape

theorem isNamed_respelled (name : String) (s : Shape) : s.respelled.text.isNamed name = s.isNamed name := by
  cases s with
  | missing => rfl
  | node span kind =>
    rw [respelled_node]
    cases kind with
    | literal value raw =>
      change (node span (value.respelled raw)).isNamed name = false
      obtain ⟨content, spelling, literal⟩ | ⟨name, identifier⟩ := value.respelled_cases raw
      · rw [literal]
        rfl
      · rw [identifier]
        rfl
    | _ => rfl

theorem isMarker_respelled (s : Shape) : s.respelled.text.isMarker = s.isMarker :=
  s.isNamed_respelled markerAttribute

theorem Legible.elementForms_silent {m : Manner} {s : Shape} (h : s.Legible m .child) (silent : s.print = []) :
    s.elementForms = [] := by
  obtain ⟨span, rfl⟩ := h.text_of_silent silent
  rw [elementForms_node]
  rfl

variable {m : Manner} {site : Site} {kind : NodeKind Shape}

theorem elementForms_kept {children : List Shape} (legible : ∀ x ∈ children, x.Legible m .child)
    (keeps : ∀ x ∈ children, x.KeepsElements) : (Respelled.kept (children.map respelled)).flatMap elementForms =
      children.flatMap fun x => x.elementForms.map (·.respelled.text) := by
  rw [Respelled.kept, List.map_map, Reading.flatMap_filter, List.flatMap_map]
  · exact List.flatMap_congr fun x hx => (keeps x hx).1
  · intro x hx silent
    obtain ⟨y, hy, rfl⟩ := List.mem_map.1 hx
    rw [Function.comp_apply, (keeps y hy).1, (legible y hy).elementForms_silent, List.map_nil]
    rw [← y.print_respelled]
    simpa using silent

/-- The elements below a node are read again with their spelling, where those below its children are. -/
theorem elementForms_below (below : ∀ inner child, (inner, child) ∈ kind.sites site → child.Legible m inner)
    (keeps : ∀ child ∈ kind.children, child.KeepsElements) :
    (kind.map respelled).respelledText.children.flatMap elementForms =
      kind.children.flatMap fun x => x.elementForms.map (·.respelled.text) := by
  have mapped (plain : (kind.map respelled).respelledText = (kind.map respelled).map (·.text)) :
      (kind.map respelled).respelledText.children.flatMap elementForms =
        kind.children.flatMap fun x => x.elementForms.map (·.respelled.text) := by
    rw [plain, NodeKind.map_map, NodeKind.children_map, List.flatMap_map]
    exact List.flatMap_congr fun child hc => (keeps child hc).1
  cases kind with
  | element name as xs closed =>
    have kept := elementForms_kept (fun x hx => below .child x (List.mem_append_right _ (List.mem_map_of_mem hx)))
      fun x hx => keeps x (List.mem_append_right _ hx)
    have attributes : (as.map fun a => a.respelled.text).flatMap elementForms =
        as.flatMap fun x => x.elementForms.map (·.respelled.text) := by
      rw [List.flatMap_map]
      exact List.flatMap_congr fun a ha => (keeps a (List.mem_append_left _ ha)).1
    simp only [NodeKind.map, NodeKind.respelledText, NodeKind.children, List.map_map, Function.comp_def,
      List.flatMap_append, kept, attributes]
  | fragment xs => exact elementForms_kept (fun x hx => below .child x (List.mem_map_of_mem hx)) keeps
  | literal value raw =>
    have none := value.elementForms_respelled raw .none
    rw [elementForms_node] at none
    exact (List.append_eq_nil_iff.1 none).2
  | text value raw => rfl
  | namedAttribute name value =>
    cases value with
    | none => rfl
    | some v =>
      have held := (keeps v (List.mem_singleton.2 rfl)).2
      simpa [NodeKind.map, NodeKind.respelledText, NodeKind.children] using held
  | property key value shorthand =>
    have held := (keeps value (List.mem_append_right _ (List.mem_singleton.2 rfl))).1
    cases key with
    | computed e =>
      have named := (keeps e (List.mem_append_left _ (List.mem_singleton.2 rfl))).1
      simp [NodeKind.map, PropertyKey.map, NodeKind.respelledText, PropertyKey.respelled, NodeKind.children,
        PropertyKey.children, held, named]
    | _ =>
      simp [NodeKind.map, PropertyKey.map, NodeKind.respelledText, PropertyKey.respelled, NodeKind.children,
        PropertyKey.children, held]
  | _ => exact mapped rfl

theorem Legible.keepsElements {s : Shape} (h : s.Legible m site) : s.KeepsElements := by
  induction h with
  | @node site span kind takes apart below ih =>
    have rest := elementForms_below below fun child hc => by
      obtain ⟨inner, hmem⟩ := NodeKind.exists_site site hc
      exact ih inner child hmem
    have text : (Shape.node span kind).respelled.text.elementForms =
        (Shape.node span kind).elementForms.map (·.respelled.text) := by
      rw [elementForms_node span, List.map_append, List.map_flatMap, ← rest, respelled_node, elementForms_node]
      cases kind with
      | element => exact congrArg (· :: _) (congrArg Respelled.text (respelled_node _ _)).symm
      | literal value raw =>
        obtain ⟨content, spelling, literal⟩ | ⟨name, identifier⟩ := value.respelled_cases raw
        · simp [NodeKind.map, NodeKind.respelledText, literal, NodeKind.isElement]
        · simp [NodeKind.map, NodeKind.respelledText, identifier, NodeKind.isElement]
      | _ => rfl
    refine ⟨text, ?_⟩
    rw [← text, respelled_node]
    cases kind with
    | literal value raw =>
      cases value with
      | string content => rfl
      | null =>
        exact (Literal.elementForms_held .null raw span).trans (Literal.elementForms_respelled .null raw span).symm
      | boolean value =>
        exact (Literal.elementForms_held (.boolean value) raw span).trans
          (Literal.elementForms_respelled (.boolean value) raw span).symm
      | number value =>
        exact (Literal.elementForms_held (.number value) raw span).trans
          (Literal.elementForms_respelled (.number value) raw span).symm
    | _ => rfl

end Shape

namespace Tree

variable {m : Manner} {t u : Tree} {id : NodeId}

theorem Grounded.elementForms_shape (h : t.Grounded id) :
    (t.shape id).elementForms = ((t.preorder id).filter t.isElement).map t.shape := by
  induction h with
  | intro id hchild ih =>
    have hgrounded : t.Grounded id := Acc.intro id hchild
    rw [hgrounded.preorder_eq]
    cases hn : t.get? id with
    | none =>
      have plain : t.isElement id = false := by rw [isElement, kind?, hn]; rfl
      rw [shape_of_none hn, childIds_of_none hn, List.flatMap_nil, List.filter_cons_of_neg (by simp [plain])]
      rfl
    | some node =>
      have element : t.isElement id = node.kind.isElement := by rw [isElement, kind?_of_get? hn]; rfl
      rw [childIds_of_get? hn] at ih ⊢
      rw [hgrounded.shape_eq hn, Shape.elementForms_node, NodeKind.isElement_map, NodeKind.children_map,
        List.flatMap_map, List.flatMap_congr ih, List.filter_cons, List.filter_flatMap, element]
      split
      · rw [List.map_cons, List.map_flatMap, hgrounded.shape_eq hn]
        rfl
      · rw [List.map_flatMap]
        rfl

theorem Grounded.elements_form (h : t.Grounded t.root) : t.elements.map t.shape = (t.shape t.root).elementForms := by
  rw [h.elements_eq, h.elementForms_shape]

theorem Legible.elements_again (h : t.Legible m .root t.root) (grounded : u.Grounded u.root)
    (same : (u.shape u.root).erase true = (t.shape t.root).respelled.text.erase true) :
    u.elements.map (fun x => (u.shape x).erase true) =
      t.elements.map fun x => (t.shape x).respelled.text.erase true := by
  have forms := congrArg Shape.elementForms same
  rw [Shape.elementForms_erase, Shape.elementForms_erase, h.shape.keepsElements.1, ← grounded.elements_form,
    ← h.grounded.elements_form, List.map_map, List.map_map, List.map_map] at forms
  exact forms

end Tree

end MarkupEditor
