import MarkupEditor.Proofs.Editing.Tagging
import MarkupEditor.Proofs.Printer.Rereading

set_option autoImplicit false

namespace MarkupEditor

namespace Reading

theorem flatMap_filter {α β : Type} {f : α → List β} {p : α → Bool} {items : List α}
    (h : ∀ item ∈ items, p item = false → f item = []) : (items.filter p).flatMap f = items.flatMap f := by
  induction items with
  | nil => rfl
  | cons item items ih =>
    have rest := ih fun x hx => h x (List.mem_cons_of_mem item hx)
    cases hp : p item with
    | true => rw [List.filter_cons_of_pos hp, List.flatMap_cons, List.flatMap_cons, rest]
    | false =>
      rw [List.filter_cons_of_neg (by simp [hp]), List.flatMap_cons, h item List.mem_cons_self hp, rest]
      rfl

end Reading

namespace Shape

theorem reading_unmarked (s : Shape) : s.unmarked.reading = s.reading := by
  induction s using Shape.induction with
  | missing => rfl
  | node span kind ih =>
    have below : kind.map (reading ∘ unmarked) = kind.map reading := NodeKind.map_congr ih
    rw [unmarked_node, reading_node, reading_node, ← below, ← NodeKind.map_map]
    cases kind with
    | element name as xs closed =>
      have left : ∀ a ∈ as.map unmarked, (!a.isMarker) = false → a.reading = {} := by
        intro a _ h
        exact reading_marker (by simpa using h)
      have elements := Reading.flatMap_filter fun a ha h => congrArg Reading.elements (left a ha h)
      have attributes := Reading.flatMap_filter fun a ha h =>
        congrArg (fun r : Reading => r.attribute?.toList) (left a ha h)
      simp only [NodeKind.map, NodeKind.unmarked, NodeKind.reading, List.flatMap_append, List.flatMap_map,
        List.filterMap_eq_flatMap_toList] at elements attributes ⊢
      rw [elements, attributes]
    | _ => rfl

end Shape

/-- Of the numbers that have no spelling none is read: they are values of markers. -/
def Manner.MarksNumbers (m : Manner) : Prop :=
  ∀ name value, m.holds name (.literal (.number value) none) → name = markerAttribute

/-- That a node in a place is read as it is with its spelling. Of the value of an attribute the reading of
the attribute counts. -/
def Site.ReadsAlike : Site → Shape → Prop
  | .value name, s =>
    Reading.ofAttribute name (some s.respelled.value.reading) = Reading.ofAttribute name (some s.reading)
  | _, s => s.respelled.text.reading = s.reading

theorem Literal.reading_respelled {value : Literal} {raw : Option String} (h : value.Spelled raw)
    (span : Option Span) : (Shape.node span (value.respelled raw)).reading = { literal? := some value } := by
  cases h with
  | token => cases value <;> rfl
  | _ => rfl

theorem Reading.ofAttribute_marker (value : Option Reading) :
    Reading.ofAttribute markerAttribute value = {} :=
  if_pos rfl

theorem Reading.ofAttribute_held {m : Manner} (hm : m.MarksNumbers) {name : String} {value : Literal}
    {raw : Option String} (h : value.Held raw) (holds : m.holds name (.literal value raw))
    (span span' : Option Span) :
    Reading.ofAttribute name (some (Shape.node span (NodeKind.literal value raw).respelledValue).reading) =
      Reading.ofAttribute name (some (Shape.node span' (.literal value raw)).reading) := by
  cases h with
  | number positive =>
    rw [hm _ _ holds, Reading.ofAttribute_marker, Reading.ofAttribute_marker]
  | _ => rfl

theorem Shape.Legible.reading_silent {m : Manner} {s : Shape} (h : s.Legible m .child) (silent : s.print = []) :
    s.reading = {} := by
  obtain ⟨span, rfl⟩ := h.text_of_silent silent
  rfl

theorem reading_kept {m : Manner} {children : List Shape} (legible : ∀ x ∈ children, x.Legible m .child)
    (same : ∀ x ∈ children, x.respelled.text.reading = x.reading) :
    String.join (((Respelled.kept (children.map Shape.respelled)).map Shape.reading).map (·.text)) =
        String.join ((children.map Shape.reading).map (·.text)) ∧
      ((Respelled.kept (children.map Shape.respelled)).map Shape.reading).flatMap (·.elements) =
        (children.map Shape.reading).flatMap (·.elements) := by
  induction children with
  | nil => exact ⟨rfl, rfl⟩
  | cons x children ih =>
    obtain ⟨text, elements⟩ := ih (fun y hy => legible y (List.mem_cons_of_mem x hy))
      fun y hy => same y (List.mem_cons_of_mem x hy)
    have hx := same x List.mem_cons_self
    by_cases silent : x.print = []
    · have nothing := (legible x List.mem_cons_self).reading_silent silent
      have hkept : Respelled.kept ((x :: children).map Shape.respelled) =
          Respelled.kept (children.map Shape.respelled) := by
        simp [Respelled.kept, Shape.print_respelled, silent]
      rw [hkept, text, elements]
      simp [nothing]
    · have hkept : Respelled.kept ((x :: children).map Shape.respelled) =
          x.respelled.text :: Respelled.kept (children.map Shape.respelled) := by
        simp [Respelled.kept, Shape.print_respelled, silent]
      rw [hkept]
      simp only [List.map_cons, List.flatMap_cons, hx, elements, String.join_cons, text]
      exact ⟨trivial, trivial⟩

theorem Site.ReadsAlike.text {site : Site} {s : Shape} (h : site.ReadsAlike s)
    (plain : ∀ name, site ≠ .value name) : s.respelled.text.reading = s.reading := by
  cases site with
  | value name => exact absurd rfl (plain name)
  | _ => exact h

/-- A node is read as it is with its spelling where its children are. A number without a spelling is
left out. -/
theorem reading_respelledText {m : Manner} {site : Site} {kind : NodeKind Shape} (span : Option Span)
    (spelled : ∀ value raw, kind = .literal value raw → value.Spelled raw)
    (below : ∀ inner child, (inner, child) ∈ kind.sites site → child.Legible m inner)
    (ih : ∀ inner child, (inner, child) ∈ kind.sites site → inner.ReadsAlike child) :
    (Shape.node span (kind.map Shape.respelled).respelledText).reading = (Shape.node span kind).reading := by
  have alike (plain : ∀ name value, kind ≠ .namedAttribute name value) :
      ∀ child ∈ kind.children, child.respelled.text.reading = child.reading := by
    intro child hc
    obtain ⟨inner, hmem⟩ := NodeKind.exists_site site hc
    refine (ih inner child hmem).text fun name hinner => ?_
    obtain ⟨value, hkind⟩ := NodeKind.sites_value (hinner ▸ hmem)
    exact plain name value hkind
  have same (plain : ∀ name value, kind ≠ .namedAttribute name value) :
      ((kind.map Shape.respelled).map Respelled.text).map Shape.reading = kind.map Shape.reading := by
    rw [NodeKind.map_map, NodeKind.map_map]
    exact NodeKind.map_congr (alike plain)
  rw [Shape.reading_node, Shape.reading_node]
  cases kind with
  | literal value raw =>
    rw [← Shape.reading_node span]
    exact Literal.reading_respelled (spelled value raw rfl) span
  | namedAttribute name value =>
    cases value with
    | none => rfl
    | some v => exact ih (.value name) v (List.mem_singleton.2 rfl)
  | property key value shorthand =>
    have hkind := congrArg NodeKind.reading (same (by rintro _ _ ⟨⟩))
    cases key with
    | literal content raw => cases content <;> exact hkind
    | _ => exact hkind
  | text value raw => rfl
  | element name as xs closed =>
    obtain ⟨-, attributes, -, -⟩ := NodeKind.element.inj (same (by rintro _ _ ⟨⟩))
    obtain ⟨text, elements⟩ := reading_kept
      (fun x hx => below .child x (List.mem_append_right _ (List.mem_map_of_mem hx)))
      fun x hx => ih .child x (List.mem_append_right _ (List.mem_map_of_mem hx))
    simp only [NodeKind.map, NodeKind.respelledText, NodeKind.reading, attributes, text,
      List.flatMap_append, elements]
  | fragment xs =>
    obtain ⟨-, elements⟩ := reading_kept (fun x hx => below .child x (List.mem_map_of_mem hx))
      fun x hx => ih .child x (List.mem_map_of_mem hx)
    simp only [NodeKind.map, NodeKind.respelledText, NodeKind.reading, NodeKind.children, elements]
  | _ => exact congrArg NodeKind.reading (same (by rintro _ _ ⟨⟩))

theorem Shape.Legible.readsAlike {m : Manner} (hm : m.MarksNumbers) {site : Site} {s : Shape}
    (h : s.Legible m site) : site.ReadsAlike s := by
  induction h with
  | @node site span kind takes apart below ih =>
    have text (spelled : ∀ value raw, kind = .literal value raw → value.Spelled raw) :
        (Shape.node span kind).respelled.text.reading = (Shape.node span kind).reading := by
      rw [Shape.respelled_node]
      exact reading_respelledText span spelled below ih
    cases site with
    | value name =>
      have same (spelled : ∀ value raw, kind = .literal value raw → value.Spelled raw)
          (hvalue : (Shape.node span kind).respelled.value = (Shape.node span kind).respelled.text) :
          Site.ReadsAlike (.value name) (.node span kind) := by
        rw [Site.ReadsAlike, hvalue, text spelled]
      cases kind with
      | literal value raw => exact Reading.ofAttribute_held hm takes.1 takes.2 span span
      | _ => exact same nofun rfl
    | _ =>
      refine text fun value raw hkind => ?_
      subst hkind
      first
        | exact takes
        | exact takes.2
        | exact takes.elim
        | exact takes.1.elim

section

variable (name : String) (value : Option Reading)

theorem Reading.ofAttribute_text : (Reading.ofAttribute name value).text = "" := by
  unfold Reading.ofAttribute
  split <;> rfl

theorem Reading.ofAttribute_literal? : (Reading.ofAttribute name value).literal? = none := by
  unfold Reading.ofAttribute
  split <;> rfl

theorem Reading.ofAttribute_declaration? : (Reading.ofAttribute name value).declaration? = none := by
  unfold Reading.ofAttribute
  split <;> rfl

theorem Reading.ofAttribute_declarations? : (Reading.ofAttribute name value).declarations? = none := by
  unfold Reading.ofAttribute
  split <;> rfl

theorem Reading.ofAttribute_contained? : (Reading.ofAttribute name value).contained? = none := by
  unfold Reading.ofAttribute
  split <;> rfl

end

def NodeKind.own : NodeKind Reading → List ElementReading
  | .element name attributes children _ =>
    [⟨name, String.join (children.map (·.text)), attributes.filterMap (·.attribute?)⟩]
  | _ => []

theorem NodeKind.reading_elements {kind : NodeKind Reading}
    (plain : ∀ value, kind ≠ .namedAttribute markerAttribute value) :
    kind.reading.elements = kind.own ++ kind.children.flatMap (·.elements) := by
  cases kind with
  | namedAttribute name value =>
    have hname : name ≠ markerAttribute := fun he => plain value (by rw [he])
    change (Reading.ofAttribute name value).elements = _
    unfold Reading.ofAttribute
    rw [if_neg hname]
    rfl
  | _ => rfl

/-- The name, the text and the styles of an element. -/
abbrev Summary := Option String × String × StyleMap

def ElementReading.summary (e : ElementReading) : Summary :=
  (some e.name, e.text, e.styles)

namespace Tree

variable {t : Tree} {id : NodeId}

def summary (t : Tree) (id : NodeId) : Summary :=
  (t.elementName? id, t.textOf id, t.readStyle id)

/-- No element is below a marker. -/
def PlainMarkers (t : Tree) (id : NodeId) : Prop :=
  ∀ x, t.Reaches id x → t.isMarker x = true → ∀ y, t.Reaches x y → t.isElement y = false

theorem PlainMarkers.child {child : NodeId} (h : t.PlainMarkers id) (hc : child ∈ t.childIds id) :
    t.PlainMarkers child :=
  fun x hx => h x (.step hc hx)

namespace Grounded

theorem reading_shape (h : t.Grounded id) : (t.shape id).reading =
    ((t.kind? id).map fun kind => (kind.map fun child => (t.shape child).reading).reading).getD {} := by
  cases hn : t.get? id with
  | none =>
    rw [shape_of_none hn, kind?, hn]
    rfl
  | some node =>
    rw [h.shape_eq hn, kind?_of_get? hn, Shape.reading_node, NodeKind.map_map]
    rfl

theorem of_kind? {kind : NodeKind NodeId} (h : t.Grounded id) (hk : t.kind? id = some kind) :
    ∀ child ∈ kind.children, t.Grounded child := by
  intro child hc
  refine h.child ?_
  rw [childIds, hk]
  exact hc

theorem reading_text (h : t.Grounded id) : (t.shape id).reading.text = (t.textValue? id).getD "" := by
  rw [h.reading_shape, textValue?]
  cases t.kind? id with
  | none => rfl
  | some kind =>
    cases kind with
    | namedAttribute name value => exact Reading.ofAttribute_text name _
    | _ => rfl

theorem reading_literal (h : t.Grounded id) : (t.shape id).reading.literal? = t.literal? id := by
  rw [h.reading_shape, literal?]
  cases t.kind? id with
  | none => rfl
  | some kind =>
    cases kind with
    | namedAttribute name value => exact Reading.ofAttribute_literal? name _
    | _ => rfl

theorem reading_declaration (h : t.Grounded id) : (t.shape id).reading.declaration? = t.declaration? id := by
  rw [h.reading_shape, declaration?]
  cases hk : t.kind? id with
  | none => rfl
  | some kind =>
    cases kind with
    | namedAttribute name value => exact Reading.ofAttribute_declaration? name _
    | property key value shorthand =>
      cases shorthand with
      | true => rfl
      | false =>
        have hvalue := (h.of_kind? hk value (List.mem_append_right _ (List.mem_singleton.2 rfl))).reading_literal
        change (key.map _).name?.bind _ = key.name?.bind _
        rw [PropertyKey.name?_map]
        refine congrArg (key.name?.bind ·) (funext fun name => ?_)
        exact congrArg (Option.map _) hvalue
    | _ => rfl

theorem reading_declarations (h : t.Grounded id) : (t.shape id).reading.declarations? =
    if t.isObject id then some ((t.propertiesOf id).filterMap t.declaration?) else none := by
  rw [h.reading_shape, isObject, propertiesOf]
  cases hk : t.kind? id with
  | none => rfl
  | some kind =>
    cases kind with
    | namedAttribute name value => exact Reading.ofAttribute_declarations? name _
    | object properties =>
      change some ((properties.map _).filterMap _) = some _
      rw [List.filterMap_map]
      refine congrArg some (List.filterMap_congr fun p hp => ?_)
      exact (h.of_kind? hk p hp).reading_declaration
    | _ => rfl

theorem reading_contained (h : t.Grounded id) : (t.shape id).reading.contained?.bind (·.2) =
    ((t.contained? id).filter t.isObject).map fun object => (t.propertiesOf object).filterMap t.declaration? := by
  rw [h.reading_shape, contained?]
  cases hk : t.kind? id with
  | none => rfl
  | some kind =>
    cases kind with
    | namedAttribute name value =>
      exact congrArg (Option.bind · _) (Reading.ofAttribute_contained? name _)
    | expressionContainer e =>
      cases e with
      | none => rfl
      | some e =>
        have inner := (h.of_kind? hk e (List.mem_singleton.2 rfl)).reading_declarations
        change (t.shape e).reading.declarations? = ((some e).filter t.isObject).map _
        rw [inner, Option.filter_some]
        cases t.isObject e <;> rfl
    | _ => rfl

theorem reading_attribute (h : t.Grounded id) {name : String} (plain : name ≠ markerAttribute) :
    ((t.shape id).reading.attribute?.any fun a => a.name == name) = t.isNamed name id ∧
      (t.isNamed name id = true → (t.shape id).reading.attribute?.bind (·.declarations?) =
        (t.attributeValue? id).bind fun value => ((t.contained? value).filter t.isObject).map fun object =>
          (t.propertiesOf object).filterMap t.declaration?) := by
  rw [h.reading_shape, isNamed, attributeValue?]
  cases hk : t.kind? id with
  | none => exact ⟨rfl, fun h => absurd h Bool.false_ne_true⟩
  | some kind =>
    cases kind with
    | namedAttribute other value =>
      change ((Reading.ofAttribute other _).attribute?.any _) = (other == name) ∧
        ((other == name) = true → (Reading.ofAttribute other _).attribute?.bind _ = value.bind _)
      unfold Reading.ofAttribute
      by_cases hother : other = markerAttribute
      · rw [if_pos hother]
        have differs : (other == name) = false := beq_eq_false_iff_ne.2 fun he => plain (he ▸ hother)
        rw [differs]
        exact ⟨rfl, fun h => absurd h Bool.false_ne_true⟩
      · rw [if_neg hother]
        refine ⟨rfl, fun _ => ?_⟩
        cases value with
        | none => rfl
        | some value => exact (h.of_kind? hk value (List.mem_singleton.2 rfl)).reading_contained
    | _ => exact ⟨rfl, fun h => absurd h Bool.false_ne_true⟩

end Grounded

theorem find?_reading {α β γ : Type} {f : α → Option β} {p : α → Bool} {q : β → Bool} {g : β → Option γ}
    {k : α → Option γ} (items : List α) (test : ∀ item ∈ items, (f item).any q = p item)
    (read : ∀ item ∈ items, p item = true → (f item).bind g = k item) :
    ((items.filterMap f).find? q).bind g = (items.find? p).bind k := by
  induction items with
  | nil => rfl
  | cons item items ih =>
    have rest := ih (fun x hx => test x (List.mem_cons_of_mem item hx))
      fun x hx => read x (List.mem_cons_of_mem item hx)
    have htest := test item List.mem_cons_self
    have hread := read item List.mem_cons_self
    cases hf : f item with
    | none =>
      rw [hf] at htest
      rw [List.filterMap_cons_none hf, List.find?_cons_of_neg (by rw [← htest]; exact Bool.false_ne_true), rest]
    | some b =>
      rw [hf] at htest hread
      rw [List.filterMap_cons_some hf]
      cases hp : p item with
      | true =>
        rw [List.find?_cons_of_pos (p := q) (htest.trans hp), List.find?_cons_of_pos hp]
        exact hread hp
      | false =>
        rw [List.find?_cons_of_neg (by rw [show q b = false from htest.trans hp]; exact Bool.false_ne_true),
          List.find?_cons_of_neg (by rw [hp]; exact Bool.false_ne_true), rest]

theorem join_filterMap {α : Type} {f : α → Option String} {g : α → String} {items : List α}
    (h : ∀ item ∈ items, g item = (f item).getD "") :
    String.join (items.map g) = String.join (items.filterMap f) := by
  induction items with
  | nil => rfl
  | cons item items ih =>
    have rest := ih fun x hx => h x (List.mem_cons_of_mem item hx)
    have hitem := h item List.mem_cons_self
    rw [List.map_cons, String.join_cons, rest]
    cases hf : f item with
    | none =>
      rw [List.filterMap_cons_none hf, hitem, hf]
      exact String.empty_append
    | some text => rw [List.filterMap_cons_some hf, String.join_cons, hitem, hf]; rfl

namespace Grounded

theorem summary_eq (h : t.Grounded id) {name : String} {as xs : List NodeId} {closed : Bool}
    (hk : t.kind? id = some (.element name as xs closed)) :
    t.summary id = ElementReading.summary
      ⟨name, String.join ((xs.map fun x => (t.shape x).reading).map (·.text)),
        (as.map fun a => (t.shape a).reading).filterMap (·.attribute?)⟩ := by
  have hname : t.elementName? id = some name := by rw [elementName?, hk]
  have htext : t.textOf id = String.join (xs.filterMap t.textValue?) := by rw [textOf, hk]
  have hattributes : t.attributesOf id = as := by rw [attributesOf, hk]
  have below := h.of_kind? hk
  have text : String.join ((xs.map fun x => (t.shape x).reading).map (·.text)) = t.textOf id := by
    rw [htext, List.map_map]
    exact join_filterMap fun x hx => (below x (List.mem_append_right _ hx)).reading_text
  have styles := find?_reading (f := Reading.attribute? ∘ fun a => (t.shape a).reading) (p := t.isNamed styleAttribute)
    (q := fun a : AttributeReading => a.name == styleAttribute) (g := (·.declarations?))
    as (fun a ha => ((below a (List.mem_append_left _ ha)).reading_attribute (by decide)).1)
    fun a ha hnamed => ((below a (List.mem_append_left _ ha)).reading_attribute (by decide)).2 hnamed
  rw [summary, ElementReading.summary, hname, text]
  congr 2
  rw [readStyle, styleObject?, findAttribute?, hattributes, ElementReading.styles, List.filterMap_map]
  rw [styles]
  cases as.find? (t.isNamed styleAttribute) with
  | none => rfl
  | some attr =>
    simp only [Option.bind_some]
    cases t.attributeValue? attr with
    | none => rfl
    | some value =>
      simp only [Option.bind_some]
      cases (t.contained? value).filter t.isObject <;> rfl

theorem map_summary (h : t.Grounded id) (plain : t.PlainMarkers id) :
    ((t.preorder id).filter t.isElement).map t.summary =
      (t.shape id).reading.elements.map ElementReading.summary := by
  induction h with
  | intro id hchild ih =>
    have hgrounded : t.Grounded id := Acc.intro id hchild
    by_cases marker : t.isMarker id = true
    · rw [Shape.reading_marker (hgrounded.isMarker_shape.trans marker)]
      have none : (t.preorder id).filter t.isElement = [] := by
        rw [List.filter_eq_nil_iff]
        intro y hy
        rw [plain id (.refl id) marker y (hgrounded.mem_preorder.1 hy)]
        exact Bool.false_ne_true
      rw [none]
      rfl
    · cases hn : t.get? id with
      | none =>
        have hkind : t.kind? id = none := by rw [kind?, hn]; rfl
        have element : t.isElement id = false := by rw [isElement, hkind]; rfl
        rw [hgrounded.preorder_eq, childIds_of_none hn, shape_of_none hn, List.flatMap_nil,
          List.filter_cons_of_neg (by rw [element]; exact Bool.false_ne_true)]
        rfl
      | some node =>
        have hkind := kind?_of_get? hn
        have below : (t.childIds id).flatMap (fun c => ((t.preorder c).filter t.isElement).map t.summary) =
            (t.childIds id).flatMap fun c => (t.shape c).reading.elements.map ElementReading.summary :=
          List.flatMap_congr fun c hc => ih c hc (plain.child hc)
        have own : (if t.isElement id then [t.summary id] else []) =
            (node.kind.map fun c => (t.shape c).reading).own.map ElementReading.summary := by
          rw [isElement, hkind]
          cases hk : node.kind with
          | element name as xs closed =>
            rw [hk] at hkind
            exact congrArg (fun s => [s]) (hgrounded.summary_eq hkind)
          | _ => rfl
        have notMarker : ∀ value, (node.kind.map fun c => (t.shape c).reading) ≠
            .namedAttribute markerAttribute value := by
          intro value heq
          rw [isMarker, isNamed, hkind] at marker
          cases hk : node.kind with
          | namedAttribute name v =>
            rw [hk] at heq marker
            exact marker (beq_iff_eq.2 (NodeKind.namedAttribute.inj heq).1)
          | _ =>
            rw [hk] at heq
            cases heq
        rw [hgrounded.reading_shape, hkind]
        simp only [Option.map_some, Option.getD_some]
        rw [NodeKind.reading_elements notMarker, List.map_append, ← own, NodeKind.children_map,
          List.flatMap_map, List.map_flatMap, hgrounded.preorder_eq]
        rw [childIds_of_get? hn] at below ⊢
        rw [← below, List.filter_cons, List.filter_flatMap]
        split
        · rw [List.map_cons, List.map_flatMap]
          rfl
        · rw [List.map_flatMap]
          rfl

theorem elements_summary (h : t.Grounded t.root) (plain : t.PlainMarkers t.root) :
    t.elements.map t.summary = (t.shape t.root).reading.elements.map ElementReading.summary := by
  rw [h.elements_eq, h.map_summary plain]

end Grounded

end Tree

end MarkupEditor
