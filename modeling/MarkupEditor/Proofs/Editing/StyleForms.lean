import MarkupEditor.Proofs.Editing.AttributeForms

set_option autoImplicit false

namespace MarkupEditor

namespace Shape

variable {s : Shape}

def properties? (s : Shape) : Option (List Shape) :=
  match s.kind? with
  | some (.object properties) => some properties
  | _ => none

def styleProperties? (s : Shape) : Option (List Shape) :=
  (s.attributesOf.find? (isNamed styleAttribute)).bind fun attr =>
    attr.attributeValue?.bind fun value => value.contained?.bind properties?

theorem styleProperties?_eq (s : Shape) : s.styleProperties? =
    (s.valueOf? styleAttribute).bind fun value => value.bind fun v => v.contained?.bind properties? := by
  rw [styleProperties?, valueOf?]
  cases s.attributesOf.find? (isNamed styleAttribute) <;> rfl

theorem styleProperties?_erase (s : Shape) :
    (s.erase true).styleProperties? = s.styleProperties?.map (List.map (erase true)) := by
  have properties (e : Shape) : (e.erase true).properties? = e.properties?.map (List.map (erase true)) := by
    rw [properties?, properties?, kind?_erase]
    cases e.kind? with
    | none => rfl
    | some kind => cases kind <;> rfl
  rw [styleProperties?_eq, styleProperties?_eq, valueOf?_erase]
  rcases s.valueOf? styleAttribute with _ | _ | v
  · rfl
  · rfl
  · simp only [Option.map_some, Option.bind_some, contained?_erase]
    cases v.contained? with
    | none => rfl
    | some e => exact properties e

theorem properties?_literal (value : Literal) (raw : Option String) (span : Option Span) :
    (node span (value.respelled raw)).properties? = none := by
  obtain ⟨content, spelling, literal⟩ | ⟨name, identifier⟩ := value.respelled_cases raw
  · rw [literal]
    rfl
  · rw [identifier]
    rfl

theorem properties?_respelled (s : Shape) :
    s.respelled.text.properties? = s.properties?.map (List.map fun p => p.respelled.text) := by
  cases s with
  | missing => rfl
  | node span kind =>
    rw [respelled_node]
    cases kind with
    | literal value raw => exact properties?_literal value raw span
    | object properties => exact congrArg some List.map_map
    | _ => rfl

theorem contained?_respelled (s : Shape) : s.respelled.value.contained?.bind properties? =
    (s.contained?.bind properties?).map (List.map fun p => p.respelled.text) := by
  cases s with
  | missing => rfl
  | node span kind =>
    rw [respelled_node]
    cases kind with
    | expressionContainer e =>
      cases e with
      | none => rfl
      | some e => exact properties?_respelled e
    | literal value raw =>
      cases value with
      | string content => rfl
      | null => exact properties?_literal .null raw none
      | boolean value => exact properties?_literal (.boolean value) raw none
      | number value => exact properties?_literal (.number value) raw none
    | _ => rfl

theorem styleProperties?_respelled (s : Shape) :
    s.respelled.text.styleProperties? = s.styleProperties?.map (List.map fun p => p.respelled.text) := by
  rw [styleProperties?_eq, styleProperties?_eq, valueOf?_respelled]
  rcases s.valueOf? styleAttribute with _ | _ | v
  · rfl
  · rfl
  · exact v.contained?_respelled

end Shape

namespace Tree

variable {t u : Tree} {id : NodeId}

namespace Grounded

theorem properties?_shape (h : t.Grounded id) :
    (t.shape id).properties? = if t.isObject id then some ((t.propertiesOf id).map t.shape) else none := by
  rw [Shape.properties?, h.kind?_shape, isObject, propertiesOf]
  cases t.kind? id with
  | none => rfl
  | some kind => cases kind <;> rfl

theorem styleProperties?_shape (h : t.Grounded id) : (t.shape id).styleProperties? =
    (t.styleObject? id).map fun object => (t.propertiesOf object).map t.shape := by
  rw [Shape.styleProperties?_eq, h.valueOf?_shape, styleObject?]
  cases found : t.findAttribute? id styleAttribute with
  | none => rfl
  | some attr =>
    have hattr : t.Grounded attr := h.child (mem_childIds_of_mem_attributesOf (exists_of_findAttribute? found).1)
    simp only [Option.map_some, Option.bind_some]
    cases hvalue : t.attributeValue? attr with
    | none => rfl
    | some value =>
      have hvalue := hattr.value hvalue
      simp only [Option.map_some, Option.bind_some, hvalue.contained?_shape]
      cases hobject : t.contained? value with
      | none => rfl
      | some object =>
        rw [Option.map_some, Option.bind_some, (hvalue.contained hobject).properties?_shape, Option.filter_some]
        split <;> rfl

end Grounded

theorem Grounded.style_again {x : NodeId} (h : t.Grounded id) (h' : u.Grounded x)
    (same : (u.shape x).erase true = (t.shape id).respelled.text.erase true) :
    ((u.styleObject? x).map fun object => (u.propertiesOf object).map fun p => (u.shape p).erase true) =
      (t.styleObject? id).map fun object =>
        (t.propertiesOf object).map fun p => (t.shape p).respelled.text.erase true := by
  have properties := congrArg Shape.styleProperties? same
  simp only [Shape.styleProperties?_erase, Shape.styleProperties?_respelled, h.styleProperties?_shape,
    h'.styleProperties?_shape, Option.map_map, Function.comp_def, List.map_map] at properties
  exact properties

end Tree

end MarkupEditor
