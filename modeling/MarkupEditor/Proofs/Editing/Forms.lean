import MarkupEditor.Editing.Content
import MarkupEditor.Editing.Marker
import MarkupEditor.Editing.Style
import MarkupEditor.Proofs.Markup.Erasure
import MarkupEditor.Proofs.Markup.Walks

set_option autoImplicit false

namespace MarkupEditor

namespace Shape

def kind? : Shape → Option (NodeKind Shape)
  | .missing => none
  | .node _ kind => some kind

def isNamed (name : String) (s : Shape) : Bool :=
  match s.kind? with
  | some (.namedAttribute other _) => other == name
  | _ => false

def isMarker (s : Shape) : Bool :=
  s.isNamed markerAttribute

end Shape

/-- What is read of an attribute: its literal value, if it has one, and the declarations of the object
that it holds, if it holds one. -/
structure AttributeReading where
  name : String
  literal? : Option Literal
  declarations? : Option (List (String × String))

structure ElementReading where
  name : String
  text : String
  attributes : List AttributeReading

namespace ElementReading

def attribute? (e : ElementReading) (name : String) : Option Literal :=
  (e.attributes.find? (·.name == name)).bind (·.literal?)

def styles (e : ElementReading) : StyleMap :=
  match (e.attributes.find? (·.name == styleAttribute)).bind (·.declarations?) with
  | some declarations => .ofList declarations
  | none => []

end ElementReading

/-- What is read of a node: the elements from it on, and what its parent reads of it. -/
structure Reading where
  elements : List ElementReading := []
  text : String := ""
  literal? : Option Literal := none
  declaration? : Option (String × String) := none
  declarations? : Option (List (String × String)) := none
  contained? : Option (Option Literal × Option (List (String × String))) := none
  attribute? : Option AttributeReading := none

def Reading.ofAttribute (name : String) (value : Option Reading) : Reading :=
  if name = markerAttribute then {}
  else
    { elements := value.toList.flatMap (·.elements)
      attribute? := some
        { name
          literal? := match value with
            | none => some (.boolean true)
            | some value => value.literal?.or (value.contained?.bind (·.1))
          declarations? := (value.bind (·.contained?)).bind (·.2) } }

namespace NodeKind

def reading : NodeKind Reading → Reading
  | .element name attributes children _ =>
    { elements := ⟨name, String.join (children.map (·.text)), attributes.filterMap (·.attribute?)⟩ ::
        (attributes ++ children).flatMap (·.elements) }
  | .text value _ => { text := value }
  | .literal value _ => { literal? := some value }
  | .expressionContainer expression =>
    { elements := expression.toList.flatMap (·.elements)
      contained? := expression.map fun e => (e.literal?, e.declarations?) }
  | .namedAttribute name value => .ofAttribute name value
  | .object properties =>
    { elements := properties.flatMap (·.elements)
      declarations? := some (properties.filterMap (·.declaration?)) }
  | .property key value shorthand =>
    { elements := (key.children ++ [value]).flatMap (·.elements)
      declaration? := if shorthand then none else
        key.name?.bind fun name => value.literal?.map fun literal => (name, literal.styleText) }
  | kind => { elements := kind.children.flatMap (·.elements) }

end NodeKind

namespace Shape

def reading : Shape → Reading :=
  fold {} fun _ kind => kind.reading

theorem reading_node (span : Option Span) (kind : NodeKind Shape) :
    (node span kind).reading = (kind.map reading).reading :=
  fold_node _ _ span kind

theorem reading_marker {s : Shape} (h : s.isMarker = true) : s.reading = {} := by
  cases s with
  | missing => rfl
  | node span kind =>
    cases kind with
    | namedAttribute name value =>
      have hname : name = markerAttribute := beq_iff_eq.1 h
      rw [reading_node]
      exact if_pos hname
    | _ => cases h

end Shape

namespace PropertyKey

variable {ι κ : Type}

@[simp] theorem name?_map (f : ι → κ) (key : PropertyKey ι) : (key.map f).name? = key.name? := by
  cases key with
  | literal value raw => cases value <;> rfl
  | _ => rfl

@[simp] theorem name?_erase (spellings : Bool) (key : PropertyKey ι) :
    (key.erase spellings).name? = key.name? := by
  cases key with
  | literal value raw => cases value <;> rfl
  | _ => rfl

@[simp] theorem children_erase (spellings : Bool) (key : PropertyKey ι) :
    (key.erase spellings).children = key.children := by
  cases key <;> rfl

end PropertyKey

theorem NodeKind.map_erase {ι κ : Type} (f : ι → κ) (spellings : Bool) (kind : NodeKind ι) :
    (kind.erase spellings).map f = (kind.map f).erase spellings := by
  cases kind with
  | property key value shorthand => cases key <;> rfl
  | _ => rfl

theorem Shape.reading_erase (spellings : Bool) (s : Shape) : (s.erase spellings).reading = s.reading := by
  induction s using Shape.induction with
  | missing => rfl
  | node span kind ih =>
    have below : kind.map (reading ∘ erase spellings) = kind.map reading := NodeKind.map_congr ih
    rw [erase_node, reading_node, reading_node, NodeKind.map_erase, NodeKind.map_map, below]
    cases kind.map reading with
    | property key value shorthand => simp [NodeKind.erase, NodeKind.reading]
    | _ => rfl

theorem Tree.Grounded.kind?_shape {t : Tree} {id : NodeId} (h : t.Grounded id) :
    (t.shape id).kind? = (t.kind? id).map (NodeKind.map t.shape) := by
  cases hn : t.get? id with
  | none =>
    rw [shape_of_none hn, kind?, hn]
    rfl
  | some node =>
    rw [h.shape_eq hn, kind?_of_get? hn]
    rfl

end MarkupEditor
