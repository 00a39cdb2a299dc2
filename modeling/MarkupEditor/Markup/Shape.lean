import MarkupEditor.Markup.Node

set_option autoImplicit false

namespace MarkupEditor

/-- The nested form of a node. A reference that no node answers is `missing`. -/
inductive Shape where
  | missing
  | node (span : Option Span) (kind : NodeKind Shape)

namespace Shape

variable {α : Type} (missing : α) (step : Option Span → NodeKind α → α)

mutual

def fold : Shape → α
  | .missing => missing
  | .node span kind => step span (foldKind kind)

def foldKind : NodeKind Shape → NodeKind α
  | .program body => .program (foldList body)
  | .expressionStatement expression => .expressionStatement (fold expression)
  | .element name attributes children selfClosing =>
    .element name (foldList attributes) (foldList children) selfClosing
  | .fragment children => .fragment (foldList children)
  | .text value raw => .text value raw
  | .expressionContainer expression => .expressionContainer (foldOption expression)
  | .namedAttribute name value => .namedAttribute name (foldOption value)
  | .spreadAttribute argument => .spreadAttribute (fold argument)
  | .literal value raw => .literal value raw
  | .identifier name => .identifier name
  | .object properties => .object (foldList properties)
  | .property key value shorthand => .property (foldKey key) (fold value) shorthand
  | .spread argument => .spread (fold argument)
  | .array elements => .array (foldList elements)
  | .parenthesized expression => .parenthesized (fold expression)
  | .opaqueText parts => .opaqueText (foldParts parts)

def foldList : List Shape → List α
  | [] => []
  | shape :: shapes => fold shape :: foldList shapes

def foldOption : Option Shape → Option α
  | none => none
  | some shape => some (fold shape)

def foldKey : PropertyKey Shape → PropertyKey α
  | .identifier name => .identifier name
  | .literal value raw => .literal value raw
  | .computed expression => .computed (fold expression)

def foldPart : OpaquePart Shape → OpaquePart α
  | .source text => .source text
  | .node child => .node (fold child)

def foldParts : List (OpaquePart Shape) → List (OpaquePart α)
  | [] => []
  | part :: parts => foldPart part :: foldParts parts

end

theorem foldList_eq (shapes : List Shape) :
    foldList missing step shapes = shapes.map (fold missing step) := by
  induction shapes with
  | nil => rfl
  | cons shape shapes ih => rw [foldList, ih, List.map_cons]

theorem foldParts_eq (parts : List (OpaquePart Shape)) :
    foldParts missing step parts = parts.map (·.map (fold missing step)) := by
  induction parts with
  | nil => rfl
  | cons part parts ih =>
    rw [foldParts, ih, List.map_cons]
    cases part <;> rfl

theorem fold_node (span : Option Span) (kind : NodeKind Shape) :
    fold missing step (.node span kind) = step span (kind.map (fold missing step)) := by
  rw [fold]
  congr 1
  cases kind with
  | expressionContainer expression => cases expression <;> rfl
  | namedAttribute name value => cases value <;> rfl
  | property key value shorthand => cases key <;> rfl
  | _ => simp only [foldKind, NodeKind.map, foldList_eq, foldParts_eq]

end Shape

end MarkupEditor
