import MarkupEditor.Number.Shortest
/-!
# Nodes

What a node of a markup tree holds. A node kind is written over the type of its child references, so
that one definition serves the stored form, whose references are numbers, and the nested form, whose
references are the children themselves. `NodeKind.children` fixes the order of the children once.
-/

set_option autoImplicit false

namespace MarkupEditor

structure Span where
  start : Nat
  stop : Nat
  deriving DecidableEq

def Span.describe (span : Span) : String :=
  toString span.start ++ ".." ++ toString span.stop

structure NodeId where
  index : Nat
  deriving DecidableEq

def NodeId.describe (id : NodeId) : String :=
  "#" ++ toString id.index

inductive Literal where
  | null
  | boolean (value : Bool)
  | number (value : Binary64)
  | string (value : String)
  deriving DecidableEq

namespace Literal

def display : Literal → String
  | .null => "null"
  | .boolean true => "true"
  | .boolean false => "false"
  | .number x => String.ofList (Shortest.print x)
  | .string s => s

def string? : Literal → Option String
  | .string s => some s
  | _ => none

def isString (value : Literal) : Bool :=
  value.string?.isSome

end Literal

inductive PropertyKey (ι : Type) where
  | identifier (name : String)
  | literal (value : Literal) (raw : Option String)
  | computed (expression : ι)

/-- A piece of an expression that is kept as text: source, or markup inside it. -/
inductive OpaquePart (ι : Type) where
  | source (text : String)
  | node (child : ι)

/-- What a node is, over the type of references to its children. A `raw` text is the spelling in
the source; it is absent on nodes that an edit made. -/
inductive NodeKind (ι : Type) where
  | program (body : List ι)
  | expressionStatement (expression : ι)
  | element (name : String) (attributes children : List ι) (selfClosing : Bool)
  | fragment (children : List ι)
  | text (value : String) (raw : Option String)
  | expressionContainer (expression : Option ι)
  | namedAttribute (name : String) (value : Option ι)
  | spreadAttribute (argument : ι)
  | literal (value : Literal) (raw : Option String)
  | identifier (name : String)
  | object (properties : List ι)
  | property (key : PropertyKey ι) (value : ι) (shorthand : Bool)
  | spread (argument : ι)
  | array (elements : List ι)
  | parenthesized (expression : ι)
  | opaqueText (parts : List (OpaquePart ι))

namespace PropertyKey

variable {ι κ : Type}

def map (f : ι → κ) : PropertyKey ι → PropertyKey κ
  | .identifier name => .identifier name
  | .literal value raw => .literal value raw
  | .computed expression => .computed (f expression)

def children : PropertyKey ι → List ι
  | .computed expression => [expression]
  | _ => []

end PropertyKey

namespace OpaquePart

variable {ι κ : Type}

def map (f : ι → κ) : OpaquePart ι → OpaquePart κ
  | .source text => .source text
  | .node child => .node (f child)

def child? : OpaquePart ι → Option ι
  | .source _ => none
  | .node child => some child

end OpaquePart

namespace NodeKind

variable {ι κ : Type}

def map (f : ι → κ) : NodeKind ι → NodeKind κ
  | .program body => .program (body.map f)
  | .expressionStatement expression => .expressionStatement (f expression)
  | .element name attributes children selfClosing =>
    .element name (attributes.map f) (children.map f) selfClosing
  | .fragment children => .fragment (children.map f)
  | .text value raw => .text value raw
  | .expressionContainer expression => .expressionContainer (expression.map f)
  | .namedAttribute name value => .namedAttribute name (value.map f)
  | .spreadAttribute argument => .spreadAttribute (f argument)
  | .literal value raw => .literal value raw
  | .identifier name => .identifier name
  | .object properties => .object (properties.map f)
  | .property key value shorthand => .property (key.map f) (f value) shorthand
  | .spread argument => .spread (f argument)
  | .array elements => .array (elements.map f)
  | .parenthesized expression => .parenthesized (f expression)
  | .opaqueText parts => .opaqueText (parts.map (·.map f))

/-- The references to the children in source order; attributes stand before children. -/
def children : NodeKind ι → List ι
  | .program body => body
  | .expressionStatement expression => [expression]
  | .element _ attributes children _ => attributes ++ children
  | .fragment children => children
  | .text .. => []
  | .expressionContainer expression => expression.toList
  | .namedAttribute _ value => value.toList
  | .spreadAttribute argument => [argument]
  | .literal .. => []
  | .identifier _ => []
  | .object properties => properties
  | .property key value _ => key.children ++ [value]
  | .spread argument => [argument]
  | .array elements => elements
  | .parenthesized expression => [expression]
  | .opaqueText parts => parts.filterMap (·.child?)

def isElement : NodeKind ι → Bool
  | .element .. => true
  | _ => false

def isText : NodeKind ι → Bool
  | .text .. => true
  | _ => false

def typeName : NodeKind ι → String
  | .program .. => "Program"
  | .expressionStatement .. => "ExpressionStatement"
  | .element .. => "Element"
  | .fragment .. => "Fragment"
  | .text .. => "Text"
  | .expressionContainer .. => "ExpressionContainer"
  | .namedAttribute .. => "Attribute"
  | .spreadAttribute .. => "SpreadAttribute"
  | .literal .. => "Literal"
  | .identifier .. => "Identifier"
  | .object .. => "Object"
  | .property .. => "Property"
  | .spread .. => "Spread"
  | .array .. => "Array"
  | .parenthesized .. => "Parenthesized"
  | .opaqueText .. => "Opaque"

theorem children_map (f : ι → κ) (kind : NodeKind ι) :
    (kind.map f).children = kind.children.map f := by
  cases kind <;> try simp [map, children]
  case expressionContainer e => cases e <;> rfl
  case namedAttribute v => cases v <;> rfl
  case property key _ _ => cases key <;> rfl
  case opaqueText parts =>
    rw [List.map_filterMap]
    congr
    funext part
    cases part <;> rfl

@[simp] theorem typeName_map (f : ι → κ) (kind : NodeKind ι) :
    (kind.map f).typeName = kind.typeName := by
  cases kind <;> rfl

end NodeKind

end MarkupEditor
