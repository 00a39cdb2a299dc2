import MarkupEditor.Json.Record
import MarkupEditor.Markup.Tree

set_option autoImplicit false

namespace MarkupEditor

def Literal.toJson : Literal → Json
  | .null => .null
  | .boolean b => .bool b
  | .number x => .number (.float x)
  | .string s => .string s

/-- The literal that a JSON value is; arrays and objects are none. -/
def Literal.ofJson? : Json → Option Literal
  | .null => some .null
  | .bool b => some (.boolean b)
  | .number n => some (.number n.toBinary64)
  | .string s => some (.string s)
  | _ => none

namespace Json

def ofId (id : NodeId) : Json :=
  .number (.natural id.index)

def ofIds (ids : List NodeId) : Json :=
  .array (ids.map ofId)

def ofOption {α : Type} (write : α → Json) : Option α → Json
  | some a => write a
  | none => .null

def ofSpan (span : Span) : Json :=
  .object [("start", .number (.natural span.start)), ("end", .number (.natural span.stop))]

def ofKey : PropertyKey NodeId → Json
  | .identifier name => .object [("type", .string "Identifier"), ("name", .string name)]
  | .literal value raw =>
    .object [("type", .string "Literal"), ("value", value.toJson), ("raw", ofOption .string raw)]
  | .computed expression => .object [("type", .string "Computed"), ("expression", ofId expression)]

def ofPart : OpaquePart NodeId → Json
  | .source text => .object [("type", .string "Source"), ("value", .string text)]
  | .node child => .object [("type", .string "Node"), ("value", ofId child)]

def kindFields : NodeKind NodeId → List (String × Json)
  | .program body => [("body", ofIds body)]
  | .expressionStatement expression => [("expression", ofId expression)]
  | .element name attributes children selfClosing =>
    [("name", .string name), ("attributes", ofIds attributes), ("children", ofIds children),
     ("self_closing", .bool selfClosing)]
  | .fragment children => [("children", ofIds children)]
  | .text value raw => [("value", .string value), ("raw", ofOption .string raw)]
  | .expressionContainer expression => [("expression", ofOption ofId expression)]
  | .namedAttribute name value => [("name", .string name), ("value", ofOption ofId value)]
  | .spreadAttribute argument => [("argument", ofId argument)]
  | .literal value raw => [("value", value.toJson), ("raw", ofOption .string raw)]
  | .identifier name => [("name", .string name)]
  | .object properties => [("properties", ofIds properties)]
  | .property key value shorthand =>
    [("key", ofKey key), ("value", ofId value), ("shorthand", .bool shorthand)]
  | .spread argument => [("argument", ofId argument)]
  | .array elements => [("elements", ofIds elements)]
  | .parenthesized expression => [("expression", ofId expression)]
  | .opaqueText parts => [("parts", .array (parts.map ofPart))]

def ofKind (kind : NodeKind NodeId) : Json :=
  .object (("type", .string kind.typeName) :: kindFields kind)

def ofNode (node : Node) : Json :=
  .object [("kind", ofKind node.kind), ("span", ofOption ofSpan node.span)]

def ofTree (t : Tree) : Json :=
  .object [("nodes", .array (t.nodes.toList.map ofNode)), ("root", ofId t.root)]

def id? (value : Json) : Option NodeId :=
  (value.naturalBelow? UInt32.size).map NodeId.mk

def ids? (value : Json) : Option (List NodeId) :=
  value.items? id?

def span? (value : Json) : Option Span := do
  let (start, stop) ← field2? "start" "end" value
  return ⟨← required? (naturalBelow? UInt64.size) start, ← required? (naturalBelow? UInt64.size) stop⟩

def tagName? (names : List String) : Json → Option String
  | .string name => some name
  | .number (.natural n) => names[n]?
  | _ => none

def keyForms : List String := ["Identifier", "Literal", "Computed"]

def keyForm? : Json → Option (String × Json)
  | .object members => do
    let name ← required? (tagName? keyForms) (← fieldIn? members "type")
    return (name, .object (members.filter (·.1 ≠ "type")))
  | .array (tag :: items) => (tagName? keyForms tag).map (·, .array items)
  | _ => none

def key? (value : Json) : Option (PropertyKey NodeId) := do
  let (name, record) ← keyForm? value
  if name = "Identifier" then
    return .identifier (← required? string? (← field1? "name" record))
  else if name = "Literal" then
    let (value, raw) ← field2? "value" "raw" record
    return .literal (← required? Literal.ofJson? value) (← optional? string? raw)
  else if name = "Computed" then
    return .computed (← required? id? (← field1? "expression" record))
  else none

/-- The name of a variant that carries nothing: by itself, or as the only member of an object whose
value is empty. -/
def unitName? : Json → Option String
  | .string name => some name
  | .object [(name, .null)] => some name
  | .object [(name, .object [])] => some name
  | _ => none

def partForms : List String := ["Source", "Node"]

/-- The name of the form of a part and its content. In an array the form stands first. -/
def partForm? : Json → Option (String × Option Json)
  | .object members => do
    return (← required? unitName? (← fieldIn? members "type"), ← fieldIn? members "value")
  | .array [tag, content] => (tagName? partForms tag).map (·, some content)
  | _ => none

def part? (value : Json) : Option (OpaquePart NodeId) := do
  let (name, content) ← partForm? value
  if name = "Source" then return .source (← required? string? content)
  else if name = "Node" then return .node (← required? id? content)
  else none

def kindOf? (name : String) (record : Json) : Option (NodeKind NodeId) := do
  match name with
  | "Program" => return .program (← required? ids? (← field1? "body" record))
  | "ExpressionStatement" =>
    return .expressionStatement (← required? id? (← field1? "expression" record))
  | "Element" =>
    match ← fields? ["name", "attributes", "children", "self_closing"] record with
    | [name, attributes, children, selfClosing] =>
      return .element (← required? string? name) (← required? ids? attributes)
        (← required? ids? children) (← required? bool? selfClosing)
    | _ => none
  | "Fragment" => return .fragment (← required? ids? (← field1? "children" record))
  | "Text" =>
    let (value, raw) ← field2? "value" "raw" record
    return .text (← required? string? value) (← optional? string? raw)
  | "ExpressionContainer" =>
    return .expressionContainer (← optional? id? (← field1? "expression" record))
  | "Attribute" =>
    let (name, value) ← field2? "name" "value" record
    return .namedAttribute (← required? string? name) (← optional? id? value)
  | "SpreadAttribute" => return .spreadAttribute (← required? id? (← field1? "argument" record))
  | "Literal" =>
    let (value, raw) ← field2? "value" "raw" record
    return .literal (← required? Literal.ofJson? value) (← optional? string? raw)
  | "Identifier" => return .identifier (← required? string? (← field1? "name" record))
  | "Object" => return .object (← required? ids? (← field1? "properties" record))
  | "Property" =>
    match ← fields? ["key", "value", "shorthand"] record with
    | [key, value, shorthand] =>
      return .property (← required? key? key) (← required? id? value) (← required? bool? shorthand)
    | _ => none
  | "Spread" => return .spread (← required? id? (← field1? "argument" record))
  | "Array" => return .array (← required? ids? (← field1? "elements" record))
  | "Parenthesized" => return .parenthesized (← required? id? (← field1? "expression" record))
  | "Opaque" => return .opaqueText (← required? (items? part?) (← field1? "parts" record))
  | _ => none

def kind? (value : Json) : Option (NodeKind NodeId) := do
  let (name, record) ← variant? "type" value
  kindOf? name record

def node? (value : Json) : Option Node := do
  let (kind, span) ← field2? "kind" "span" value
  return ⟨← required? kind? kind, ← optional? span? span⟩

def tree? (value : Json) : Option Tree := do
  let (nodes, root) ← field2? "nodes" "root" value
  return ⟨(← required? (items? node?) nodes).toArray, ← required? id? root⟩

end Json

end MarkupEditor
