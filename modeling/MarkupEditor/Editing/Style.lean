import MarkupEditor.Editing.Attribute
import MarkupEditor.Editing.StyleMap
import MarkupEditor.Markup.Lexer
/-!
# Inline styles

The style of an element is the object in its `style` attribute. Reading understands the properties with
a plain name and a literal value. Writing a map removes the understood declarations that the map does
not name, changes the others in place, and adds new ones at the end; a property that is not understood
stays where it is, unless the map has a value for its name.
-/

set_option autoImplicit false

namespace MarkupEditor

def styleAttribute : String := "style"

/-- The text of a literal as a style value; null is the empty text. -/
def Literal.styleText : Literal → String
  | .null => ""
  | other => other.display

def PropertyKey.name? {ι : Type} : PropertyKey ι → Option String
  | .identifier name => some name
  | .literal (.string name) _ => some name
  | _ => none

def isIdentifierName (name : String) : Bool :=
  match name.toList with
  | [] => false
  | c :: cs => Lexer.beginsIdentifier c && cs.all Lexer.continuesIdentifier

def PropertyKey.ofName {ι : Type} (name : String) : PropertyKey ι :=
  if isIdentifierName name then .identifier name else .literal (.string name) none

namespace Tree

def propertiesOf (t : Tree) (object : NodeId) : List NodeId :=
  match t.kind? object with
  | some (.object properties) => properties
  | _ => []

def isObject (t : Tree) (id : NodeId) : Bool :=
  match t.kind? id with
  | some (.object _) => true
  | _ => false

def styleObject? (t : Tree) (element : NodeId) : Option NodeId :=
  (t.findAttribute? element styleAttribute).bind fun attr =>
    (t.attributeValue? attr).bind fun value => (t.contained? value).filter t.isObject

def propertyName? (t : Tree) (property : NodeId) : Option String :=
  match t.kind? property with
  | some (.property key _ _) => key.name?
  | _ => none

/-- The name and the value of a property that is understood. -/
def declaration? (t : Tree) (property : NodeId) : Option (String × String) :=
  match t.kind? property with
  | some (.property key value false) =>
    key.name?.bind fun name => (t.literal? value).map fun literal => (name, literal.styleText)
  | _ => none

def readStyle (t : Tree) (element : NodeId) : StyleMap :=
  match t.styleObject? element with
  | some object => .ofList ((t.propertiesOf object).filterMap t.declaration?)
  | none => []

def allocStyle (t : Tree) (properties : List NodeId) : NodeId × NodeId × Tree :=
  let (object, t) := t.alloc (.object properties)
  let (container, t) := t.alloc (.expressionContainer (some object))
  (object, container, t)

/-- Makes sure that a style attribute holds an object. An expression that is none is spread into a new
object; a string or no value gives way to an empty one. -/
def ensureObject (t : Tree) (attr : NodeId) : NodeId × Tree :=
  let value := t.attributeValue? attr
  match value, value.bind t.contained? with
  | some container, some expression =>
    if t.isObject expression then (expression, t)
    else
      let (spread, t) := t.alloc (.spread expression)
      let (object, t) := t.alloc (.object [spread])
      (object, t.setKind container (.expressionContainer (some object)))
  | _, _ =>
    let (object, container, t) := t.allocStyle []
    (object, t.setValue attr container)

/-- Makes sure that an element has a style object. Nothing happens at other nodes. -/
def ensureStyle (t : Tree) (element : NodeId) : Option (NodeId × Tree) :=
  if t.isElement element then
    match t.findAttribute? element styleAttribute with
    | some attr => some (t.ensureObject attr)
    | none =>
      let (object, container, t) := t.allocStyle []
      some (object, t.addAttribute element styleAttribute container)
  else none

def allocDeclaration (t : Tree) (name value : String) : NodeId × Tree :=
  let (literal, t) := t.alloc (.literal (.string value) none)
  t.alloc (.property (.ofName name) literal false)

def setDeclaration (t : Tree) (property : NodeId) (value : String) : Tree :=
  let (literal, t) := t.alloc (.literal (.string value) none)
  match t.kind? property with
  | some (.property key _ shorthand) => t.setKind property (.property key literal shorthand)
  | _ => t

/-- What writing a map makes of one property: what is left to write, and the property that stands in
its place, if any. -/
def writeProperty (t : Tree) (styles : StyleMap) (property : NodeId) :
    Option NodeId × StyleMap × Tree :=
  match t.declaration? property with
  | some (name, current) =>
    match styles.get? name with
    | none => (none, styles, t)
    | some value =>
      (some property, styles.erase name, if value = current then t else t.setDeclaration property value)
  | none =>
    match t.propertyName? property with
    | none => (some property, styles, t)
    | some name =>
      match styles.get? name with
      | none => (some property, styles, t)
      | some value =>
        let (replacement, t) := t.allocDeclaration name value
        (some replacement, styles.erase name, t)

def writeProperties (t : Tree) (styles : StyleMap) : List NodeId → List NodeId × StyleMap × Tree
  | [] => ([], styles, t)
  | property :: properties =>
    let (kept, styles, t) := t.writeProperty styles property
    let (others, styles, t) := t.writeProperties styles properties
    (kept.toList ++ others, styles, t)

def allocDeclarations (t : Tree) : StyleMap → List NodeId × Tree
  | [] => ([], t)
  | (name, value) :: styles =>
    let (first, t) := t.allocDeclaration name value
    let (others, t) := t.allocDeclarations styles
    (first :: others, t)

def writeStyle (t : Tree) (element : NodeId) (styles : StyleMap) : Tree :=
  match t.ensureStyle element with
  | none => t
  | some (object, t) =>
    let (kept, left, t) := t.writeProperties styles (t.propertiesOf object)
    let (added, t) := t.allocDeclarations left
    if t.isObject object then t.setKind object (.object (kept ++ added)) else t

def getStyle? (t : Tree) (element : NodeId) (name : String) : Option String :=
  (t.readStyle element).get? name

/-- Sets a declaration, or removes it if there is no value or an empty one. -/
def setStyle (t : Tree) (element : NodeId) (name : String) (value : Option String) : Tree :=
  if t.isElement element then
    let styles := t.readStyle element
    match value.filter (· ≠ "") with
    | some value => t.writeStyle element (styles.insert name value)
    | none => t.writeStyle element (styles.erase name)
  else t

end Tree

end MarkupEditor
