import MarkupEditor.Markup.Tree
/-!
# Attributes of elements

Reading and setting attributes with literal values. Of several attributes with one name the first
counts. An attribute without a value reads as true, and one with any other expression as absent.
-/

set_option autoImplicit false

namespace MarkupEditor.Tree

def isNamed (t : Tree) (name : String) (id : NodeId) : Bool :=
  match t.kind? id with
  | some (.namedAttribute other _) => other == name
  | _ => false

def attributesOf (t : Tree) (id : NodeId) : List NodeId :=
  match t.kind? id with
  | some (.element _ attributes _ _) => attributes
  | _ => []

def findAttribute? (t : Tree) (element : NodeId) (name : String) : Option NodeId :=
  (t.attributesOf element).find? (t.isNamed name)

def attributeValue? (t : Tree) (attr : NodeId) : Option NodeId :=
  match t.kind? attr with
  | some (.namedAttribute _ value) => value
  | _ => none

def literal? (t : Tree) (id : NodeId) : Option Literal :=
  match t.kind? id with
  | some (.literal value _) => some value
  | _ => none

def contained? (t : Tree) (id : NodeId) : Option NodeId :=
  match t.kind? id with
  | some (.expressionContainer expression) => expression
  | _ => none

/-- The literal value of an attribute, in braces or not. -/
def getAttribute? (t : Tree) (element : NodeId) (name : String) : Option Literal :=
  (t.findAttribute? element name).bind fun attr =>
    match t.attributeValue? attr with
    | none => some (.boolean true)
    | some value => (t.literal? value).or ((t.contained? value).bind t.literal?)

def setValue (t : Tree) (attr value : NodeId) : Tree :=
  match t.kind? attr with
  | some (.namedAttribute name _) => t.setKind attr (.namedAttribute name (some value))
  | _ => t

def setAttributes (t : Tree) (element : NodeId) (attributes : List NodeId) : Tree :=
  match t.kind? element with
  | some (.element name _ children selfClosing) =>
    t.setKind element (.element name attributes children selfClosing)
  | _ => t

def addAttribute (t : Tree) (element : NodeId) (name : String) (value : NodeId) : Tree :=
  let (attr, t) := t.alloc (.namedAttribute name (some value))
  t.setAttributes element (t.attributesOf element ++ [attr])

/-- Sets an attribute of an element to a literal: the first with the name, or a new one at the end. -/
def setAttribute (t : Tree) (element : NodeId) (name : String) (value : Literal) : Tree :=
  if t.isElement element then
    let (literal, t) := t.alloc (.literal value none)
    match t.findAttribute? element name with
    | some attr => t.setValue attr literal
    | none => t.addAttribute element name literal
  else t

end MarkupEditor.Tree
