import MarkupEditor.Markup.Tree

set_option autoImplicit false

namespace MarkupEditor.Tree

def isText (t : Tree) (id : NodeId) : Bool :=
  (t.kind? id).any NodeKind.isText

def textValue? (t : Tree) (id : NodeId) : Option String :=
  match t.kind? id with
  | some (.text value _) => some value
  | _ => none

/-- Whether a node is text, or an element that holds nothing else. -/
def canEditText (t : Tree) (id : NodeId) : Bool :=
  match t.kind? id with
  | some (.text ..) => true
  | some (.element _ _ children _) => children.all t.isText
  | _ => false

/-- The text of a node: its value, or the values of the text among its children. -/
def textOf (t : Tree) (id : NodeId) : String :=
  match t.kind? id with
  | some (.text value _) => value
  | some (.element _ _ children _) => String.join (children.filterMap t.textValue?)
  | _ => ""

/-- Replaces the value of a text node, or all children of an element by one text. -/
def setText (t : Tree) (id : NodeId) (text : String) : Tree :=
  match t.kind? id with
  | some (.text ..) => t.setKind id (.text text none)
  | some (.element name attributes _ selfClosing) =>
    let (child, t) := t.alloc (.text text none)
    t.setKind id (.element name attributes [child] selfClosing)
  | _ => t

end MarkupEditor.Tree
