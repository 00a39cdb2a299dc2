import MarkupEditor.Editing.Attribute
import MarkupEditor.Markup.Parser
import MarkupEditor.Markup.Printer
import MarkupEditor.Markup.Walk
/-!
# Markers

Tagging gives every element of a markup a marker attribute with its number in the order of the walk, so
that an element on the screen can be traced back to its node. A marker that is already there is
replaced in its place; of several, all but the first place disappear.
-/

set_option autoImplicit false

namespace MarkupEditor

/-- The reserved attribute that carries an element's identifier. -/
def markerAttribute : String := "data-__interactive-editor-edit-id"

/-- The nodes of a generation by identifier: identifier `n` belongs to the `n`-th element. -/
structure IdentifierMap where
  nodes : List NodeId

namespace IdentifierMap

def get? (m : IdentifierMap) (identifier : Nat) : Option NodeId :=
  m.nodes[identifier]?

def identifierOf? (m : IdentifierMap) (node : NodeId) : Option Nat :=
  m.nodes.findIdx? (· = node)

def size (m : IdentifierMap) : Nat :=
  m.nodes.length

def isEmpty (m : IdentifierMap) : Bool :=
  m.nodes.isEmpty

def entries (m : IdentifierMap) : List (Nat × NodeId) :=
  m.nodes.mapIdx fun identifier node => (identifier, node)

end IdentifierMap

/-- Reads the value of a marker: an identifier of 32 bits, blanks around it. -/
def parseMarker? (marker : String) : Option Nat :=
  Text.readUnsigned 10 UInt32.size (Text.trim marker.toList)

def IdentifierMap.resolve? (m : IdentifierMap) (marker : String) : Option NodeId :=
  (parseMarker? marker).bind m.get?

namespace Tree

def isMarker (t : Tree) (id : NodeId) : Bool :=
  t.isNamed markerAttribute id

def removeMarkers (t : Tree) (element : NodeId) : Tree :=
  t.setAttributes element ((t.attributesOf element).filter fun id => !t.isMarker id)

/-- Replaces the markers of an element by one with the given number. -/
def mark (t : Tree) (element : NodeId) (number : Nat) : Tree :=
  let place := (t.attributesOf element).findIdx? t.isMarker
  let t := t.removeMarkers element
  let (value, t) := t.alloc (.literal (.number (Binary64.ofNat number)) none)
  let (marker, t) := t.alloc (.namedAttribute markerAttribute (some value))
  let attributes := t.attributesOf element
  t.setAttributes element (attributes.insertIdx (place.getD attributes.length) marker)

def markAll (t : Tree) (number : Nat) : List NodeId → Tree
  | [] => t
  | element :: elements => (t.mark element number).markAll (number + 1) elements

end Tree

/-- Tagged markup, the identifiers of its elements, and the tree that they point into. -/
structure Tagged where
  markup : String
  mapping : IdentifierMap
  tree : Tree

def Tree.tag (t : Tree) : Tagged :=
  let elements := t.elements
  let tree := t.markAll 0 elements
  ⟨tree.code, ⟨elements⟩, tree⟩

def tagMarkup (markup : String) : Except ParseError Tagged :=
  (parse markup).map Tree.tag

def stripMarkers (markup : String) : Except ParseError String :=
  (parse markup).map fun t => (t.elements.foldl Tree.removeMarkers t).code

abbrev RenderedAttributes := List (String × String)

/-- The value of the marker on an element of the screen; of attributes with one name the last counts. -/
def RenderedAttributes.marker? (attributes : RenderedAttributes) : Option String :=
  ((attributes.filter (·.1 = markerAttribute)).getLast?).map (·.2)

/-- Whether an element on the screen may be picked. One without a marker does not come from the markup. -/
def RenderedAttributes.canPick (attributes : RenderedAttributes) : Bool :=
  attributes.marker?.isSome

end MarkupEditor
