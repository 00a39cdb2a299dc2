import MarkupEditor.Markup.Shape
/-!
# Markup trees

A tree owns its nodes in one array and names them by place. Edits replace what a node holds and add
nodes at the end; a node that is no longer reachable stays where it is, so a place once handed out keeps
its meaning. `Tree.shape` reads the nested form, in which places play no part.
-/

set_option autoImplicit false

namespace MarkupEditor

/-- A stored node. Nodes that an edit made have no span. -/
structure Node where
  kind : NodeKind NodeId
  span : Option Span

/-- All nodes of a tree, reachable or not, and the place of the root. -/
structure Tree where
  nodes : Array Node
  root : NodeId

namespace Tree

def empty : Tree :=
  { nodes := #[⟨.program [], none⟩], root := ⟨0⟩ }

def size (t : Tree) : Nat :=
  t.nodes.size

def get? (t : Tree) (id : NodeId) : Option Node :=
  t.nodes[id.index]?

def kind? (t : Tree) (id : NodeId) : Option (NodeKind NodeId) :=
  (t.get? id).map (·.kind)

def push (t : Tree) (node : Node) : NodeId × Tree :=
  (⟨t.nodes.size⟩, { t with nodes := t.nodes.push node })

def alloc (t : Tree) (kind : NodeKind NodeId) : NodeId × Tree :=
  t.push ⟨kind, none⟩

/-- Replaces what a node holds and keeps its span. Nothing happens where there is no node. -/
def setKind (t : Tree) (id : NodeId) (kind : NodeKind NodeId) : Tree :=
  { t with nodes := t.nodes.modify id.index fun node => { node with kind } }

def isElement (t : Tree) (id : NodeId) : Bool :=
  (t.kind? id).any NodeKind.isElement

def elementName? (t : Tree) (id : NodeId) : Option String :=
  match t.kind? id with
  | some (.element name ..) => some name
  | _ => none

def childIds (t : Tree) (id : NodeId) : List NodeId :=
  ((t.kind? id).map NodeKind.children).getD []

/-- A depth that no path of distinct nodes exceeds, with one step more for a missing node. -/
def depthBound (t : Tree) : Nat :=
  t.size + 1

def shapeTo (t : Tree) : Nat → NodeId → Shape
  | 0, _ => .missing
  | depth + 1, id =>
    match t.get? id with
    | none => .missing
    | some node => .node node.span (node.kind.map (t.shapeTo depth))

def shape (t : Tree) (id : NodeId) : Shape :=
  t.shapeTo t.depthBound id

@[simp] theorem get?_setKind_ne {t : Tree} {id other : NodeId} {kind : NodeKind NodeId}
    (h : id ≠ other) : (t.setKind id kind).get? other = t.get? other := by
  have : id.index ≠ other.index := fun e => h (by cases id; cases other; simp_all)
  simp [get?, setKind, Array.getElem?_modify, this]

theorem get?_setKind_self (t : Tree) (id : NodeId) (kind : NodeKind NodeId) :
    (t.setKind id kind).get? id = (t.get? id).map fun node => { node with kind } := by
  simp [get?, setKind, Array.getElem?_modify]

@[simp] theorem size_setKind (t : Tree) (id : NodeId) (kind : NodeKind NodeId) :
    (t.setKind id kind).size = t.size := by
  simp [size, setKind]

theorem get?_alloc_old {t : Tree} {kind : NodeKind NodeId} {id : NodeId} (h : id.index < t.size) :
    (t.alloc kind).2.get? id = t.get? id := by
  have : id.index < t.nodes.size := h
  simp [get?, alloc, push, Array.getElem?_push, Nat.ne_of_lt this]

theorem get?_alloc_new (t : Tree) (kind : NodeKind NodeId) :
    (t.alloc kind).2.get? (t.alloc kind).1 = some ⟨kind, none⟩ := by
  simp [get?, alloc, push]

end Tree

end MarkupEditor
