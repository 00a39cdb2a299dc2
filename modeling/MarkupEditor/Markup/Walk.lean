import MarkupEditor.Markup.Tree

set_option autoImplicit false

namespace MarkupEditor

namespace Tree

def preorderTo (t : Tree) : Nat → NodeId → List NodeId
  | 0, _ => []
  | depth + 1, id => id :: (t.childIds id).flatMap (t.preorderTo depth)

def preorder (t : Tree) (id : NodeId) : List NodeId :=
  t.preorderTo t.depthBound id

end Tree

namespace Walk

/-- One step of a walk: the top of the stack is visited and makes way for its children. -/
def next (t : Tree) : List NodeId → Option (NodeId × List NodeId)
  | [] => none
  | id :: stack => some (id, t.childIds id ++ stack)

def run (t : Tree) : Nat → List NodeId → List NodeId
  | 0, _ => []
  | steps + 1, stack =>
    match next t stack with
    | none => []
    | some (id, stack) => id :: run t steps stack

end Walk

/-- A walk under way: the nodes still to visit, the next one last. -/
structure PreOrder where
  tree : Tree
  stack : Array NodeId

/-- The next node of a walk. It makes way for its children, which are put on the stack from the last to the first. -/
def PreOrder.next? (w : PreOrder) : Option (NodeId × PreOrder) :=
  w.stack.back?.map fun id => (id, { w with stack := w.stack.pop ++ (w.tree.childIds id).reverse })

namespace Tree

def walk (t : Tree) (start : NodeId) : PreOrder :=
  ⟨t, #[start]⟩

def visitsTo (t : Tree) : Nat → NodeId → Nat
  | 0, _ => 0
  | depth + 1, id => 1 + ((t.childIds id).map (t.visitsTo depth)).foldr (· + ·) 0

def descendants (t : Tree) (start : NodeId) : List NodeId :=
  Walk.run t (t.visitsTo t.depthBound start) [start]

def elements (t : Tree) : List NodeId :=
  (t.descendants t.root).filter t.isElement

end Tree

end MarkupEditor
