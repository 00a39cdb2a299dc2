import MarkupEditor.Editing.Content
import MarkupEditor.Editing.Style

set_option autoImplicit false

namespace MarkupEditor

/-- A request to change a node. A style without a value is removed. -/
inductive Mutation where
  | setText (text : String)
  | setStyle (property : String) (value : Option String)
  | setAttribute (name : String) (value : Literal)
  deriving DecidableEq

inductive MutationError where
  | nodeNotFound (node : NodeId)
  | notAnElement
  | textNotEditable
  deriving DecidableEq

def MutationError.message : MutationError → String
  | .nodeNotFound node => "Node not found: " ++ node.describe
  | .notAnElement => "Node is not an element"
  | .textNotEditable => "Node text is not editable"

namespace Mutation

/-- Whether a request asks for nothing: a style without a name. -/
def isNoop : Mutation → Bool
  | .setStyle property _ => property == ""
  | _ => false

def validate (m : Mutation) (t : Tree) (node : NodeId) : Except MutationError Unit :=
  if (t.get? node).isNone then .error (.nodeNotFound node)
  else
    match m with
    | .setText _ => if t.canEditText node then .ok () else .error .textNotEditable
    | _ => if t.isElement node then .ok () else .error .notAnElement

def perform (m : Mutation) (t : Tree) (node : NodeId) : Tree :=
  if m.isNoop then t
  else
    match m with
    | .setText text => t.setText node text
    | .setStyle property value => t.setStyle node property value
    | .setAttribute name value => t.setAttribute node name value

def apply (m : Mutation) (t : Tree) (node : NodeId) : Except MutationError Tree :=
  (m.validate t node).map fun _ => m.perform t node

end Mutation

end MarkupEditor
