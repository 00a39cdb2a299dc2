import MarkupEditor.Editing.Session
import MarkupEditor.Json.Mutation
import MarkupEditor.Json.Panel
import MarkupEditor.Json.Printer

set_option autoImplicit false

namespace MarkupEditor

inductive HandleError where
  | badJson
  | edit (error : EditError)

structure Reply (α : Type) where
  session : Session
  answer : Except HandleError α

/-- A reaction as a reply; a handle has no listener. -/
def Reaction.toReply {α : Type} (r : Reaction α) : Reply α :=
  ⟨r.session, r.answer.mapError .edit⟩

namespace Handle

def canPick (attributes : String) : Except HandleError Bool :=
  match readAttributes? attributes with
  | some attributes => .ok (RenderedAttributes.canPick attributes)
  | none => .error .badJson

def pick (s : Session) (marker : String) : Reply Bool :=
  let s := s.pick marker
  ⟨s, .ok s.pickedNode?.isSome⟩

/-- Picks the element with these attributes. Without a marker among them the pick stays. -/
def pickElement (s : Session) (attributes : String) : Reply Bool :=
  match readAttributes? attributes with
  | none => ⟨s, .error .badJson⟩
  | some attributes =>
    match RenderedAttributes.marker? attributes with
    | some marker => pick s marker
    | none => ⟨s, .ok false⟩

def panel? (s : Session) : Option String :=
  s.panel?.map fun panel => panel.toJson.print

def setAttribute (s : Session) (name literal : String) : Reply (Option String) :=
  match Literal.read? literal with
  | some value => (s.apply (.setAttribute name value)).toReply
  | none => ⟨s, .error .badJson⟩

def applyRequest (s : Session) (request : String) : Reply (Option String) :=
  match Mutation.read? request with
  | some m => (s.apply m).toReply
  | none => ⟨s, .error .badJson⟩

end Handle

end MarkupEditor
