import MarkupEditor.Store.Basic
import MarkupEditor.Store.Components

set_option autoImplicit false

namespace MarkupEditor

namespace Components

def update (components : Components) (id value : String) : StoreReply Components :=
  if (components.get? id).isSome then ⟨components.insert id value, .ok ()⟩
  else ⟨components, .error (.notFound id)⟩

end Components

instance : ComponentStore Components where
  create components id value := ⟨components.insert id value, .ok ()⟩
  read components id := .ok (components.get? id)
  update := Components.update

end MarkupEditor
