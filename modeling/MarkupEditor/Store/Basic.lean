import MarkupEditor.Files.Directory

set_option autoImplicit false

namespace MarkupEditor

inductive StoreError where
  | notFound (id : String)
  | file (error : FileError)
  | unreadable (detail : String)
  | interrupted (reason : String)
  deriving DecidableEq

namespace StoreError

def message : StoreError → String
  | .notFound id => "Component not found: " ++ id
  | .file error => "IO error: " ++ error.message
  | .unreadable detail => "Serialization error: " ++ detail
  | .interrupted reason => reason

def isNotFound : StoreError → Bool
  | .notFound _ => true
  | _ => false

end StoreError

/-- What a call that writes gives: the next store, and whether the write was done. -/
structure StoreReply (σ : Type) where
  store : σ
  answer : Except StoreError Unit

class ComponentStore (σ : Type) where
  create (store : σ) (id value : String) : StoreReply σ
  read (store : σ) (id : String) : Except StoreError (Option String)
  update (store : σ) (id value : String) : StoreReply σ

end MarkupEditor
