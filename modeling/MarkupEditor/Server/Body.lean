import MarkupEditor.Json.Reader
import MarkupEditor.Store.Basic
import MarkupEditor.Text.Split

set_option autoImplicit false

namespace MarkupEditor

inductive RequestError where
  | missingBody
  | unreadableBody
  | notFound
  | store (error : StoreError)
  | interrupted (reason : String)
  deriving DecidableEq

namespace RequestError

def ofStore : StoreError → RequestError
  | .notFound _ => .notFound
  | .interrupted reason => .interrupted reason
  | error => .store error

def message : RequestError → String
  | .missingBody => "Missing string body"
  | .unreadableBody => "Invalid JSON body: expected a value"
  | .notFound => "Not Found"
  | .store error => error.message
  | .interrupted reason => "Store task failed: " ++ reason

def status : RequestError → Nat
  | .missingBody | .unreadableBody => 400
  | .notFound => 404
  | .store _ | .interrupted _ => 500

end RequestError

def isHeaderText (c : Char) : Bool :=
  (' ' ≤ c && c ≤ '~') || c == '\t'

def announcesJson (contentType : String) : Bool :=
  contentType.toList.all isHeaderText && Text.occursIn "application/json".toList contentType.toList

def carriedBy : Json → Option String
  | .string markup => some markup
  | .object members => (Json.lastOf? "value" members).bind Json.string?
  | _ => none

/-- What a body carries; a body in JSON may carry nothing. -/
def carried (contentType : Option String) (body : String) : Except RequestError (Option String) :=
  if contentType.any announcesJson then
    match Json.readAll body.toList with
    | some value => .ok (carriedBy value)
    | none => .error .unreadableBody
  else .ok (some body)

def bodyMarkup (contentType : Option String) (body : String) : Except RequestError String := do
  match ← carried contentType body with
  | none => throw .missingBody
  | some markup => if markup = "" then throw .missingBody else return markup

end MarkupEditor
