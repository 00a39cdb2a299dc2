import MarkupEditor.Json.Printer
import MarkupEditor.Server.Body
import MarkupEditor.Server.Target

set_option autoImplicit false

namespace MarkupEditor

/-- A request that can be sent: its method, the path of its target, its headers and its body. -/
structure Request where
  method : String
  path : List Char
  headers : List (String × String)
  body : String

structure Response where
  status : Nat
  headers : List (String × String)
  body : String

def isTokenChar (c : Char) : Bool :=
  c.isAlphanum || "!#$%&'*+-.^_\x60|~".toList.contains c

def isToken (s : String) : Bool :=
  !s.isEmpty && s.toList.all isTokenChar

def isHeaderName (s : String) : Bool :=
  isToken s && s.length ≤ 0xFFFF

def isHeaderValueChar (c : Char) : Bool :=
  c == '\t' || (' ' ≤ c && c != '\x7f')

namespace Request

def ofParts? (method target : String) (headers : List (String × String)) (body : String) :
    Option Request := do
  let path ← Target.path? target
  if isToken method &&
    headers.all fun (name, value) => isHeaderName name && value.toList.all isHeaderValueChar
  then some ⟨method, path, headers, body⟩
  else none

def header? (r : Request) (name : String) : Option String :=
  (r.headers.find? fun header => header.1.toList.map Char.toLower = name.toList).map (·.2)

def markup (r : Request) : Except RequestError String :=
  bodyMarkup (r.header? "content-type") r.body

end Request

/-- A route with the piece of the path that stands for an identifier. -/
inductive Route where
  | components
  | component (piece : List Char)
  | preview (piece : List Char)
  deriving DecidableEq

namespace Route

/-- The route of a path. A piece that stands for an identifier is not empty. -/
def ofPath? (path : List Char) : Option Route :=
  match (Text.splitAll '/' path).map String.ofList with
  | ["", "component"] => some .components
  | ["", "component", piece] => if piece.isEmpty then none else some (.component piece.toList)
  | ["", "preview", piece] => if piece.isEmpty then none else some (.preview piece.toList)
  | _ => none

def methods : Route → List String
  | .components => ["POST"]
  | .component _ => ["PUT"]
  | .preview _ => ["GET", "HEAD"]

def allowHeader (route : Route) : String × String :=
  ("allow", ",".intercalate route.methods)

end Route

namespace Response

def text (status : Nat) (body : String) : Response :=
  ⟨status, [("content-type", "text/plain; charset=utf-8")], body⟩

def json (status : Nat) (value : Json) : Response :=
  ⟨status, [("content-type", "application/json")], value.print⟩

def ofError (error : RequestError) : Response :=
  json error.status (.object [("error", .string error.message)])

def badIdentifier : Response :=
  text 400 "Invalid URL: Invalid UTF-8 in \x60id\x60"

def withHeaders (response : Response) (headers : List (String × String)) : Response :=
  { response with headers := response.headers ++ headers }

end Response

structure Handled (σ : Type) where
  store : σ
  response : Response

namespace Server

variable {σ : Type} [ComponentStore σ]

def create (store : σ) (r : Request) (newId : String) : Handled σ :=
  match r.markup with
  | .error error => ⟨store, .ofError error⟩
  | .ok markup =>
    let reply := ComponentStore.create store newId markup
    match reply.answer with
    | .ok _ => ⟨reply.store, .json 200 (.object [("id", .string newId)])⟩
    | .error error => ⟨reply.store, .ofError (.ofStore error)⟩

def update (store : σ) (r : Request) (id : String) : Handled σ :=
  match r.markup with
  | .error error => ⟨store, .ofError error⟩
  | .ok markup =>
    let reply := ComponentStore.update store id markup
    match reply.answer with
    | .ok _ => ⟨reply.store, .json 200 (.object [("id", .string id), ("value", .string markup)])⟩
    | .error error => ⟨reply.store, .ofError (.ofStore error)⟩

def preview (store : σ) (id : String) : Response :=
  match ComponentStore.read store id with
  | .ok (some markup) => .text 200 markup
  | .ok none => .text 404 "Not Found"
  | .error error => .ofError (.ofStore error)

def answerRoute (store : σ) (r : Request) (newId : String) : Route → Handled σ
  | .components => create store r newId
  | .component piece =>
    match Target.decode? piece with
    | some id => update store r id
    | none => ⟨store, .badIdentifier⟩
  | .preview piece =>
    match Target.decode? piece with
    | some id => ⟨store, preview store id⟩
    | none => ⟨store, .badIdentifier⟩

/-- Answers a request that does not ask for options. -/
def dispatch (store : σ) (r : Request) (newId : String) : Handled σ :=
  match Route.ofPath? r.path with
  | none => ⟨store, ⟨404, [], ""⟩⟩
  | some route =>
    if route.methods.contains r.method then answerRoute store r newId route
    else ⟨store, ⟨405, [route.allowHeader], ""⟩⟩

def options (r : Request) : Response :=
  let allowed := (Route.ofPath? r.path).toList.map Route.allowHeader
  ⟨200, allowed ++ [("access-control-allow-origin", "*"), ("access-control-allow-methods", "*"),
    ("access-control-allow-headers", "*")], ""⟩

/-- Answers a request. A component that is made gets the given identifier. A request for the head of an
answer gets no body. -/
def answer (store : σ) (r : Request) (newId : String) : Handled σ :=
  if r.method = "OPTIONS" then ⟨store, options r⟩
  else
    let handled := dispatch store r newId
    let response := handled.response.withHeaders
      [("access-control-allow-origin", "*"), ("access-control-expose-headers", "*")]
    ⟨handled.store, if r.method = "HEAD" then { response with body := "" } else response⟩

end Server

end MarkupEditor
