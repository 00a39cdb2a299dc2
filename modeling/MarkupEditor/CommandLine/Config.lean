import MarkupEditor.Json.Reader
import MarkupEditor.Json.Record
import MarkupEditor.Files.Path
import MarkupEditor.Store.File
import MarkupEditor.Store.Saver

set_option autoImplicit false

namespace MarkupEditor

/-- The settings of a project; the quiet period is in milliseconds. -/
structure Config where
  store : String
  delay : Nat

namespace Config

def fileName : String := "jsxed.config.json"

def standard : Config :=
  ⟨defaultStorePath, defaultDelay⟩

/-- A field that has a standard value when it is absent, and only then. -/
def field? {α : Type} (read : Json → Option α) (standard : α) : Option Json → Option α
  | none => some standard
  | some value => read value

def ofJson? (value : Json) : Option Config :=
  match Json.defaultedFields? ["store", "debounceMs"] value with
  | some [store, delay] => do
    return ⟨← field? Json.string? standard.store store,
      ← field? (Json.naturalBelow? UInt64.size) standard.delay delay⟩
  | _ => none

def read? (text : String) : Option Config :=
  (Json.read text.toList).bind ofJson?

/-- Where components are kept, seen from a working directory; another place may be asked for. -/
def storePath (config : Config) (cwd : String) (other : Option String) : String :=
  Path.join cwd (other.getD config.store)

end Config

end MarkupEditor
