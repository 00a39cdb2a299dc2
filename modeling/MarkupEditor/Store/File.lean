import MarkupEditor.Json.Printer
import MarkupEditor.Json.Reader
import MarkupEditor.Store.Memory
import MarkupEditor.Text.Blank
/-!
# Stores in a file

All components stand in one file, as an object of strings in JSON. Every call reads the file, so what
others write is seen; a missing or blank file holds nothing. A write goes to a file beside it, which
then takes its name, so nobody reads half a store.
-/

set_option autoImplicit false

namespace MarkupEditor

def defaultStorePath : String := ".components.json"

def Components.ofText? (text : String) : Option Components :=
  if (Text.trim text.toList).isEmpty then some .empty
  else ((Json.read text.toList).bind (Json.entries? Json.string?)).map Components.ofList

/-- The text that holds components: one member a line, in order. -/
def Components.toText (components : Components) : String :=
  (Json.object (components.entries.map fun (id, value) => (id, .string value))).printPretty

structure FileStore where
  path : String
  directory : Directory

namespace FileStore

/-- The file that is written before it takes the name of the store. -/
def draftPath (store : FileStore) : String :=
  Path.withExtension "json.tmp" store.path

def load (store : FileStore) : Except StoreError Components :=
  match store.directory.readText store.path with
  | .ok text =>
    match Components.ofText? text with
    | some components => .ok components
    | none => .error (.unreadable "expected an object of strings")
  | .error .notFound => .ok .empty
  | .error error => .error (.file error)

def inDirectory (store : FileStore) (directory : Directory) : FileStore :=
  { store with directory }

def save (store : FileStore) (components : Components) : StoreReply FileStore :=
  match store.directory.makeFolders (Path.parent store.path) with
  | (withFolders, .error error) => ⟨store.inDirectory withFolders, .error (.file error)⟩
  | (withFolders, .ok ()) =>
    match withFolders.writeText store.draftPath components.toText with
    | .error error => ⟨store.inDirectory withFolders, .error (.file error)⟩
    | .ok withDraft =>
      match withDraft.moveFile store.draftPath store.path with
      | .error error => ⟨store.inDirectory withDraft, .error (.file error)⟩
      | .ok directory => ⟨store.inDirectory directory, .ok ()⟩

def create (store : FileStore) (id value : String) : StoreReply FileStore :=
  match store.load with
  | .error error => ⟨store, .error error⟩
  | .ok components => store.save (components.insert id value)

def read (store : FileStore) (id : String) : Except StoreError (Option String) :=
  store.load.map (·.get? id)

def update (store : FileStore) (id value : String) : StoreReply FileStore :=
  match store.load with
  | .error error => ⟨store, .error error⟩
  | .ok components =>
    if (components.get? id).isSome then store.save (components.insert id value)
    else ⟨store, .error (.notFound id)⟩

end FileStore

instance : ComponentStore FileStore where
  create := FileStore.create
  read := FileStore.read
  update := FileStore.update

end MarkupEditor
