import MarkupEditor.Files.Path
/-!
# Directories

A directory holds texts and folders under paths, and answers reads and writes as a file system does. A
path is followed name by name from the root; where it fails first is what the error says. A step that
fails says why, and nothing is written then; only of several folders that are made one after the other
the first ones stay.
-/

set_option autoImplicit false

namespace MarkupEditor

inductive FileError where
  | notFound
  | exists
  | notADirectory
  | isADirectory
  | nameTooLong
  | nulInName
  deriving DecidableEq

def FileError.message : FileError → String
  | .notFound => "No such file or directory (os error 2)"
  | .exists => "File exists (os error 17)"
  | .notADirectory => "Not a directory (os error 20)"
  | .isADirectory => "Is a directory (os error 21)"
  | .nameTooLong => "File name too long (os error 36)"
  | .nulInName => "file name contained an unexpected NUL byte"

def maxPathBytes : Nat := 4095

def maxNameBytes : Nat := 255

inductive Entry where
  | file (text : String)
  | folder
  deriving DecidableEq

abbrev Location := List String

/-- Places and what stands there. The root is a folder. -/
structure Directory where
  entries : List (Location × Entry)

namespace Directory

def empty : Directory := ⟨[]⟩

def get? (d : Directory) (place : Location) : Option Entry :=
  if place = [] then some .folder else (d.entries.find? (·.1 = place)).map (·.2)

def erase (d : Directory) (place : Location) : Directory :=
  ⟨d.entries.filter (·.1 ≠ place)⟩

def insert (d : Directory) (place : Location) (entry : Entry) : Directory :=
  ⟨(place, entry) :: (d.erase place).entries⟩

@[simp] theorem get?_nil (d : Directory) : d.get? [] = some .folder := rfl

theorem find?_erase (d : Directory) (place other : Location) :
    (d.erase place).entries.find? (·.1 = other) =
      if other = place then none else d.entries.find? (·.1 = other) := by
  simp only [erase, List.find?_filter]
  split
  · rename_i h
    subst h
    simp
  · rename_i h
    congr 1
    funext entry
    by_cases e : entry.1 = other <;> simp [e, h]

theorem get?_erase (d : Directory) {place : Location} (h : place ≠ []) (other : Location) :
    (d.erase place).get? other = if other = place then none else d.get? other := by
  simp only [get?, find?_erase]
  by_cases e : other = place <;> simp [e, h]

theorem get?_insert (d : Directory) {place : Location} (h : place ≠ []) (entry : Entry)
    (other : Location) :
    (d.insert place entry).get? other = if other = place then some entry else d.get? other := by
  simp only [get?, insert, List.find?_cons, find?_erase]
  by_cases e : other = place
  · simp [e, h]
  · simp [e, Ne.symm e]

/-- One name further on a way. Only a folder leads on. -/
def next (d : Directory) (place : Location) (name : String) : Except FileError Location :=
  match d.get? place with
  | none => .error .notFound
  | some (.file _) => .error .notADirectory
  | some .folder =>
    if name = "" ∨ name = "." then .ok place
    else if name = ".." then .ok place.dropLast
    else if maxNameBytes < name.utf8ByteSize then .error .nameTooLong
    else .ok (place ++ [name])

/-- The place that names lead to, one after the other. Nothing needs to stand there. -/
def follow (d : Directory) (names : List String) : Except FileError Location :=
  names.foldlM d.next []

def checkPath (path : String) : Except FileError Unit :=
  if path.toList.contains '\x00' then .error .nulInName
  else if maxPathBytes < path.utf8ByteSize then .error .nameTooLong
  else .ok ()

def locate (d : Directory) (path : String) : Except FileError Location := do
  checkPath path
  d.follow (Path.names path)

def readText (d : Directory) (path : String) : Except FileError String := do
  match d.get? (← d.locate path) with
  | some (.file text) => .ok text
  | some .folder => .error .isADirectory
  | none => .error .notFound

def contains (d : Directory) (path : String) : Bool :=
  match d.locate path with
  | .ok place => (d.get? place).isSome
  | .error _ => false

def writeText (d : Directory) (path text : String) : Except FileError Directory := do
  let place ← d.locate path
  match d.get? place with
  | some .folder => .error .isADirectory
  | _ => .ok (d.insert place (.file text))

def makeFolder (d : Directory) (way : List String) (name : String) : Except FileError Directory := do
  let place ← d.next (← d.follow way) name
  if (d.get? place).isSome then .error .exists else .ok (d.insert place .folder)

def isFolder (d : Directory) (names : List String) : Bool :=
  match d.follow names with
  | .ok place => d.get? place = some .folder
  | .error _ => false

/-- The directory after an attempt to make a folder. That a folder stands there is no failure. -/
def settle (d : Directory) (names : List String) :
    Except FileError Directory → Directory × Except FileError Unit
  | .ok made => (made, .ok ())
  | .error error => (d, if d.isFolder names then .ok () else .error error)

/-- Makes the folder that names lead to, given from the last one on. If the way to it is not there, that
is made first, and it stays. -/
def makeWay (d : Directory) : List String → Directory × Except FileError Unit
  | [] => (d, .ok ())
  | name :: above =>
    let names := (name :: above).reverse
    match d.makeFolder above.reverse name with
    | .error .notFound =>
      match d.makeWay above with
      | (d, .ok ()) => d.settle names (d.makeFolder above.reverse name)
      | failed => failed
    | attempt => d.settle names attempt

/-- Makes the folders on the way of a path that are missing, the last name included. -/
def makeFolders (d : Directory) (path : String) : Directory × Except FileError Unit :=
  match checkPath path with
  | .error error => (d, .error error)
  | .ok () => d.makeWay (Path.stepsBack path)

/-- Moves a file, over another one if need be. A file cannot take the name of a folder, nor a path that
ends with a slash. -/
def moveFile (d : Directory) (source target : String) : Except FileError Directory := do
  let text ← d.readText source
  let place ← d.locate source
  checkPath target
  let (way, name) := Path.splitLast target
  let there ← d.next (← d.follow way) name
  if target.endsWith "/" then .error .notADirectory
  else if d.get? there = some .folder then .error .isADirectory
  else .ok ((d.erase place).insert there (.file text))

def removeFile (d : Directory) (path : String) : Except FileError Directory := do
  let _ ← d.readText path
  return d.erase (← d.locate path)

/-- Everything under a folder: paths seen from it and what stands there, in the order of the paths. -/
def listing (d : Directory) (folder : Location) : List (String × Entry) :=
  let inside := d.entries.filterMap fun (place, entry) =>
    if folder.isPrefixOf place && place != folder then
      some ("/".intercalate (place.drop folder.length), entry)
    else none
  inside.mergeSort fun a b => !(b.1 < a.1)

end Directory

end MarkupEditor
