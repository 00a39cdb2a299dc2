import MarkupEditor.Text.Split

set_option autoImplicit false

namespace MarkupEditor.Path

open Text

def names (path : String) : List String :=
  (splitAll '/' path.toList).map String.ofList

/-- A path seen from another one. An absolute path is seen the same from everywhere. -/
def join (base path : String) : String :=
  if path.startsWith "/" then path
  else if base.isEmpty || base.endsWith "/" then base ++ path
  else base ++ "/" ++ path

def dropTail : List Char → List Char
  | '/' :: cs => dropTail cs
  | '.' :: '/' :: cs => dropTail ('/' :: cs)
  | cs => cs

/-- A path cut before its last name: the folder with its slash, and the name. -/
def cutLast (path : String) : List Char × List Char :=
  let reversed := dropTail path.toList.reverse
  ((reversed.dropWhile (· != '/')).reverse, (reversed.takeWhile (· != '/')).reverse)

/-- The last name of a path, unless that points upwards or nowhere. -/
def fileName? (path : String) : Option String :=
  let name := String.ofList (cutLast path).2
  if name = "" ∨ name = "." ∨ name = ".." then none else some name

def parent (path : String) : String :=
  String.ofList (dropTail (cutLast path).1.reverse).reverse

/-- A name without its extension: the last dot and what follows, except in a name that has no dot but
the one in front. -/
def stem (name : List Char) : List Char :=
  match name.reverse.dropWhile (· != '.') with
  | '.' :: c :: cs => (c :: cs).reverse
  | _ => name

/-- A path with another extension in the place of its own, which is cut off first. A path without a last
name stays, and so does what the cut leaves of a name that is two dots and an extension, for that points
upwards. -/
def withExtension (extension path : String) : String :=
  let (folder, name) := cutLast path
  if (fileName? path).isNone then path
  else if stem name = ['.'] ∧ folder ++ name = path.toList then String.ofList (folder ++ ['.', '.'])
  else String.ofList (folder ++ stem name ++ '.' :: extension.toList)

/-- The last name of a path and the names before it. Slashes at the end are passed over, and nothing
else. -/
def splitLast (path : String) : List String × String :=
  match (names path).reverse.dropWhile (· = "") with
  | name :: way => (way.reverse, name)
  | [] => ([], "")

def stepsBack (path : String) : List String :=
  ((names path).filter fun name => name ≠ "" ∧ name ≠ ".").reverse

end MarkupEditor.Path
