import MarkupEditor.Json.Value

set_option autoImplicit false

namespace MarkupEditor.Json

/-- The value of a field in an object: absent, given once, or refused because it is given twice. -/
def fieldIn? (members : List (String × Json)) (name : String) : Option (Option Json) :=
  match valuesOf name members with
  | [] => some none
  | [value] => some (some value)
  | _ => none

/-- The fields of a record in the order of their names. Only an object may leave fields out. -/
def fields? (names : List String) : Json → Option (List (Option Json))
  | .object members => names.mapM (fieldIn? members)
  | .array items => if items.length = names.length then some (items.map some) else none
  | _ => none

/-- The fields of a record all of which may be left out, at the end of an array too. -/
def defaultedFields? (names : List String) : Json → Option (List (Option Json))
  | .array items =>
    if items.length ≤ names.length then
      some (items.map some ++ List.replicate (names.length - items.length) none)
    else none
  | other => fields? names other

def field1? (a : String) (value : Json) : Option (Option Json) :=
  match fields? [a] value with
  | some [x] => some x
  | _ => none

def field2? (a b : String) (value : Json) : Option (Option Json × Option Json) :=
  match fields? [a, b] value with
  | some [x, y] => some (x, y)
  | _ => none

def required? {α : Type} (read : Json → Option α) (field : Option Json) : Option α :=
  field.bind read

def optional? {α : Type} (read : Json → Option α) : Option Json → Option (Option α)
  | none => some none
  | some value => nullable? read value

def variant? (tag : String) : Json → Option (String × Json)
  | .object members =>
    match fieldIn? members tag with
    | some (some (.string name)) => some (name, .object (members.filter (·.1 ≠ tag)))
    | _ => none
  | .array (.string name :: items) => some (name, .array items)
  | _ => none

end MarkupEditor.Json
