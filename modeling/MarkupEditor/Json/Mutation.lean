import MarkupEditor.Editing.Mutation
import MarkupEditor.Json.Reader
import MarkupEditor.Json.Tree

set_option autoImplicit false

namespace MarkupEditor

open Json

def Mutation.toJson : Mutation → Json
  | .setText text => .object [("SetText", .object [("text", .string text)])]
  | .setStyle property value =>
    .object [("SetStyle", .object [("property", .string property), ("value", ofOption .string value)])]
  | .setAttribute name value =>
    .object [("SetAttribute", .object [("name", .string name), ("value", value.toJson)])]

def Mutation.ofJson? : Json → Option Mutation
  | .object [("SetText", record)] => do
    return .setText (← required? string? (← field1? "text" record))
  | .object [("SetStyle", record)] => do
    let (property, value) ← field2? "property" "value" record
    return .setStyle (← required? string? property) (← optional? string? value)
  | .object [("SetAttribute", record)] => do
    let (name, value) ← field2? "name" "value" record
    return .setAttribute (← required? string? name) (← required? Literal.ofJson? value)
  | _ => none

def Mutation.read? (text : String) : Option Mutation :=
  (Json.read text.toList).bind Mutation.ofJson?

def Literal.read? (text : String) : Option Literal :=
  (Json.read text.toList).bind Literal.ofJson?

def readAttributes? (text : String) : Option (List (String × String)) :=
  (Json.read text.toList).bind (entries? string?)

end MarkupEditor
