import MarkupEditor.Editing.Session
import MarkupEditor.Json.Tree

set_option autoImplicit false

namespace MarkupEditor

open Json

def StyleEntry.toJson (entry : StyleEntry) : Json :=
  .object [("key", .string entry.key), ("value", .string entry.value)]

def Panel.toJson (p : Panel) : Json :=
  .object [
    ("marker", .number (.natural p.marker)),
    ("tagName", ofOption .string p.tagName),
    ("canEditText", .bool p.canEditText),
    ("text", .string p.text),
    ("backgroundColor", .string p.backgroundColor),
    ("color", .string p.color),
    ("padding", .string p.padding),
    ("margin", .string p.margin),
    ("otherStyles", .array (p.otherStyles.map StyleEntry.toJson))]

end MarkupEditor
