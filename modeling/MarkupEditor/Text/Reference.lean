import MarkupEditor.Text.Unsigned

set_option autoImplicit false

namespace MarkupEditor.Text

/-- The name that stands before the first semicolon of a text. -/
def upToSemicolon : List Char → Option (List Char)
  | [] => none
  | ';' :: _ => some []
  | c :: cs => (upToSemicolon cs).map (c :: ·)

/-- The character with a code, surrogates and numbers past the last code point excluded. -/
def charOfCode (code : Nat) : Option Char :=
  if h : code.isValidChar then some (Char.ofNatAux code h) else none

def referenced (name : List Char) : Option Char :=
  if name = "amp".toList then some '&'
  else if name = "lt".toList then some '<'
  else if name = "gt".toList then some '>'
  else if name = "quot".toList then some '"'
  else if name = "apos".toList then some '\''
  else if name = "nbsp".toList then some '\xa0'
  else match name with
    | '#' :: 'x' :: digits => (readUnsigned 16 UInt32.size digits).bind charOfCode
    | '#' :: 'X' :: digits => (readUnsigned 16 UInt32.size digits).bind charOfCode
    | '#' :: digits => (readUnsigned 10 UInt32.size digits).bind charOfCode
    | _ => none

/-- The character that the text after an ampersand refers to, and how many characters that takes,
the semicolon included. -/
def reference? (cs : List Char) : Option (Char × Nat) :=
  (upToSemicolon cs).bind fun name => (referenced name).map fun c => (c, name.length + 1)

def decodeAfter : Nat → List Char → List Char
  | _, [] => []
  | skipped + 1, _ :: cs => decodeAfter skipped cs
  | 0, c :: cs =>
    if c = '&' then
      match reference? cs with
      | some (decoded, size) => decoded :: decodeAfter size cs
      | none => '&' :: decodeAfter 0 cs
    else c :: decodeAfter 0 cs

/-- Replaces every character reference that names a character. -/
def decodeReferences (cs : List Char) : List Char :=
  decodeAfter 0 cs

theorem decodeAfter_eq (skipped : Nat) (cs : List Char) :
    decodeAfter skipped cs = decodeReferences (cs.drop skipped) := by
  induction cs generalizing skipped with
  | nil => cases skipped <;> rfl
  | cons c cs ih =>
    cases skipped with
    | zero => rfl
    | succ n => simpa [decodeAfter] using ih n

@[simp] theorem decodeReferences_nil : decodeReferences [] = [] := rfl

theorem decodeReferences_cons {c : Char} (h : c ≠ '&') (cs : List Char) :
    decodeReferences (c :: cs) = c :: decodeReferences cs := by
  simp [decodeReferences, decodeAfter, h]

theorem decodeReferences_ampersand (cs : List Char) :
    decodeReferences ('&' :: cs) =
      match reference? cs with
      | some (decoded, size) => decoded :: decodeReferences (cs.drop size)
      | none => '&' :: decodeReferences cs := by
  rw [decodeReferences, decodeAfter, if_pos rfl]
  cases reference? cs with
  | none => rfl
  | some found => simp [decodeAfter_eq]

def escapeTextChar : Char → List Char
  | '&' => "&amp;".toList
  | '<' => "&lt;".toList
  | '>' => "&gt;".toList
  | '{' => "&#123;".toList
  | '}' => "&#125;".toList
  | c => [c]

def escapeText (cs : List Char) : List Char :=
  cs.flatMap escapeTextChar

def escapeAttributeChar : Char → List Char
  | '&' => "&amp;".toList
  | '"' => "&quot;".toList
  | c => [c]

def escapeAttribute (cs : List Char) : List Char :=
  cs.flatMap escapeAttributeChar

end MarkupEditor.Text
