import MarkupEditor.Text.Reference

set_option autoImplicit false

namespace MarkupEditor.Text

def quoteChar : Char → List Char
  | '\\' => ['\\', '\\']
  | '"' => ['\\', '"']
  | '\n' => ['\\', 'n']
  | '\r' => ['\\', 'r']
  | '\t' => ['\\', 't']
  | c => [c]

def quote (cs : List Char) : List Char :=
  '"' :: cs.flatMap quoteChar ++ ['"']

/-- The text between the first and the last character. A text that does not begin and end with a
character of one byte, or has only one character, holds nothing. -/
def betweenQuotes : List Char → List Char
  | [] => []
  | first :: rest =>
    match rest.getLast? with
    | some last => if first.utf8Size = 1 ∧ last.utf8Size = 1 then rest.dropLast else []
    | none => []

/-- The character with a hexadecimal code; what is no code gives the replacement character. -/
def hexCode (digits : List Char) : Char :=
  ((readUnsigned 16 UInt32.size digits).bind charOfCode).getD '\ufffd'

/-- What a backslash and the text after it stand for, and how many characters of that text are used. -/
def escapeSequence : List Char → List Char × Nat
  | [] => (['\\'], 0)
  | 'n' :: _ => (['\n'], 1)
  | 'r' :: _ => (['\r'], 1)
  | 't' :: _ => (['\t'], 1)
  | 'b' :: _ => (['\x08'], 1)
  | 'f' :: _ => (['\x0c'], 1)
  | 'v' :: _ => (['\x0b'], 1)
  | '0' :: _ => (['\x00'], 1)
  | 'x' :: cs => ([hexCode (cs.take 2)], 3)
  | 'u' :: '{' :: cs =>
    let digits := cs.takeWhile (· != '}')
    ([hexCode digits], digits.length + 3)
  | 'u' :: cs => ([hexCode (cs.take 4)], 5)
  | '\n' :: _ => ([], 1)
  | c :: _ => ([c], 1)

def unescapeAfter : Nat → List Char → List Char
  | _, [] => []
  | skipped + 1, _ :: cs => unescapeAfter skipped cs
  | 0, c :: cs =>
    if c = '\\' then
      let (text, size) := escapeSequence cs
      text ++ unescapeAfter size cs
    else c :: unescapeAfter 0 cs

def unescape (cs : List Char) : List Char :=
  unescapeAfter 0 cs

theorem unescapeAfter_eq (skipped : Nat) (cs : List Char) :
    unescapeAfter skipped cs = unescape (cs.drop skipped) := by
  induction cs generalizing skipped with
  | nil => cases skipped <;> rfl
  | cons c cs ih =>
    cases skipped with
    | zero => rfl
    | succ n => simpa [unescapeAfter] using ih n

@[simp] theorem unescape_nil : unescape [] = [] := rfl

theorem unescape_cons {c : Char} (h : c ≠ '\\') (cs : List Char) :
    unescape (c :: cs) = c :: unescape cs := by
  simp [unescape, unescapeAfter, h]

theorem unescape_backslash (cs : List Char) :
    unescape ('\\' :: cs) = (escapeSequence cs).1 ++ unescape (cs.drop (escapeSequence cs).2) := by
  rw [unescape, unescapeAfter, if_pos rfl]
  simp [unescapeAfter_eq]

/-- The value of a quoted string literal. -/
def unquote (cs : List Char) : List Char :=
  unescape (betweenQuotes cs)

end MarkupEditor.Text
