import MarkupEditor.Markup.Parser.State

set_option autoImplicit false

namespace MarkupEditor

open Text Lexer

/-- A lexeme with its span. No token stands for text that no token matches. -/
structure Lexed where
  token : Option Token
  span : Span
  deriving DecidableEq

def Sight.lexed (s : Sight) : Lexed :=
  ⟨s.token, s.span⟩

/-- The first lexeme at or after a byte offset of a source, which has to lie between two characters. -/
def nextToken? (source : String) (offset : Nat) : Option Lexed :=
  (splitAtByte source.toList offset).bind fun (_, rest) => (Cursor.sight? ⟨rest, offset⟩).map Sight.lexed

def laidOut : Nat → List Lexeme → List Lexed
  | _, [] => []
  | offset, l :: ls =>
    let start := offset + byteLength l.skipped
    let stop := start + byteLength l.text
    ⟨l.token, start, stop⟩ :: laidOut stop ls

/-- The tokens of a source. Text that no token matches is left out. -/
def tokenize (source : String) : List (Token × Span) :=
  (laidOut 0 (lexemes source.toList)).filterMap fun lexed => lexed.token.map (·, lexed.span)

end MarkupEditor
