import MarkupEditor.Markup.Node
import MarkupEditor.Text.Bytes

set_option autoImplicit false

namespace MarkupEditor

open Text

inductive ParseError where
  | unexpectedToken (span : Span) (expected found : String)
  | unexpectedEnd (pos : Nat) (expected : String)
  | invalidSyntax (span : Span) (message : String)
  | unmatchedText (span : Span)
  | mismatchedClosingTag (span : Span) (expected found : String)
  deriving DecidableEq

namespace ParseError

def message : ParseError → String
  | .unexpectedToken span expected found =>
    "Unexpected token at " ++ span.describe ++ ": expected " ++ expected ++ ", found " ++ found
  | .unexpectedEnd pos expected =>
    "Unexpected end of input at " ++ toString pos ++ ": expected " ++ expected
  | .invalidSyntax span message => "Invalid syntax at " ++ span.describe ++ ": " ++ message
  | .unmatchedText span => "Lexer error at " ++ span.describe ++ ": unexpected character"
  | .mismatchedClosingTag span expected found =>
    "Mismatched closing tag at " ++ span.describe ++ ": expected </" ++ expected ++ ">, found </" ++
      found ++ ">"

/-- The place an error points at; the end of the input is an empty place. -/
def span : ParseError → Span
  | .unexpectedToken span .. => span
  | .unexpectedEnd pos _ => ⟨pos, pos⟩
  | .invalidSyntax span _ => span
  | .unmatchedText span => span
  | .mismatchedClosingTag span .. => span

def label : ParseError → String
  | .unexpectedToken _ expected _ => "expected " ++ expected
  | .unexpectedEnd _ expected => "expected " ++ expected
  | .invalidSyntax _ message => message
  | .unmatchedText _ => "unexpected character"
  | .mismatchedClosingTag _ expected _ => "expected </" ++ expected ++ ">"

/-- The text of a source in front of a byte offset, all of it if the offset splits a character. -/
def before (source : List Char) (offset : Nat) : List Char :=
  match splitAtByte source (min offset (byteLength source)) with
  | some (before, _) => before
  | none => source

def lineColumnAfter (text : List Char) : Nat × Nat :=
  (text.count '\n' + 1, (text.reverse.takeWhile (· != '\n')).length + 1)

def lineColumn (error : ParseError) (source : List Char) : Nat × Nat :=
  lineColumnAfter (before source error.span.start)

end ParseError

end MarkupEditor
