set_option autoImplicit false

namespace MarkupEditor

/-- A word that is a token of its own wherever a whole identifier reads as it. -/
inductive Keyword where
  | «true»
  | «false»
  | null
  | «return»
  deriving DecidableEq

inductive Punctuator where
  | less
  | greater
  | slash
  | openBrace
  | closeBrace
  | openParen
  | closeParen
  | openBracket
  | closeBracket
  | colon
  | semicolon
  | comma
  | dot
  | ellipsis
  | equals
  | arrow
  | question
  | and
  | or
  | minus
  deriving DecidableEq

/-- A token. Strings, templates and numbers keep their source spelling, quotes included. -/
inductive Token where
  | keyword (word : Keyword)
  | identifier (name : String)
  | string (raw : String)
  | template (raw : String)
  | number (raw : String)
  | punctuator (mark : Punctuator)
  deriving DecidableEq

def Keyword.text : Keyword → String
  | .true => "true"
  | .false => "false"
  | .null => "null"
  | .return => "return"

def Keyword.ofText? (text : String) : Option Keyword :=
  if text = "true" then some .true
  else if text = "false" then some .false
  else if text = "null" then some .null
  else if text = "return" then some .return
  else none

def Punctuator.text : Punctuator → String
  | .less => "<"
  | .greater => ">"
  | .slash => "/"
  | .openBrace => "\x7b"
  | .closeBrace => "\x7d"
  | .openParen => "("
  | .closeParen => ")"
  | .openBracket => "["
  | .closeBracket => "]"
  | .colon => ":"
  | .semicolon => ";"
  | .comma => ","
  | .dot => "."
  | .ellipsis => "..."
  | .equals => "="
  | .arrow => "=>"
  | .question => "?"
  | .and => "&&"
  | .or => "||"
  | .minus => "-"

def Punctuator.describe (mark : Punctuator) : String :=
  "'" ++ mark.text ++ "'"

def Token.describe : Token → String
  | .keyword .return => "keyword 'return'"
  | .keyword word => "'" ++ word.text ++ "'"
  | .identifier name => "identifier '" ++ name ++ "'"
  | .string raw => "string " ++ raw
  | .template _ => "template literal"
  | .number raw => "number " ++ raw
  | .punctuator mark => mark.describe

def Token.text : Token → String
  | .keyword word => word.text
  | .identifier name => name
  | .string raw => raw
  | .template raw => raw
  | .number raw => raw
  | .punctuator mark => mark.text

/-- Whether markup may begin right after this token inside an expression that is kept as text. -/
def Token.precedesMarkup : Token → Bool
  | .keyword .return => true
  | .punctuator mark =>
    match mark with
    | .openParen | .openBracket | .openBrace | .comma | .colon | .question | .arrow | .equals
    | .and | .or => true
    | _ => false
  | _ => false

def Punctuator.isOpening : Punctuator → Bool
  | .openBrace | .openParen | .openBracket => true
  | _ => false

def Punctuator.opener? : Punctuator → Option Punctuator
  | .closeBrace => some .openBrace
  | .closeParen => some .openParen
  | .closeBracket => some .openBracket
  | _ => none

def Token.opens : Token → Option Punctuator
  | .punctuator mark => mark.opener?
  | _ => none

/-- The name that an identifier or a keyword spells; both are names in a tag. -/
def Token.name? : Token → Option String
  | .identifier name => some name
  | .keyword word => some word.text
  | _ => none

end MarkupEditor
