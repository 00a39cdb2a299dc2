import MarkupEditor.Markup.Parser.State
import MarkupEditor.Number.Decimal
import MarkupEditor.Text.Quoted
/-!
# Parsing markup

A source is a list of expressions with semicolons between them. An expression is read in one of two
ways. The structured way knows literals, names, objects, arrays, parentheses and markup; where the
text has another form, or does not end where the expression has to end, the attempt is taken back and
the text is kept as it is up to the end of the expression, markup inside it apart.

Every function takes a depth that falls by one with each call, so that it ends whatever the text;
`parseWith` allows more depth than any source can use.
-/

set_option autoImplicit false

namespace MarkupEditor

open Text

namespace Parser

variable {ι σ : Type}

/-- The value of a number token. Hexadecimal digits have to fit into 64 bits. -/
def numberValue? (raw : List Char) : Option Binary64 :=
  match raw with
  | '0' :: 'x' :: digits => (readUnsigned 16 UInt64.size digits).map Binary64.ofNat
  | '0' :: 'X' :: digits => (readUnsigned 16 UInt64.size digits).map Binary64.ofNat
  | _ => Decimal.read raw

def readNumber (raw : String) (span : Span) : Parser σ Binary64 :=
  match numberValue? raw.toList with
  | some value => pure value
  | none => refuse (.invalidSyntax span ("invalid number " ++ raw))

def stringValue (raw : String) : Literal :=
  .string (String.ofList (unquote raw.toList))

/-- The node of a token that is an expression by itself, numbers apart. -/
def leafKind? : Token → Option (NodeKind ι)
  | .string raw => some (.literal (stringValue raw) (some raw))
  | .keyword .true => some (.literal (.boolean true) (some "true"))
  | .keyword .false => some (.literal (.boolean false) (some "false"))
  | .keyword .null => some (.literal .null (some "null"))
  | .identifier name => some (.identifier name)
  | _ => none

def leafKey? : Token → Option (PropertyKey ι)
  | .identifier name => some (.identifier name)
  | .keyword word => some (.identifier word.text)
  | .string raw => some (.literal (stringValue raw) (some raw))
  | _ => none

inductive Listing where
  | object
  | array
  deriving DecidableEq

namespace Listing

def opened? : Punctuator → Option Listing
  | .openBrace => some .object
  | .openBracket => some .array
  | _ => none

def closing : Listing → Punctuator
  | .object => .closeBrace
  | .array => .closeBracket

def ends (listing : Listing) : List Punctuator :=
  [.comma, listing.closing]

def kind (items : List ι) : Listing → NodeKind ι
  | .object => .object items
  | .array => .array items

end Listing

def leaf (b : Builder ι σ) (sight : Sight) (kind : NodeKind ι) : Parser σ ι := do
  moveTo sight.stop
  alloc b kind sight.span

def dottedName : Nat → Parser σ String
  | 0 => throw .exhausted
  | depth + 1 => do
    if ← accept .dot then
      let part ← expectName "element name"
      let others ← dottedName depth
      return "." ++ part ++ others
    else return ""

/-- An element name: a name, two names with a colon between, or names with dots between. -/
def elementName (depth : Nat) : Parser σ String := do
  let first ← expectName "element name"
  if ← accept .colon then
    let second ← expectName "element name"
    return first ++ ":" ++ second
  else
    let others ← dottedName depth
    return first ++ others

def attributeName : Parser σ String := do
  let first ← expectName "attribute name"
  if ← accept .colon then
    let second ← expectName "attribute name"
    return first ++ ":" ++ second
  else return first

def negativeSpelling (sign sight : Sight) : String :=
  String.ofList (sign.text ++ sight.skipped ++ sight.text)

def negativeNumber (b : Builder ι σ) (sign : Sight) : Parser σ (Option ι) := do
  moveTo sign.stop
  match ← peek with
  | none => return none
  | some sight =>
    match sight.number? with
    | some raw =>
      moveTo sight.stop
      let value ← readNumber raw sight.span
      let node ← alloc b (.literal (.number value.neg) (some (negativeSpelling sign sight)))
        ⟨sign.start.pos, sight.stop.pos⟩
      return some node
    | none => return none

/-- An attribute string up to its closing quote. Nothing is escaped in it but by references. -/
def attributeString (b : Builder ι σ) (quote : Char) (body : List Char) : Parser σ ι := do
  let cursor ← here
  let inner := body.takeWhile (· != quote)
  match body.dropWhile (· != quote) with
  | [] => refuseEnd ("closing " ++ String.singleton quote)
  | close :: rest =>
    let raw := quote :: inner ++ [close]
    let stop := cursor.advance raw rest
    moveTo stop
    alloc b (.literal (.string (String.ofList (decodeReferences inner))) (some (String.ofList raw)))
      ⟨cursor.pos, stop.pos⟩

def textReference? (c : Char) : Option String :=
  if c = '>' then some "&gt;" else if c = '}' then some "&#125;" else none

def textChild (b : Builder ι σ) (run : List Char) : Parser σ ι := do
  let cursor ← here
  let clean := run.takeWhile fun c => (textReference? c).isNone
  match (run.dropWhile fun c => (textReference? c).isNone).head?.bind textReference? with
  | some reference =>
    let place := cursor.pos + byteLength clean
    refuse (.invalidSyntax ⟨place, place + 1⟩
      ("unexpected character in JSX text, did you mean \x60" ++ reference ++ "\x60?"))
  | none =>
    let stop := cursor.advance run (cursor.rest.drop run.length)
    moveTo stop
    alloc b (.text (String.ofList (decodeReferences run)) (some (String.ofList run)))
      ⟨cursor.pos, stop.pos⟩

def textRun (cs : List Char) : List Char :=
  cs.takeWhile fun c => c != '<' && c != '{'

def textChild? (b : Builder ι σ) : Parser σ (List ι) := do
  let run := textRun (← here).rest
  if run.isEmpty then return []
  else
    let node ← textChild b run
    return [node]

def refuseValue {α : Type} : Parser σ α := do
  let cursor ← here
  match cursor.sight? with
  | some sight =>
    refuse (.unexpectedToken sight.span "attribute value" (String.ofList sight.text))
  | none => refuse (.unexpectedToken ⟨cursor.pos, cursor.pos⟩ "attribute value" "")

def tagFollows (cursor : Cursor) : Bool :=
  match cursor.sight?.bind (·.token) with
  | some (.identifier _) => true
  | some (.punctuator .greater) => true
  | _ => false

def closingFollows (cursor : Cursor) : Bool :=
  (cursor.mark? .slash).isSome

def closeFragment : Parser σ Unit := do
  let _ ← expect .less
  let _ ← expect .slash
  let _ ← expect .greater
  return ()

def closeElement (depth : Nat) (name : String) : Parser σ Unit := do
  let opening ← expect .less
  let _ ← expect .slash
  if ← sees .greater then
    let stop := (← here).nextStart
    refuse (.mismatchedClosingTag ⟨opening.start.pos, stop⟩ name "")
  else
    let found ← elementName depth
    let closing ← expect .greater
    if found = name then return ()
    else refuse (.mismatchedClosingTag ⟨opening.start.pos, closing.stop.pos⟩ name found)

def sourcePart (text : List Char) : List (OpaquePart ι) :=
  if text.isEmpty then [] else [.source (String.ofList text)]

/-- What the next lexeme means to an expression that is kept as text. -/
inductive KeptStep where
  | stop
  | take (opened : List Punctuator)
  | markup

/-- The step at a lexeme. `opened` holds the brackets still open and `before` the token just taken, if
any. A lexeme without a token is taken, and markup may begin after it. -/
def keptStep (ends opened : List Punctuator) (before : Option Token) (sight : Sight) : KeptStep :=
  match sight.token with
  | none => .take opened
  | some token =>
    if opened.isEmpty && token.isOneOf ends then .stop
    else
      match token with
      | .punctuator mark =>
        if mark.isOpening then .take (mark :: opened)
        else
          match mark.opener? with
          | some opener => if opened.head? = some opener then .take opened.tail else .stop
          | none =>
            if mark = .less && before.all Token.precedesMarkup && tagFollows sight.stop then .markup
            else .take opened
      | _ => .take opened

variable (b : Builder ι σ)

mutual

def expression : Nat → List Punctuator → Parser σ ι
  | 0, _ => throw .exhausted
  | depth + 1, ends => do
    let start ← here
    let size ← made b
    let found ← structured depth
    let stop ← here
    match found, stop.endsAt ends with
    | some node, true => return node
    | _, _ =>
      rewind b start size
      keptExpression depth ends

/-- An expression inside a structured one; `none` if nothing stands there. -/
def innerExpression : Nat → List Punctuator → Parser σ (Option ι)
  | 0, _ => throw .exhausted
  | depth + 1, ends => do
    if (← here).endsAt ends then return none
    else
      let node ← expression depth ends
      return some node

/-- A structured expression; `none` if the text has another form. -/
def structured : Nat → Parser σ (Option ι)
  | 0 => throw .exhausted
  | depth + 1 => do
    match ← peek with
    | none => return none
    | some sight =>
      match sight.token with
      | none => return none
      | some (.number raw) =>
        let value ← readNumber raw sight.span
        let node ← leaf b sight (.literal (.number value) (some raw))
        return some node
      | some (.punctuator .less) =>
        let node ← markup depth
        return some node
      | some (.punctuator .minus) => negativeNumber b sight
      | some (.punctuator .openParen) => parenthesized depth sight
      | some (.punctuator mark) =>
        match Listing.opened? mark with
        | none => return none
        | some listing =>
          moveTo sight.stop
          match ← items depth listing with
          | none => return none
          | some found =>
            let node ← allocFrom b (listing.kind found) sight.start.pos
            return some node
      | some token =>
        match leafKind? token with
        | none => return none
        | some kind =>
          let node ← leaf b sight kind
          return some node

def parenthesized : Nat → Sight → Parser σ (Option ι)
  | 0, _ => throw .exhausted
  | depth + 1, sight => do
    moveTo sight.stop
    match ← innerExpression depth [.closeParen] with
    | none => return none
    | some inside =>
      if ← accept .closeParen then
        let node ← allocFrom b (.parenthesized inside) sight.start.pos
        return some node
      else return none

def items : Nat → Listing → Parser σ (Option (List ι))
  | 0, _ => throw .exhausted
  | depth + 1, listing => do
    match ← peek with
    | none => return none
    | some sight =>
      match sight.token with
      | none => return none
      | some token =>
        if token = .punctuator listing.closing then
          moveTo sight.stop
          return some []
        else
          match ← item depth listing sight token with
          | none => return none
          | some first =>
            if ← acceptSeparator listing.closing then
              let others ← items depth listing
              return others.map (first :: ·)
            else return none

/-- One item of a list, which begins with the given lexeme: a spread, a property or an element. -/
def item : Nat → Listing → Sight → Token → Parser σ (Option ι)
  | 0, _, _, _ => throw .exhausted
  | depth + 1, listing, sight, token => do
    if token = .punctuator .ellipsis then
      moveTo sight.stop
      match ← innerExpression depth listing.ends with
      | none => return none
      | some argument =>
        let node ← allocFrom b (.spread argument) sight.start.pos
        return some node
    else
      match listing with
      | .array => innerExpression depth listing.ends
      | .object => property depth sight token

def property : Nat → Sight → Token → Parser σ (Option ι)
  | 0, _, _ => throw .exhausted
  | depth + 1, sight, token => do
    match ← propertyKey depth sight token with
    | none => return none
    | some key =>
      if ← accept .colon then
        match ← innerExpression depth Listing.object.ends with
        | none => return none
        | some value =>
          let node ← allocFrom b (.property key value false) sight.start.pos
          return some node
      else
        match key with
        | .identifier name =>
          if ((← here).separator? .closeBrace).isSome then
            let value ← alloc b (.identifier name) sight.span
            let node ← allocFrom b (.property key value true) sight.start.pos
            return some node
          else return none
        | _ => return none

def propertyKey : Nat → Sight → Token → Parser σ (Option (PropertyKey ι))
  | 0, _, _ => throw .exhausted
  | depth + 1, sight, token => do
    match token with
    | .number raw =>
      let value ← readNumber raw sight.span
      moveTo sight.stop
      return some (.literal (.number value) (some raw))
    | .punctuator .openBracket =>
      moveTo sight.stop
      match ← innerExpression depth [.closeBracket] with
      | none => return none
      | some inside =>
        if ← accept .closeBracket then return some (.computed inside) else return none
    | token =>
      match leafKey? token with
      | none => return none
      | some key =>
        moveTo sight.stop
        return some key

/-- An expression that is kept as text up to one of the marks outside all brackets. -/
def keptExpression : Nat → List Punctuator → Parser σ ι
  | 0, _ => throw .exhausted
  | depth + 1, ends => do
    match ← peek with
    | none => refuseEnd "expression"
    | some sight =>
      moveTo sight.start
      let parts ← keptParts depth ends [] none []
      if parts.isEmpty then refuseSight "expression" (← peek)
      else allocFrom b (.opaqueText parts) sight.start.pos

/-- The parts of a kept expression from here on. `opened` holds the brackets still open, `before` the
token just taken, if any, and `text` the text since the last part. -/
def keptParts : Nat → List Punctuator → List Punctuator → Option Token → List Char →
    Parser σ (List (OpaquePart ι))
  | 0, _, _, _, _ => throw .exhausted
  | depth + 1, ends, opened, before, text => do
    match ← peek with
    | none => return sourcePart text
    | some sight =>
      match keptStep ends opened before sight with
      | .stop => return sourcePart text
      | .take opened =>
        moveTo sight.stop
        keptParts depth ends opened sight.token (text ++ sight.skipped ++ sight.text)
      | .markup =>
        let node ← markup depth
        let others ← keptParts depth ends opened (some (.punctuator .greater)) []
        return sourcePart (text ++ sight.skipped) ++ .node node :: others

/-- An element or a fragment, remembered markup included. -/
def markup : Nat → Parser σ ι
  | 0 => throw .exhausted
  | depth + 1 => do
    let start := (← here).nextStart
    match ← rememberedAt? b start with
    | some found =>
      moveTo found.stop
      return found.node
    | none =>
      let node ← tag depth
      remember b start node
      return node

def tag : Nat → Parser σ ι
  | 0 => throw .exhausted
  | depth + 1 => do
    let opening ← expect .less
    if ← accept .greater then
      let inside ← children depth
      closeFragment
      allocFrom b (.fragment inside) opening.start.pos
    else
      let name ← elementName depth
      let (attributes, selfClosing) ← attributes depth
      if selfClosing then allocFrom b (.element name attributes [] true) opening.start.pos
      else
        let inside ← children depth
        closeElement depth name
        allocFrom b (.element name attributes inside false) opening.start.pos

/-- The attributes of a tag and its end. True if the tag closes itself. -/
def attributes : Nat → Parser σ (List ι × Bool)
  | 0 => throw .exhausted
  | depth + 1 => do
    match ← peek with
    | none => refuseEnd "'>' or '/>'"
    | some sight =>
      match sight.token with
      | some (.punctuator .slash) =>
        moveTo sight.stop
        let _ ← expect .greater
        return ([], true)
      | some (.punctuator .greater) =>
        moveTo sight.stop
        return ([], false)
      | some (.punctuator .openBrace) =>
        let first ← spreadAttribute depth
        let (others, selfClosing) ← attributes depth
        return (first :: others, selfClosing)
      | some (.identifier _) | some (.keyword _) =>
        let first ← namedAttribute depth
        let (others, selfClosing) ← attributes depth
        return (first :: others, selfClosing)
      | _ => refuseSight "attribute, '>' or '/>'" (some sight)

def spreadAttribute : Nat → Parser σ ι
  | 0 => throw .exhausted
  | depth + 1 => do
    let opening ← expect .openBrace
    let _ ← expect .ellipsis
    let argument ← expression depth [.closeBrace]
    let _ ← expect .closeBrace
    allocFrom b (.spreadAttribute argument) opening.start.pos

def namedAttribute : Nat → Parser σ ι
  | 0 => throw .exhausted
  | depth + 1 => do
    let start := (← here).nextStart
    let name ← attributeName
    if ← accept .equals then
      moveTo (← here).skipBlanks
      let value ← attributeValue depth
      allocFrom b (.namedAttribute name (some value)) start
    else allocFrom b (.namedAttribute name none) start

def attributeValue : Nat → Parser σ ι
  | 0 => throw .exhausted
  | depth + 1 => do
    match (← here).rest with
    | [] => refuseEnd "attribute value"
    | c :: rest =>
      if c = '"' ∨ c = '\'' then attributeString b c rest
      else if c = '{' then
        let opening ← expect .openBrace
        if ← sees .closeBrace then
          let place := (← here).pos
          refuse (.invalidSyntax ⟨opening.start.pos, place + 1⟩
            "JSX attributes must only be assigned a non-empty expression")
        else
          let inside ← expression depth [.closeBrace]
          let _ ← expect .closeBrace
          allocFrom b (.expressionContainer (some inside)) opening.start.pos
      else if c = '<' then markup depth
      else refuseValue

def children : Nat → Parser σ (List ι)
  | 0 => throw .exhausted
  | depth + 1 => do
    let front ← textChild? b
    let cursor ← here
    match cursor.rest with
    | [] => refuseEnd "closing tag"
    | c :: rest =>
      if c = '{' then
        let first ← container depth
        let others ← children depth
        return front ++ first :: others
      else if closingFollows (cursor.advance [c] rest) then return front
      else
        let first ← markup depth
        let others ← children depth
        return front ++ first :: others

/-- An expression in braces among children. Nothing but a comment may stand in it. -/
def container : Nat → Parser σ ι
  | 0 => throw .exhausted
  | depth + 1 => do
    let opening ← expect .openBrace
    if ← accept .closeBrace then allocFrom b (.expressionContainer none) opening.start.pos
    else
      let inside ← spreadOrExpression depth
      let _ ← expect .closeBrace
      allocFrom b (.expressionContainer (some inside)) opening.start.pos

def spreadOrExpression : Nat → Parser σ ι
  | 0 => throw .exhausted
  | depth + 1 => do
    match (← here).mark? .ellipsis with
    | some sight =>
      moveTo sight.stop
      let argument ← expression depth [.closeBrace]
      allocFrom b (.spread argument) sight.start.pos
    | none => expression depth [.closeBrace]

end

/-- The statements of a program: expressions with any number of semicolons between them. -/
def statements : Nat → Parser σ (List ι)
  | 0 => throw .exhausted
  | depth + 1 => do
    match ← peek with
    | none => return []
    | some sight =>
      if sight.token = some (.punctuator .semicolon) then
        moveTo sight.stop
        statements depth
      else
        let inside ← expression b depth [.semicolon]
        let first ← allocFrom b (.expressionStatement inside) sight.start.pos
        let others ← statements depth
        return first :: others

def program (depth : Nat) : Parser σ ι := do
  let body ← statements b depth
  let stop := (← here).sourceEnd
  alloc b (.program body) ⟨0, stop⟩

/-- More depth than a source can use: no call takes a character less than every twelfth level. -/
def depthFor (source : List Char) : Nat :=
  12 * (source.length + 1)

def outcome (source : List Char) : Except Stop (NodeId × State Arena) → Except ParseError Tree
  | .ok (root, s) => .ok ⟨s.store.nodes, root⟩
  | .error (.refused error) => .error error
  | .error .exhausted => .error (.unexpectedEnd (byteLength source) "expression")

end Parser

/-- Parses a source. With `sharing`, markup that an attempt has read is not read again. -/
def parseWith (sharing : Bool) (source : List Char) : Except ParseError Tree :=
  Parser.outcome source
    ((Parser.program (Parser.stored sharing) (Parser.depthFor source)).run
      ⟨⟨source, 0⟩, ⟨#[], [], 0⟩⟩)

def parse (source : String) : Except ParseError Tree :=
  parseWith true source.toList

end MarkupEditor
