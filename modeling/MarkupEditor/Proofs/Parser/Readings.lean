import MarkupEditor.Proofs.Parser.Places
/-!
# What a parse reads

`Reads` says what the text at a place is read as and where the reading stops, one rule for each way a
phrase is made. Depth and storage play no part in it: nodes are nested, and markup is read afresh
wherever it is met.
-/

set_option autoImplicit false

namespace MarkupEditor

open Text

namespace Parser

/-- The builder of nested nodes, which keeps nothing. -/
def nested : Builder Shape Unit where
  size _ := 0
  alloc kind span _ := (.node (some span) kind, ())
  cut _ s := s
  recalled? _ _ := none
  remember _ s := s

/-- A part of the grammar that is read by itself. -/
inductive Phrase where
  | expression (ends : List Punctuator)
  | inner (ends : List Punctuator)
  | structured
  | parenthesized (sight : Sight)
  | items (listing : Listing)
  | item (listing : Listing) (sight : Sight) (token : Token)
  | property (sight : Sight) (token : Token)
  | key (sight : Sight) (token : Token)
  | kept (ends : List Punctuator)
  | parts (ends opened : List Punctuator) (before : Option Token) (text : List Char)
  | markup
  | tag
  | attributes
  | spreadAttribute
  | namedAttribute
  | value
  | children
  | container
  | spreadOrExpression
  | statements

/-- What a phrase is read as. `other` stands for a text that has another form. -/
inductive Answer where
  | other
  | node (shape : Shape)
  | nodes (shapes : List Shape)
  | key (key : PropertyKey Shape)
  | parts (parts : List (OpaquePart Shape))
  | attributes (shapes : List Shape) (selfClosing : Bool)

abbrev shapeAt (kind : NodeKind Shape) (start stop : Nat) : Shape :=
  .node (some ⟨start, stop⟩) kind

inductive ReadsName (c : Cursor) (name : String) : Cursor → Prop where
  | mk {s : Sight} (seen : c.sight? = some s) (named : s.token.bind Token.name? = some name) :
    ReadsName c name s.stop

inductive ReadsDotted : Cursor → String → Cursor → Prop where
  | done {c : Cursor} (h : c.mark? .dot = none) : ReadsDotted c "" c
  | more {c d e : Cursor} {s : Sight} {part others : String} (dot : c.mark? .dot = some s)
    (first : ReadsName s.stop part d) (rest : ReadsDotted d others e) :
    ReadsDotted c ("." ++ part ++ others) e

inductive ReadsElementName : Cursor → String → Cursor → Prop where
  | colon {c d e : Cursor} {s : Sight} {first second : String} (front : ReadsName c first d)
    (colon : d.mark? .colon = some s) (back : ReadsName s.stop second e) :
    ReadsElementName c (first ++ ":" ++ second) e
  | dotted {c d e : Cursor} {first others : String} (front : ReadsName c first d)
    (plain : d.mark? .colon = none) (rest : ReadsDotted d others e) :
    ReadsElementName c (first ++ others) e

inductive ReadsAttributeName : Cursor → String → Cursor → Prop where
  | colon {c d e : Cursor} {s : Sight} {first second : String} (front : ReadsName c first d)
    (colon : d.mark? .colon = some s) (back : ReadsName s.stop second e) :
    ReadsAttributeName c (first ++ ":" ++ second) e
  | plain {c d : Cursor} {first : String} (front : ReadsName c first d)
    (plain : d.mark? .colon = none) : ReadsAttributeName c first d

/-- A closing tag; `name` is `none` for a fragment. -/
inductive ReadsClosing : Cursor → Option String → Cursor → Prop where
  | fragment {c : Cursor} {a b d : Sight} (less : c.mark? .less = some a)
    (slash : a.stop.mark? .slash = some b) (greater : b.stop.mark? .greater = some d) :
    ReadsClosing c none d.stop
  | element {c e : Cursor} {a b d : Sight} {name : String} (less : c.mark? .less = some a)
    (slash : a.stop.mark? .slash = some b) (named : b.stop.mark? .greater = none)
    (read : ReadsElementName b.stop name e) (greater : e.mark? .greater = some d) :
    ReadsClosing c (some name) d.stop

inductive ReadsText (c : Cursor) : List Shape → Cursor → Prop where
  | empty (h : textRun c.rest = []) : ReadsText c [] c
  | text {d : Cursor} (h : textRun c.rest ≠ [])
    (clean : ∀ x ∈ textRun c.rest, textReference? x = none)
    (stop : d = c.advance (textRun c.rest) (c.rest.drop (textRun c.rest).length)) :
    ReadsText c [shapeAt (.text (String.ofList (decodeReferences (textRun c.rest)))
      (some (String.ofList (textRun c.rest)))) c.pos d.pos] d

def beginsOther : Option Token → Bool
  | none => true
  | some (.number _) => false
  | some (.punctuator mark) =>
    !(mark = .less || mark = .minus || mark = .openParen || (Listing.opened? mark).isSome)
  | some token => (leafKind? (ι := Shape) token).isNone

inductive LeafOf : Token → NodeKind Shape → Prop where
  | number {raw : String} {value : Binary64} (h : numberValue? raw.toList = some value) :
    LeafOf (.number raw) (.literal (.number value) (some raw))
  | plain {token : Token} {kind : NodeKind Shape} (h : leafKind? token = some kind) :
    LeafOf token kind

inductive KeyOf : Token → PropertyKey Shape → Prop where
  | number {raw : String} {value : Binary64} (h : numberValue? raw.toList = some value) :
    KeyOf (.number raw) (.literal (.number value) (some raw))
  | plain {token : Token} {key : PropertyKey Shape} (h : leafKey? token = some key) :
    KeyOf token key

def keyOther : Token → Bool
  | .number _ => false
  | .punctuator mark => mark ≠ .openBracket
  | token => (leafKey? (ι := Shape) token).isNone

inductive Reads : Phrase → Cursor → Answer → Cursor → Prop where
  | structuredExpression {ends : List Punctuator} {c d : Cursor} {e : Shape}
    (attempt : Reads .structured c (.node e) d) (ended : d.endsAt ends = true) :
    Reads (.expression ends) c (.node e) d
  | keptOther {ends : List Punctuator} {c d f : Cursor} {e : Shape}
    (attempt : Reads .structured c .other d) (kept : Reads (.kept ends) c (.node e) f) :
    Reads (.expression ends) c (.node e) f
  | keptUnended {ends : List Punctuator} {c d f : Cursor} {e e' : Shape}
    (attempt : Reads .structured c (.node e') d) (going : d.endsAt ends = false)
    (kept : Reads (.kept ends) c (.node e) f) :
    Reads (.expression ends) c (.node e) f
  | innerNone {ends : List Punctuator} {c : Cursor} (ended : c.endsAt ends = true) :
    Reads (.inner ends) c .other c
  | innerSome {ends : List Punctuator} {c d : Cursor} {e : Shape} (going : c.endsAt ends = false)
    (read : Reads (.expression ends) c (.node e) d) :
    Reads (.inner ends) c (.node e) d
  | nothing {c : Cursor} (h : c.sight? = none) : Reads .structured c .other c
  | beginsOther {c : Cursor} {s : Sight} (seen : c.sight? = some s)
    (h : beginsOther s.token = true) :
    Reads .structured c .other c
  | leaf {c : Cursor} {s : Sight} {token : Token} {kind : NodeKind Shape}
    (seen : c.sight? = some s) (h : s.token = some token) (made : LeafOf token kind) :
    Reads .structured c (.node (.node (some s.span) kind)) s.stop
  | negative {c : Cursor} {s n : Sight} {raw : String} {value : Binary64}
    (seen : c.mark? .minus = some s) (next : s.stop.sight? = some n) (h : n.number? = some raw)
    (read : numberValue? raw.toList = some value) :
    Reads .structured c
      (.node (shapeAt (.literal (.number value.neg) (some (negativeSpelling s n))) s.start.pos
        n.stop.pos)) n.stop
  | negativeOther {c : Cursor} {s : Sight} (seen : c.mark? .minus = some s)
    (h : s.stop.sight?.bind Sight.number? = none) :
    Reads .structured c .other s.stop
  | structuredMarkup {c d : Cursor} {s : Sight} {e : Shape} (seen : c.mark? .less = some s)
    (read : Reads .markup c (.node e) d) :
    Reads .structured c (.node e) d
  | structuredParenthesized {c d : Cursor} {s : Sight} {a : Answer}
    (seen : c.mark? .openParen = some s) (read : Reads (.parenthesized s) c a d) :
    Reads .structured c a d
  | listing {c d : Cursor} {s : Sight} {mark : Punctuator} {l : Listing} {found : List Shape}
    (seen : c.mark? mark = some s) (opens : Listing.opened? mark = some l)
    (read : Reads (.items l) s.stop (.nodes found) d) :
    Reads .structured c (.node (shapeAt (l.kind found) s.start.pos d.pos)) d
  | listingOther {c d : Cursor} {s : Sight} {mark : Punctuator} {l : Listing}
    (seen : c.mark? mark = some s) (opens : Listing.opened? mark = some l)
    (read : Reads (.items l) s.stop .other d) :
    Reads .structured c .other d
  | parenthesizedEmpty {c d : Cursor} {s : Sight} (read : Reads (.inner [.closeParen]) s.stop .other d) :
    Reads (.parenthesized s) c .other d
  | parenthesizedOpen {c d : Cursor} {s : Sight} {e : Shape}
    (read : Reads (.inner [.closeParen]) s.stop (.node e) d) (h : d.mark? .closeParen = none) :
    Reads (.parenthesized s) c .other d
  | parenthesized {c d : Cursor} {s t : Sight} {e : Shape}
    (read : Reads (.inner [.closeParen]) s.stop (.node e) d) (h : d.mark? .closeParen = some t) :
    Reads (.parenthesized s) c
      (.node (shapeAt (.parenthesized e) s.start.pos t.stop.pos)) t.stop
  | itemsNothing {l : Listing} {c : Cursor} (h : c.sight?.bind (·.token) = none) :
    Reads (.items l) c .other c
  | itemsEnd {l : Listing} {c : Cursor} {s : Sight} (h : c.mark? l.closing = some s) :
    Reads (.items l) c (.nodes []) s.stop
  | itemsOther {l : Listing} {c d : Cursor} {s : Sight} {token : Token} (seen : c.sight? = some s)
    (h : s.token = some token) (going : token ≠ .punctuator l.closing)
    (read : Reads (.item l s token) c .other d) :
    Reads (.items l) c .other d
  | itemsUnseparated {l : Listing} {c d : Cursor} {s : Sight} {token : Token} {e : Shape}
    (seen : c.sight? = some s) (h : s.token = some token) (going : token ≠ .punctuator l.closing)
    (read : Reads (.item l s token) c (.node e) d) (stuck : d.separator? l.closing = none) :
    Reads (.items l) c .other d
  | itemsRestOther {l : Listing} {c d f g : Cursor} {s : Sight} {token : Token} {e : Shape}
    (seen : c.sight? = some s) (h : s.token = some token) (going : token ≠ .punctuator l.closing)
    (read : Reads (.item l s token) c (.node e) d) (separated : d.separator? l.closing = some f)
    (others : Reads (.items l) f .other g) :
    Reads (.items l) c .other g
  | itemsCons {l : Listing} {c d f g : Cursor} {s : Sight} {token : Token} {e : Shape}
    {others : List Shape} (seen : c.sight? = some s) (h : s.token = some token)
    (going : token ≠ .punctuator l.closing) (read : Reads (.item l s token) c (.node e) d)
    (separated : d.separator? l.closing = some f) (more : Reads (.items l) f (.nodes others) g) :
    Reads (.items l) c (.nodes (e :: others)) g
  | spread {l : Listing} {c d : Cursor} {s : Sight} {e : Shape}
    (read : Reads (.inner l.ends) s.stop (.node e) d) :
    Reads (.item l s (.punctuator .ellipsis)) c
      (.node (shapeAt (.spread e) s.start.pos d.pos)) d
  | spreadOther {l : Listing} {c d : Cursor} {s : Sight} (read : Reads (.inner l.ends) s.stop .other d) :
    Reads (.item l s (.punctuator .ellipsis)) c .other d
  | element {c d : Cursor} {s : Sight} {token : Token} {a : Answer}
    (h : token ≠ .punctuator .ellipsis) (read : Reads (.inner Listing.array.ends) c a d) :
    Reads (.item .array s token) c a d
  | itemProperty {c d : Cursor} {s : Sight} {token : Token} {a : Answer}
    (h : token ≠ .punctuator .ellipsis) (read : Reads (.property s token) c a d) :
    Reads (.item .object s token) c a d
  | propertyKeyOther {c d : Cursor} {s : Sight} {token : Token}
    (read : Reads (.key s token) c .other d) :
    Reads (.property s token) c .other d
  | property {c d f : Cursor} {s t : Sight} {token : Token} {k : PropertyKey Shape} {e : Shape}
    (key : Reads (.key s token) c (.key k) d) (colon : d.mark? .colon = some t)
    (read : Reads (.inner Listing.object.ends) t.stop (.node e) f) :
    Reads (.property s token) c
      (.node (shapeAt (.property k e false) s.start.pos f.pos)) f
  | propertyValueOther {c d f : Cursor} {s t : Sight} {token : Token} {k : PropertyKey Shape}
    (key : Reads (.key s token) c (.key k) d) (colon : d.mark? .colon = some t)
    (read : Reads (.inner Listing.object.ends) t.stop .other f) :
    Reads (.property s token) c .other f
  | shorthand {c d : Cursor} {s : Sight} {token : Token} {name : String}
    (key : Reads (.key s token) c (.key (.identifier name)) d) (plain : d.mark? .colon = none)
    (ended : (d.separator? .closeBrace).isSome = true) :
    Reads (.property s token) c
      (.node (shapeAt (.property (.identifier name) (.node (some s.span) (.identifier name)) true)
        s.start.pos d.pos)) d
  | shorthandOther {c d : Cursor} {s : Sight} {token : Token} {k : PropertyKey Shape}
    (key : Reads (.key s token) c (.key k) d) (plain : d.mark? .colon = none)
    (h : (∀ name, k ≠ .identifier name) ∨ (d.separator? .closeBrace).isSome = false) :
    Reads (.property s token) c .other d
  | key {c : Cursor} {s : Sight} {token : Token} {k : PropertyKey Shape} (made : KeyOf token k) :
    Reads (.key s token) c (.key k) s.stop
  | keyOther {c : Cursor} {s : Sight} {token : Token} (h : keyOther token = true) :
    Reads (.key s token) c .other c
  | computed {c d : Cursor} {s t : Sight} {e : Shape}
    (read : Reads (.inner [.closeBracket]) s.stop (.node e) d)
    (h : d.mark? .closeBracket = some t) :
    Reads (.key s (.punctuator .openBracket)) c (.key (.computed e)) t.stop
  | computedOpen {c d : Cursor} {s : Sight} {e : Shape}
    (read : Reads (.inner [.closeBracket]) s.stop (.node e) d) (h : d.mark? .closeBracket = none) :
    Reads (.key s (.punctuator .openBracket)) c .other d
  | computedEmpty {c d : Cursor} {s : Sight} (read : Reads (.inner [.closeBracket]) s.stop .other d) :
    Reads (.key s (.punctuator .openBracket)) c .other d
  | kept {ends : List Punctuator} {c d : Cursor} {s : Sight} {found : List (OpaquePart Shape)}
    (seen : c.sight? = some s) (read : Reads (.parts ends [] none []) s.start (.parts found) d)
    (h : found ≠ []) :
    Reads (.kept ends) c (.node (shapeAt (.opaqueText found) s.start.pos d.pos)) d
  | partsEnd {ends opened : List Punctuator} {before : Option Token} {text : List Char} {c : Cursor}
    (h : c.sight? = none) :
    Reads (.parts ends opened before text) c (.parts (sourcePart text)) c
  | partsStop {ends opened : List Punctuator} {before : Option Token} {text : List Char} {c : Cursor}
    {s : Sight} (seen : c.sight? = some s) (h : keptStep ends opened before s = .stop) :
    Reads (.parts ends opened before text) c (.parts (sourcePart text)) c
  | partsTake {ends opened opened' : List Punctuator} {before : Option Token} {text : List Char}
    {c d : Cursor} {s : Sight} {found : List (OpaquePart Shape)} (seen : c.sight? = some s)
    (h : keptStep ends opened before s = .take opened')
    (read : Reads (.parts ends opened' s.token (text ++ s.skipped ++ s.text)) s.stop
      (.parts found) d) :
    Reads (.parts ends opened before text) c (.parts found) d
  | partsMarkup {ends opened : List Punctuator} {before : Option Token} {text : List Char}
    {c d f : Cursor} {s : Sight} {e : Shape} {others : List (OpaquePart Shape)}
    (seen : c.sight? = some s) (h : keptStep ends opened before s = .markup)
    (read : Reads .markup c (.node e) d)
    (more : Reads (.parts ends opened (some (.punctuator .greater)) []) d (.parts others) f) :
    Reads (.parts ends opened before text) c
      (.parts (sourcePart (text ++ s.skipped) ++ .node e :: others)) f
  | markup {c d : Cursor} {e : Shape} (read : Reads .tag c (.node e) d) :
    Reads .markup c (.node e) d
  | fragment {c d f : Cursor} {s t : Sight} {inside : List Shape} (less : c.mark? .less = some s)
    (greater : s.stop.mark? .greater = some t) (read : Reads .children t.stop (.nodes inside) d)
    (close : ReadsClosing d none f) :
    Reads .tag c (.node (shapeAt (.fragment inside) s.start.pos f.pos)) f
  | selfClosing {c d f : Cursor} {s : Sight} {name : String} {found : List Shape}
    (less : c.mark? .less = some s) (named : s.stop.mark? .greater = none)
    (read : ReadsElementName s.stop name d) (found' : Reads .attributes d (.attributes found true) f) :
    Reads .tag c (.node (shapeAt (.element name found [] true) s.start.pos f.pos)) f
  | tag {c d f g k : Cursor} {s : Sight} {name : String} {found inside : List Shape}
    (less : c.mark? .less = some s) (named : s.stop.mark? .greater = none)
    (read : ReadsElementName s.stop name d)
    (found' : Reads .attributes d (.attributes found false) f)
    (inside' : Reads .children f (.nodes inside) g) (close : ReadsClosing g (some name) k) :
    Reads .tag c (.node (shapeAt (.element name found inside false) s.start.pos k.pos)) k
  | attributesSlash {c : Cursor} {s t : Sight} (slash : c.mark? .slash = some s)
    (greater : s.stop.mark? .greater = some t) :
    Reads .attributes c (.attributes [] true) t.stop
  | attributesGreater {c : Cursor} {s : Sight} (greater : c.mark? .greater = some s) :
    Reads .attributes c (.attributes [] false) s.stop
  | attributesSpread {c d f : Cursor} {s : Sight} {e : Shape} {others : List Shape} {closed : Bool}
    (seen : c.mark? .openBrace = some s) (read : Reads .spreadAttribute c (.node e) d)
    (more : Reads .attributes d (.attributes others closed) f) :
    Reads .attributes c (.attributes (e :: others) closed) f
  | attributesNamed {c d f : Cursor} {s : Sight} {name : String} {e : Shape} {others : List Shape}
    {closed : Bool} (seen : c.sight? = some s) (named : s.token.bind Token.name? = some name)
    (read : Reads .namedAttribute c (.node e) d)
    (more : Reads .attributes d (.attributes others closed) f) :
    Reads .attributes c (.attributes (e :: others) closed) f
  | spreadAttribute {c d : Cursor} {s t u : Sight} {e : Shape} (opening : c.mark? .openBrace = some s)
    (ellipsis : s.stop.mark? .ellipsis = some t)
    (read : Reads (.expression [.closeBrace]) t.stop (.node e) d)
    (closing : d.mark? .closeBrace = some u) :
    Reads .spreadAttribute c
      (.node (shapeAt (.spreadAttribute e) s.start.pos u.stop.pos)) u.stop
  | namedValue {c d f : Cursor} {s : Sight} {name : String} {e : Shape}
    (named : ReadsAttributeName c name d) (equals : d.mark? .equals = some s)
    (read : Reads .value s.stop.skipBlanks (.node e) f) :
    Reads .namedAttribute c
      (.node (shapeAt (.namedAttribute name (some e)) c.nextStart f.pos)) f
  | namedBare {c d : Cursor} {name : String} (named : ReadsAttributeName c name d)
    (plain : d.mark? .equals = none) :
    Reads .namedAttribute c (.node (shapeAt (.namedAttribute name none) c.nextStart d.pos)) d
  | valueString {c d : Cursor} {quote close : Char} {body rest : List Char} (h : c.rest = quote :: body)
    (quoted : quote = '"' ∨ quote = '\'')
    (closed : body.dropWhile (· != quote) = close :: rest)
    (stop : d = c.advance (quote :: body.takeWhile (· != quote) ++ [close]) rest) :
    Reads .value c
      (.node (shapeAt (.literal
        (.string (String.ofList (decodeReferences (body.takeWhile (· != quote)))))
        (some (String.ofList (quote :: body.takeWhile (· != quote) ++ [close])))) c.pos d.pos)) d
  | valueContainer {c d : Cursor} {s t : Sight} {e : Shape} {rest : List Char} (h : c.rest = '{' :: rest)
    (opening : c.mark? .openBrace = some s) (filled : s.stop.mark? .closeBrace = none)
    (read : Reads (.expression [.closeBrace]) s.stop (.node e) d)
    (closing : d.mark? .closeBrace = some t) :
    Reads .value c
      (.node (shapeAt (.expressionContainer (some e)) s.start.pos t.stop.pos)) t.stop
  | valueMarkup {c d : Cursor} {e : Shape} {rest : List Char} (h : c.rest = '<' :: rest)
    (read : Reads .markup c (.node e) d) :
    Reads .value c (.node e) d
  | childrenEnd {c d : Cursor} {front : List Shape} {rest : List Char} (text : ReadsText c front d)
    (h : d.rest = '<' :: rest) (closing : closingFollows (d.advance ['<'] rest) = true) :
    Reads .children c (.nodes front) d
  | childrenContainer {c d f g : Cursor} {front others : List Shape} {e : Shape} {rest : List Char}
    (text : ReadsText c front d) (h : d.rest = '{' :: rest) (read : Reads .container d (.node e) f)
    (more : Reads .children f (.nodes others) g) :
    Reads .children c (.nodes (front ++ e :: others)) g
  | childrenMarkup {c d f g : Cursor} {front others : List Shape} {e : Shape} {rest : List Char}
    (text : ReadsText c front d) (h : d.rest = '<' :: rest)
    (opening : closingFollows (d.advance ['<'] rest) = false)
    (read : Reads .markup d (.node e) f) (more : Reads .children f (.nodes others) g) :
    Reads .children c (.nodes (front ++ e :: others)) g
  | containerEmpty {c : Cursor} {s t : Sight} (opening : c.mark? .openBrace = some s)
    (closing : s.stop.mark? .closeBrace = some t) :
    Reads .container c
      (.node (shapeAt (.expressionContainer none) s.start.pos t.stop.pos)) t.stop
  | container {c d : Cursor} {s t : Sight} {e : Shape} (opening : c.mark? .openBrace = some s)
    (filled : s.stop.mark? .closeBrace = none)
    (read : Reads .spreadOrExpression s.stop (.node e) d)
    (closing : d.mark? .closeBrace = some t) :
    Reads .container c
      (.node (shapeAt (.expressionContainer (some e)) s.start.pos t.stop.pos)) t.stop
  | containerSpread {c d : Cursor} {s : Sight} {e : Shape} (ellipsis : c.mark? .ellipsis = some s)
    (read : Reads (.expression [.closeBrace]) s.stop (.node e) d) :
    Reads .spreadOrExpression c (.node (shapeAt (.spread e) s.start.pos d.pos)) d
  | containerExpression {c d : Cursor} {e : Shape} (plain : c.mark? .ellipsis = none)
    (read : Reads (.expression [.closeBrace]) c (.node e) d) :
    Reads .spreadOrExpression c (.node e) d
  | statementsEnd {c : Cursor} (h : c.sight? = none) : Reads .statements c (.nodes []) c
  | semicolon {c d : Cursor} {s : Sight} {found : List Shape} (h : c.mark? .semicolon = some s)
    (more : Reads .statements s.stop (.nodes found) d) :
    Reads .statements c (.nodes found) d
  | statement {c d f : Cursor} {s : Sight} {e : Shape} {others : List Shape} (seen : c.sight? = some s)
    (h : s.token ≠ some (.punctuator .semicolon))
    (read : Reads (.expression [.semicolon]) c (.node e) d)
    (more : Reads .statements d (.nodes others) f) :
    Reads .statements c (.nodes (shapeAt (.expressionStatement e) s.start.pos d.pos :: others)) f

end Parser

end MarkupEditor
