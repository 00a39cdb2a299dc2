import MarkupEditor.Markup.Tree
import MarkupEditor.Text.Blank
import MarkupEditor.Text.Quoted

set_option autoImplicit false

namespace MarkupEditor

open Text

def Literal.source : Literal → List Char
  | .string s => quote s.toList
  | other => other.display.toList

def Literal.spelling (value : Literal) (raw : Option String) : List Char :=
  match raw with
  | some raw => raw.toList
  | none => value.source

/-- The spelling of a literal as the value of an attribute: a string in quotes, any other in braces. -/
def Literal.attributeSpelling (value : Literal) (raw : Option String) : List Char :=
  match value with
  | .string content =>
    match raw with
    | some raw =>
      if raw.toList.head? = some '"' ∨ raw.toList.head? = some '\'' then raw.toList
      else '"' :: escapeAttribute content.toList ++ ['"']
    | none => '"' :: escapeAttribute content.toList ++ ['"']
  | other => '{' :: other.spelling raw ++ ['}']

def separate (separator : List Char) : List (List Char) → List Char
  | [] => []
  | [text] => text
  | text :: others => text ++ separator ++ separate separator others

structure Spelling where
  text : List Char
  value : List Char

def PropertyKey.printed : PropertyKey Spelling → List Char
  | .identifier name => name.toList
  | .literal value raw => value.spelling raw
  | .computed expression => '[' :: expression.text ++ [']']

def OpaquePart.printed : OpaquePart Spelling → List Char
  | .source text => text.toList
  | .node child => child.text

namespace NodeKind

def printed : NodeKind Spelling → List Char
  | .program body => body.flatMap fun statement => statement.text ++ [';', '\n']
  | .expressionStatement expression => expression.text
  | .element name attributes children selfClosing =>
    let opening := '<' :: name.toList ++ attributes.flatMap fun item => ' ' :: item.text
    if children.isEmpty && selfClosing then opening ++ " />".toList
    else opening ++ '>' :: children.flatMap (·.text) ++ "</".toList ++ name.toList ++ ['>']
  | .fragment children => "<>".toList ++ children.flatMap (·.text) ++ "</>".toList
  | .text value raw =>
    match raw with
    | some raw => raw.toList
    | none => escapeText value.toList
  | .expressionContainer expression => '{' :: expression.toList.flatMap (·.text) ++ ['}']
  | .namedAttribute name value =>
    match value with
    | some value => name.toList ++ '=' :: value.value
    | none => name.toList
  | .spreadAttribute argument => ['{', '.', '.', '.'] ++ argument.text ++ ['}']
  | .literal value raw => value.spelling raw
  | .identifier name => name.toList
  | .object properties =>
    if properties.isEmpty then ['{', '}']
    else ['{', ' '] ++ separate [',', ' '] (properties.map (·.text)) ++ [' ', '}']
  | .property key value shorthand =>
    if shorthand then value.text else key.printed ++ [':', ' '] ++ value.text
  | .spread argument => ['.', '.', '.'] ++ argument.text
  | .array elements => '[' :: separate [',', ' '] (elements.map (·.text)) ++ [']']
  | .parenthesized expression => '(' :: expression.text ++ [')']
  | .opaqueText parts => parts.flatMap (·.printed)

/-- A node as the value of an attribute. Literals alone are written in another way there. -/
def printedValue : NodeKind Spelling → List Char
  | .literal value raw => value.attributeSpelling raw
  | kind => kind.printed

def spelling (kind : NodeKind Spelling) : Spelling :=
  ⟨kind.printed, kind.printedValue⟩

end NodeKind

namespace Shape

/-- How a nested form is written. Where a node is missing there is nothing. -/
def spelling : Shape → Spelling :=
  fold ⟨[], []⟩ fun _ kind => kind.spelling

def print (shape : Shape) : List Char :=
  shape.spelling.text

end Shape

/-- The text without the blanks at its end and the semicolon before them; a text that does not end in
a semicolon is kept as it is. -/
def dropLastSemicolon (code : List Char) : List Char :=
  let trimmed := trimEnd code
  if trimmed.getLast? = some ';' then trimmed.dropLast else code

namespace Tree

/-- A node and all below it; nothing for a place without a node. -/
def printNode (t : Tree) (id : NodeId) : List Char :=
  (t.shape id).print

def printProgram (t : Tree) : List Char :=
  t.printNode t.root

/-- The code of a tree. A lone expression has no semicolon after it. -/
def code (t : Tree) : String :=
  String.ofList (dropLastSemicolon t.printProgram)

end Tree

end MarkupEditor
