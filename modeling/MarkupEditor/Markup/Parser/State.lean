import MarkupEditor.Markup.Lexer
import MarkupEditor.Markup.ParseError
import MarkupEditor.Markup.Tree
/-!
# The state of a parse

A parse is a function of its state: where it stands in the source and the nodes made so far. It ends
early with an error, which is final: no attempt goes on after one.

What the nodes are kept in is left to a builder. The stored builder puts them into one array and takes
an attempt that does not work out back by cutting the array. Markup that was read in the attempt is
remembered with its node, so those nodes stay; a builder that does not share forgets them and makes
them again.
-/

set_option autoImplicit false

namespace MarkupEditor

open Text

/-- A place in the source: what is left from there, and its byte offset. -/
structure Cursor where
  rest : List Char
  pos : Nat

namespace Cursor

def advance (c : Cursor) (text rest : List Char) : Cursor :=
  ⟨rest, c.pos + byteLength text⟩

def sourceEnd (c : Cursor) : Nat :=
  c.pos + byteLength c.rest

def skipBlanks (c : Cursor) : Cursor :=
  c.advance (c.rest.takeWhile isBlank) (trimStart c.rest)

end Cursor

structure Sight where
  skipped : List Char
  token : Option Token
  text : List Char
  start : Cursor
  stop : Cursor

def Sight.span (s : Sight) : Span :=
  ⟨s.start.pos, s.stop.pos⟩

def Sight.number? (sight : Sight) : Option String :=
  match sight.token with
  | some (.number raw) => some raw
  | _ => none

def Token.isOneOf (marks : List Punctuator) : Token → Bool
  | .punctuator mark => marks.contains mark
  | _ => false

namespace Cursor

def sight? (c : Cursor) : Option Sight :=
  (Lexeme.next? c.rest).map fun lexeme =>
    let start := c.advance lexeme.skipped (lexeme.text ++ lexeme.rest)
    ⟨lexeme.skipped, lexeme.token, lexeme.text, start, start.advance lexeme.text lexeme.rest⟩

def mark? (mark : Punctuator) (c : Cursor) : Option Sight :=
  c.sight?.filter fun sight => sight.token = some (.punctuator mark)

def nextStart (c : Cursor) : Nat :=
  (c.sight?.map (·.start.pos)).getD c.sourceEnd

/-- Whether an expression ends here: at one of the marks or at the end of the source. -/
def endsAt (ends : List Punctuator) (c : Cursor) : Bool :=
  match c.sight? with
  | none => true
  | some sight => sight.token.any (Token.isOneOf ends)

/-- The place to go on at after one item of a list: past a comma, or before the closing mark. -/
def separator? (closing : Punctuator) (c : Cursor) : Option Cursor :=
  match c.mark? .comma with
  | some sight => some sight.stop
  | none => if (c.mark? closing).isSome then some c else none

end Cursor

namespace Parser

structure Remembered (ι : Type) where
  start : Nat
  node : ι
  stop : Cursor

/-- What a parse makes its nodes with: `σ` keeps them, `ι` refers to one. -/
structure Builder (ι σ : Type) where
  size : σ → Nat
  alloc : NodeKind ι → Span → σ → ι × σ
  cut : Nat → σ → σ
  recalled? : Nat → σ → Option (Remembered ι)
  remember : Remembered ι → σ → σ

structure State (σ : Type) where
  cursor : Cursor
  store : σ

/-- Why a parse ends early. `exhausted` stands for a nesting deeper than the depth that was allowed. -/
inductive Stop where
  | refused (error : ParseError)
  | exhausted

end Parser

abbrev Parser (σ : Type) :=
  StateT (Parser.State σ) (Except Parser.Stop)

namespace Parser

variable {σ ι : Type}

def refuse {α : Type} (error : ParseError) : Parser σ α :=
  throw (.refused error)

def here : Parser σ Cursor := do
  return (← get).cursor

def peek : Parser σ (Option Sight) := do
  return (← here).sight?

def moveTo (cursor : Cursor) : Parser σ Unit :=
  modify fun s => { s with cursor }

def refuseEnd {α : Type} (expected : String) : Parser σ α := do
  refuse (.unexpectedEnd (← here).sourceEnd expected)

def refuseSight {α : Type} (expected : String) : Option Sight → Parser σ α
  | none => refuseEnd expected
  | some sight =>
    match sight.token with
    | some token => refuse (.unexpectedToken sight.span expected token.describe)
    | none => refuse (.unmatchedText sight.span)

def sees (mark : Punctuator) : Parser σ Bool := do
  return ((← here).mark? mark).isSome

def accept (mark : Punctuator) : Parser σ Bool := do
  match (← here).mark? mark with
  | some sight =>
    moveTo sight.stop
    return true
  | none => return false

def expect (mark : Punctuator) : Parser σ Sight := do
  match (← here).mark? mark with
  | some sight =>
    moveTo sight.stop
    return sight
  | none => refuseSight mark.describe (← peek)

def expectName (expected : String) : Parser σ String := do
  match ← peek with
  | some sight =>
    match sight.token.bind Token.name? with
    | some name =>
      moveTo sight.stop
      return name
    | none => refuseSight expected (some sight)
  | none => refuseEnd expected

/-- Takes a comma, or leaves the mark that closes a list in place. False if neither is next. -/
def acceptSeparator (closing : Punctuator) : Parser σ Bool := do
  match (← here).separator? closing with
  | some next =>
    moveTo next
    return true
  | none => return false

def alloc (b : Builder ι σ) (kind : NodeKind ι) (span : Span) : Parser σ ι :=
  modifyGet fun s =>
    let (node, store) := b.alloc kind span s.store
    (node, { s with store })

def allocFrom (b : Builder ι σ) (kind : NodeKind ι) (start : Nat) : Parser σ ι := do
  let stop := (← here).pos
  alloc b kind ⟨start, stop⟩

def made (b : Builder ι σ) : Parser σ Nat := do
  return b.size (← get).store

/-- Goes back to a place and drops the nodes made since, those of remembered markup excepted. -/
def rewind (b : Builder ι σ) (cursor : Cursor) (size : Nat) : Parser σ Unit :=
  modify fun s => ⟨cursor, b.cut size s.store⟩

def rememberedAt? (b : Builder ι σ) (start : Nat) : Parser σ (Option (Remembered ι)) := do
  return b.recalled? start (← get).store

def remember (b : Builder ι σ) (start : Nat) (node : ι) : Parser σ Unit :=
  modify fun s => { s with store := b.remember ⟨start, node, s.cursor⟩ s.store }

/-- Stored nodes and the markup already read. Nodes below `kept` belong to that markup. -/
structure Arena where
  nodes : Array Node
  remembered : List (Remembered NodeId)
  kept : Nat

/-- The builder of stored nodes. With `sharing`, markup that an attempt has read is not read again, and
its nodes outlive the attempt. -/
def stored (sharing : Bool) : Builder NodeId Arena where
  size s := s.nodes.size
  alloc kind span s := (⟨s.nodes.size⟩, { s with nodes := s.nodes.push ⟨kind, some span⟩ })
  cut size s := { s with nodes := s.nodes.take (if sharing then max size s.kept else size) }
  recalled? start s := if sharing then s.remembered.find? (·.start = start) else none
  remember markup s := { s with remembered := markup :: s.remembered, kept := s.nodes.size }

end Parser

end MarkupEditor
