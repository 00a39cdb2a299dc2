import MarkupEditor.Json.Value
import MarkupEditor.Number.Shortest
import MarkupEditor.Text.Unsigned

set_option autoImplicit false

namespace MarkupEditor.Json

open Text

namespace Printer

def escapeChar (c : Char) : List Char :=
  match c with
  | '"' => ['\\', '"']
  | '\\' => ['\\', '\\']
  | '\n' => ['\\', 'n']
  | '\r' => ['\\', 'r']
  | '\t' => ['\\', 't']
  | '\x08' => ['\\', 'b']
  | '\x0c' => ['\\', 'f']
  | c => if c < ' ' then ['\\', 'u'] ++ hexDigits 4 c.toNat else [c]

def string (s : String) : List Char :=
  '"' :: s.toList.flatMap escapeChar ++ ['"']

/-- A number; what is not finite has no form in JSON and becomes null. -/
def number : JsonNumber → List Char
  | .natural n => decimal n
  | .negative n => '-' :: decimal n
  | .float x => if x.isFinite then Shortest.print x else "null".toList

mutual

def compact : Json → List Char
  | .null => "null".toList
  | .bool b => (if b then "true" else "false").toList
  | .number n => number n
  | .string s => string s
  | .array items => '[' :: compactItems items ++ [']']
  | .object members => '{' :: compactMembers members ++ ['}']
  | .unreadable => "null".toList

def compactItems : List Json → List Char
  | [] => []
  | [item] => compact item
  | item :: items => compact item ++ ',' :: compactItems items

def compactMembers : List (String × Json) → List Char
  | [] => []
  | [(name, value)] => string name ++ ':' :: compact value
  | (name, value) :: members => string name ++ ':' :: compact value ++ ',' :: compactMembers members

end

def newLine (depth : Nat) : List Char :=
  '\n' :: List.replicate (2 * depth) ' '

mutual

def laidOut (depth : Nat) : Json → List Char
  | .array [] => ['[', ']']
  | .array items => '[' :: laidOutItems (depth + 1) items ++ newLine depth ++ [']']
  | .object [] => ['{', '}']
  | .object members => '{' :: laidOutMembers (depth + 1) members ++ newLine depth ++ ['}']
  | other => compact other

def laidOutItems (depth : Nat) : List Json → List Char
  | [] => []
  | [item] => newLine depth ++ laidOut depth item
  | item :: items => newLine depth ++ laidOut depth item ++ ',' :: laidOutItems depth items

def laidOutMembers (depth : Nat) : List (String × Json) → List Char
  | [] => []
  | [(name, value)] => newLine depth ++ string name ++ [':', ' '] ++ laidOut depth value
  | (name, value) :: members =>
    newLine depth ++ string name ++ [':', ' '] ++ laidOut depth value ++ ',' ::
      laidOutMembers depth members

end

end Printer

def print (value : Json) : String :=
  String.ofList (Printer.compact value)

def printPretty (value : Json) : String :=
  String.ofList (Printer.laidOut 0 value)

end MarkupEditor.Json
