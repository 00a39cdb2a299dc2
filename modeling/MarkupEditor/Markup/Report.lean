import MarkupEditor.Markup.ParseError
import MarkupEditor.Text.CellWidth
/-!
# Error reports

An error is shown with the line it points at: the location, the line itself with the place marked, an
underline with a leader from its middle, and the label of the error. Colours are terminal escapes, one
for each character that has one.

The place comes as a span of byte offsets of the source and is used as a span of character offsets, so
that text outside ASCII in front of it moves the mark.
-/

set_option autoImplicit false

namespace MarkupEditor

open Text

namespace Report

inductive Colour where
  | red
  | margin
  | skippedMargin
  | unmarked

def Colour.code : Colour → String
  | .red => "31"
  | .margin => "38;5;246"
  | .skippedMargin => "38;5;240"
  | .unmarked => "38;5;249"

def paint (colour : Colour) (text : String) : String :=
  "\x1b[" ++ colour.code ++ "m" ++ text ++ "\x1b[0m"

def copies (n : Nat) (c : Char) : String :=
  String.ofList (List.replicate n c)

/-- A character that ends a line. A carriage return and a line feed after it end one line. -/
def endsLine (c : Char) : Bool :=
  (0x0A ≤ c.toNat && c.toNat ≤ 0x0D) || c.toNat == 0x85 || c.toNat == 0x2028 || c.toNat == 0x2029

def onFirst (c : Char) : List (List Char) → List (List Char)
  | [] => [[c]]
  | line :: lines => (c :: line) :: lines

/-- The lines of a text, each with the characters that end it. There is no line after the last end. -/
def splitLines : List Char → List (List Char)
  | [] => []
  | [c] => [[c]]
  | c :: d :: cs =>
    if endsLine c && !(c == '\r' && d == '\n') then [c] :: splitLines (d :: cs)
    else onFirst c (splitLines (d :: cs))

/-- A line of the source: its number from one, the offset of its first character, its text. -/
structure Line where
  number : Nat
  offset : Nat
  text : List Char

def numberLines : Nat → Nat → List (List Char) → List Line
  | _, _, [] => []
  | number, offset, text :: lines =>
    ⟨number, offset, text⟩ :: numberLines (number + 1) (offset + text.length) lines

def lineAt? (source : List Char) (offset : Nat) : Option Line :=
  ((numberLines 1 0 (splitLines source)).filter (·.offset ≤ offset)).getLast?

/-- How many cells a character of a line takes; a tab reaches to the next multiple of four columns. -/
def width (column : Nat) (c : Char) : Nat :=
  if c = '\t' then 4 - column % 4 else if isBlank c then 1 else cellWidth c

def shown (column : Nat) (c : Char) : List Char :=
  if isBlank c then List.replicate (width column c) ' ' else [c]

def Line.visible (line : Line) : List Char :=
  trimEnd line.text

/-- How many cells a column of a line takes, also past its end. -/
def Line.cells (line : Line) (column : Nat) : Nat :=
  ((line.visible[column]?).map (width column)).getD 1

/-- The marked place, in character offsets of the source. An empty place is only at its end. -/
structure Mark where
  start : Nat
  stop : Nat

/-- The place of an error: cut off at the end of the source, and one offset long if it is empty and not
at that end. -/
def markOf (source : List Char) (span : Span) : Mark :=
  let size := byteLength source
  let start := min span.start size
  let stop := max start (min span.stop size)
  ⟨start, if stop = start then min (start + 1) size else stop⟩

def Mark.contains (mark : Mark) (offset : Nat) : Bool :=
  mark.start ≤ offset && offset < mark.stop

/-- The offset from which the label is led away. -/
def Mark.middle (mark : Mark) : Nat :=
  (mark.start + mark.stop) / 2

def shownLine (line : Line) (mark : Mark) : String :=
  String.join <| line.visible.mapIdx fun column c =>
    let colour := if mark.contains (line.offset + column) then Colour.red else Colour.unmarked
    String.join ((shown column c).map fun c => paint colour (String.singleton c))

def columns (line : Line) (mark : Mark) : List Nat :=
  List.range (mark.stop - line.offset + 2)

/-- The cells of a column: the first, and what the others show. -/
def cells (line : Line) (column : Nat) (first other : String) : String :=
  match line.cells column with
  | 0 => ""
  | n + 1 => first ++ String.join (List.replicate n other)

def underline (line : Line) (mark : Mark) : String :=
  String.join <| (columns line mark).map fun column =>
    let marked := mark.contains (line.offset + column)
    let rule := if marked then paint .red "─" else " "
    if line.offset + column = mark.middle then
      cells line column (paint .red (if marked then "┬" else "│")) rule
    else cells line column rule rule

def leader (line : Line) (mark : Mark) : String :=
  String.join <| (columns line mark).map fun column =>
    let rule := paint .red "─"
    if line.offset + column = mark.middle then cells line column (paint .red "╰") rule
    else if line.offset + column < mark.middle then cells line column " " " "
    else cells line column rule rule

def body (line : Line) (mark : Mark) (label : String) : String :=
  let digits := toString line.number
  let margin := " " ++ paint .skippedMargin (copies (digits.length + 1) ' ' ++ "│") ++ " "
  if line.offset + line.text.length < mark.stop then margin ++ "\n"
  else
    " " ++ paint .margin (digits ++ " │") ++ " " ++ shownLine line mark ++ "\n" ++
    margin ++ underline line mark ++ "\n" ++
    margin ++ leader line mark ++ " " ++ label ++ "\n"

/-- Everything below the message: the location, the marked line and the closing rule. -/
def excerpt (filename : String) (line : Line) (mark : Mark) (label : String) : String :=
  let digits := toString line.number
  let indent := copies (digits.length + 2) ' '
  indent ++ paint .margin "╭" ++ paint .margin "─" ++ paint .margin "[" ++ filename ++ ":" ++ digits ++
    ":" ++ toString (mark.start - line.offset + 1) ++ paint .margin "]" ++ "\n" ++
  indent ++ paint .margin "│" ++ "\n" ++
  body line mark label ++
  paint .margin (copies (digits.length + 2) '─' ++ "╯") ++ "\n"

end Report

def Report.location (filename : String) (line column : Nat) : String :=
  filename ++ ":" ++ toString line ++ ":" ++ toString column

def ParseError.plainReport (error : ParseError) (source : List Char) (filename : String) : String :=
  let (line, column) := error.lineColumn source
  Report.location filename line column ++ ": " ++ error.label

/-- The report of an error in a source with the given file name. A place past the last character has
no excerpt. -/
def ParseError.report (error : ParseError) (source : List Char) (filename : String) : String :=
  let mark := Report.markOf source error.span
  let heading := Report.paint .red "Error:" ++ " " ++ error.message ++ "\n"
  if source.length < mark.start ∨ (mark.start < mark.stop ∧ source.length < mark.stop - 1) then heading
  else
    match Report.lineAt? source mark.start with
    | none => heading
    | some line => heading ++ Report.excerpt filename line mark error.label

end MarkupEditor
