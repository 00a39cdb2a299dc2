import MarkupEditor.Json.Value
import MarkupEditor.Number.Decimal
/-!
# Reading JSON

The grammar is the usual one, with nothing before or after the value but blanks. What has the form of
a value and names none reads as `unreadable`: a number outside the range of binary64, a string with half
a surrogate pair, an object with such a name of a member, and an array or object inside 127 others.

A number with a fraction or an exponent is computed in steps: as many digits as fit into 64 bits, then
one product with, or quotient by, a power of ten, each rounded. The result may differ from the nearest
word in the last place.
-/

set_option autoImplicit false

namespace MarkupEditor.Json

open Text

namespace Reader

def isBlank (c : Char) : Bool :=
  c == ' ' || c == '\n' || c == '\t' || c == '\r'

def skipBlanks (cs : List Char) : List Char :=
  cs.dropWhile isBlank

def codeUnit? : List Char → Option Nat
  | a :: b :: c :: d :: _ => readDigits 16 0 [a, b, c, d]
  | _ => none

def lowSurrogate? : List Char → Option Nat
  | '\\' :: 'u' :: cs => (codeUnit? cs).filter fun n => 0xDC00 ≤ n && n < 0xE000
  | _ => none

/-- The character after a backslash, or nothing for half a surrogate pair, and how many characters
are used. -/
def escape? : List Char → Option (Option Char × Nat)
  | '"' :: _ => some (some '"', 1)
  | '\\' :: _ => some (some '\\', 1)
  | '/' :: _ => some (some '/', 1)
  | 'b' :: _ => some (some '\x08', 1)
  | 'f' :: _ => some (some '\x0c', 1)
  | 'n' :: _ => some (some '\n', 1)
  | 'r' :: _ => some (some '\r', 1)
  | 't' :: _ => some (some '\t', 1)
  | 'u' :: cs => do
    let high ← codeUnit? cs
    if 0xD800 ≤ high ∧ high < 0xDC00 then
      match lowSurrogate? (cs.drop 4) with
      | some low => some (some (Char.ofNat (0x10000 + (high - 0xD800) * 0x400 + (low - 0xDC00))), 11)
      | none => some (none, 5)
    else if 0xDC00 ≤ high ∧ high < 0xE000 then some (none, 5)
    else some (some (Char.ofNat high), 5)
  | _ => none

/-- The characters of a string up to its closing quote, after passing over a number of them. -/
def stringAfter : Nat → List Char → Option (List (Option Char) × List Char)
  | _, [] => none
  | skipped + 1, _ :: cs => stringAfter skipped cs
  | 0, c :: cs =>
    if c = '"' then some ([], cs)
    else if c = '\\' then
      match escape? cs with
      | some (unit, size) => (stringAfter size cs).map fun (units, rest) => (unit :: units, rest)
      | none => none
    else if c < ' ' then none
    else (stringAfter 0 cs).map fun (units, rest) => (some c :: units, rest)

def string (cs : List Char) : Option (Option String × List Char) :=
  (stringAfter 0 cs).map fun (units, rest) => ((units.mapM id).map String.ofList, rest)

/-- Takes digits while the number they write fits into 64 bits: the number, how many digits were
taken, and the digits left. -/
def significand : Nat → List Char → Nat × Nat × List Char
  | value, [] => (value, 0, [])
  | value, c :: cs =>
    let next := value * 10 + (c.toNat - '0'.toNat)
    if next < UInt64.size then
      let (result, taken, rest) := significand next cs
      (result, taken + 1, rest)
    else (value, 0, c :: cs)

/-- A magnitude times a power of ten, in steps of at most `10 ^ 308`; `none` if it leaves the range. -/
def scaled? : Nat → Nat → Int → Option Nat
  | 0, magnitude, _ => some magnitude
  | steps + 1, magnitude, exponent =>
    if exponent.natAbs ≤ 308 then
      let power := Decimal.magnitude 1 exponent.natAbs
      if 0 ≤ exponent then (some (Binary64.mulMagnitude magnitude power)).filter (· < Binary64.infinite)
      else some (Binary64.divMagnitude magnitude power)
    else if magnitude = 0 then some 0
    else if 0 ≤ exponent then none
    else scaled? steps (Binary64.divMagnitude magnitude (Decimal.magnitude 1 308)) (exponent + 308)

structure NumberParts where
  negative : Bool
  whole : List Char
  fraction : Option (List Char)
  exponent : Option (Bool × List Char)

def digits (cs : List Char) : List Char × List Char :=
  (cs.takeWhile Char.isDigit, cs.dropWhile Char.isDigit)

/-- The parts of a number at the front of a text. A whole part has no needless zero, and each part
that is begun has a digit. -/
def numberParts? (cs : List Char) : Option (NumberParts × List Char) := do
  let (negative, cs) := match cs with
    | '-' :: cs => (true, cs)
    | _ => (false, cs)
  let (whole, cs) := digits cs
  if whole.isEmpty ∨ (whole.head? = some '0' ∧ whole.length ≠ 1) then none
  let (fraction, cs) := match cs with
    | '.' :: cs => ((digits cs).map some id)
    | _ => (none, cs)
  if fraction = some [] then none
  let (exponent, cs) := match cs with
    | c :: rest =>
      if c = 'e' ∨ c = 'E' then
        let (sign, rest) := Decimal.takeSign rest
        ((digits rest).map (fun ds => some (sign, ds)) id)
      else (none, c :: rest)
    | [] => (none, [])
  if (exponent.map (·.2)) = some [] then none
  some (⟨negative, whole, fraction, exponent⟩, cs)

def ofDigits (ds : List Char) : Nat :=
  (readDigits 10 0 ds).getD 0

def floatMagnitude? (parts : NumberParts) : Option Nat :=
  let (value, _, left) := significand 0 parts.whole
  let (value, taken, _) := significand value (parts.fraction.getD [])
  let point : Int := (left.length : Int) - taken
  let (down, ds) := parts.exponent.getD (false, [])
  let power := ofDigits ds
  if 0x80000000 ≤ power then if value ≠ 0 ∧ !down then none else some 0
  else scaled? 5 (Binary64.roundRatio value 1) (if down then point - power else point + power)

/-- The value of a number. A negative zero is not whole. -/
def numberValue (parts : NumberParts) : Json :=
  let whole := ofDigits parts.whole
  let float : Json :=
    match floatMagnitude? parts with
    | some magnitude => .number (.float (.ofMagnitude parts.negative magnitude))
    | none => .unreadable
  if parts.fraction.isSome ∨ parts.exponent.isSome ∨ UInt64.size ≤ whole then float
  else if !parts.negative then .number (.natural whole)
  else if 0 < whole ∧ whole ≤ 0x8000000000000000 then .number (.negative whole)
  else .number (.float (.ofMagnitude true (Binary64.roundRatio whole 1)))

def maxDepth : Nat := 127

/-- An array or object at a level, unless too many stand around it. -/
def atLevel (level : Nat) (value : Json) : Json :=
  if level < maxDepth then value else .unreadable

/-- The object with some members. If one of their names cannot be read, the object cannot. -/
def objectOf (members : List (Option String × Json)) : Json :=
  match members.mapM fun (name, value) => name.map (·, value) with
  | some members => .object members
  | none => .unreadable

mutual

/-- A value at a level, and the text after it. The first argument bounds the steps. -/
def value : Nat → Nat → List Char → Option (Json × List Char)
  | 0, _, _ => none
  | steps + 1, level, cs =>
    match skipBlanks cs with
    | 'n' :: 'u' :: 'l' :: 'l' :: rest => some (.null, rest)
    | 't' :: 'r' :: 'u' :: 'e' :: rest => some (.bool true, rest)
    | 'f' :: 'a' :: 'l' :: 's' :: 'e' :: rest => some (.bool false, rest)
    | '"' :: rest => do
      let (text, rest) ← string rest
      some ((text.map Json.string).getD .unreadable, rest)
    | '[' :: rest =>
      match skipBlanks rest with
      | ']' :: rest => some (atLevel level (.array []), rest)
      | rest => do
        let (items, rest) ← items steps (level + 1) rest
        some (atLevel level (.array items), rest)
    | '{' :: rest =>
      match skipBlanks rest with
      | '}' :: rest => some (atLevel level (.object []), rest)
      | rest => do
        let (members, rest) ← members steps (level + 1) rest
        some (atLevel level (objectOf members), rest)
    | other => do
      let (parts, rest) ← numberParts? other
      some (numberValue parts, rest)

def items : Nat → Nat → List Char → Option (List Json × List Char)
  | 0, _, _ => none
  | steps + 1, level, cs => do
    let (first, rest) ← value steps level cs
    match skipBlanks rest with
    | ']' :: rest => some ([first], rest)
    | ',' :: rest => do
      let (others, rest) ← items steps level rest
      some (first :: others, rest)
    | _ => none

def members : Nat → Nat → List Char → Option (List (Option String × Json) × List Char)
  | 0, _, _ => none
  | steps + 1, level, cs =>
    match skipBlanks cs with
    | '"' :: rest => do
      let (name, rest) ← string rest
      match skipBlanks rest with
      | ':' :: rest => do
        let (first, rest) ← value steps level rest
        match skipBlanks rest with
        | '}' :: rest => some ([(name, first)], rest)
        | ',' :: rest => do
          let (others, rest) ← members steps level rest
          some ((name, first) :: others, rest)
        | _ => none
      | _ => none
    | _ => none

end

end Reader

/-- Reads a text that is one value and nothing else. Parts that name no value are kept as such. -/
def read (text : List Char) : Option Json :=
  match Reader.value (2 * text.length + 2) 0 text with
  | some (value, rest) => if (Reader.skipBlanks rest).isEmpty then some value else none
  | none => none

/-- Reads a text that is one value, every part of which can be read. -/
def readAll (text : List Char) : Option Json :=
  (read text).filter isReadable

end MarkupEditor.Json
