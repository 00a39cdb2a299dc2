import MarkupEditor.Text.Unsigned

set_option autoImplicit false

namespace MarkupEditor

/-- A host and a port. The scope of a host in groups is zero if none is named. -/
inductive SocketAddress where
  | quad (octets : List Nat) (port : Nat)
  | groups (words : List Nat) (scope port : Nat)
  deriving DecidableEq

namespace SocketAddress

open Text

/-- A number at the front of a text, at most as long and below the limit, and the text after it. -/
def number? (radix limit : Nat) (maxDigits : Option Nat) (leadingZeros : Bool) (cs : List Char) :
    Option (Nat × List Char) :=
  let isDigit (c : Char) : Bool := (digitBelow? radix c).isSome
  let digits := cs.takeWhile isDigit
  if digits.isEmpty || maxDigits.any (· < digits.length) then none
  else if !leadingZeros && digits.head? = some '0' && 1 < digits.length then none
  else (readUnsigned radix limit digits).map fun n => (n, cs.dropWhile isDigit)

def char? (c : Char) : List Char → Option (List Char)
  | d :: cs => if d = c then some cs else none
  | [] => none

def octet? (cs : List Char) : Option (Nat × List Char) :=
  number? 10 256 (some 3) false cs

def quad? (cs : List Char) : Option (List Nat × List Char) := do
  let (a, cs) ← octet? cs
  let (b, cs) ← octet? (← char? '.' cs)
  let (c, cs) ← octet? (← char? '.' cs)
  let (d, cs) ← octet? (← char? '.' cs)
  return ([a, b, c, d], cs)

def port? (cs : List Char) : Option (Nat × List Char) := do
  number? 10 UInt16.size none true (← char? ':' cs)

def wordsOfQuad : List Nat → List Nat
  | [a, b, c, d] => [256 * a + b, 256 * c + d]
  | _ => []

/-- At most so many groups at the front of a text: the groups, whether the last were written as four
octets, and the text after them. Before each but the first stands a colon. -/
def words (isFirst : Bool) : Nat → List Char → List Nat × Bool × List Char
  | 0, cs => ([], false, cs)
  | room + 1, cs =>
    match if isFirst then some cs else char? ':' cs with
    | none => ([], false, cs)
    | some inner =>
      match if 0 < room then quad? inner else none with
      | some (octets, rest) => (wordsOfQuad octets, true, rest)
      | none =>
        match number? 16 UInt16.size (some 4) true inner with
        | none => ([], false, cs)
        | some (word, rest) =>
          let (more, endsInQuad, rest) := words false room rest
          (word :: more, endsInQuad, rest)

/-- Eight groups, or fewer around two colons that stand for the zero groups left out. -/
def host? (cs : List Char) : Option (List Nat × List Char) :=
  let (front, endsInQuad, rest) := words true 8 cs
  if front.length = 8 then some (front, rest)
  else if endsInQuad then none
  else
    match rest with
    | ':' :: ':' :: rest =>
      let (back, _, rest) := words true (7 - front.length) rest
      some (front ++ List.replicate (8 - front.length - back.length) 0 ++ back, rest)
    | _ => none

def scope (cs : List Char) : Nat × List Char :=
  ((char? '%' cs).bind (number? 10 UInt32.size none true)).getD (0, cs)

def readQuad (cs : List Char) : Option (SocketAddress × List Char) := do
  let (octets, cs) ← quad? cs
  let (port, cs) ← port? cs
  return (.quad octets port, cs)

def readGroups (cs : List Char) : Option (SocketAddress × List Char) := do
  let (words, cs) ← host? (← char? '[' cs)
  let (scope, cs) := scope cs
  let (port, cs) ← port? (← char? ']' cs)
  return (.groups words scope port, cs)

def read? (text : String) : Option SocketAddress :=
  match (readQuad text.toList).orElse fun _ => readGroups text.toList with
  | some (address, []) => some address
  | _ => none

def printQuad (octets : List Nat) : String :=
  ".".intercalate (octets.map toString)

def printWord (word : Nat) : String :=
  String.ofList (Nat.toDigits 16 word)

def printWords (words : List Nat) : String :=
  ":".intercalate (words.map printWord)

/-- The first of the longest runs of zero groups: where it begins and how long it is. -/
def longestZeros (words : List Nat) : Nat × Nat :=
  let runs := (List.range words.length).map fun start =>
    (start, ((words.drop start).takeWhile (· = 0)).length)
  runs.foldl (fun best run => if best.2 < run.2 then run else best) (0, 0)

def printHost (words : List Nat) : String :=
  match words with
  | [0, 0, 0, 0, 0, 0xffff, a, b] => "::ffff:" ++ printQuad [a / 256, a % 256, b / 256, b % 256]
  | words =>
    let (start, length) := longestZeros words
    if 1 < length then printWords (words.take start) ++ "::" ++ printWords (words.drop (start + length))
    else printWords words

def print : SocketAddress → String
  | .quad octets port => printQuad octets ++ ":" ++ toString port
  | .groups words scope port =>
    let scopeText := if scope = 0 then "" else "%" ++ toString scope
    "[" ++ printHost words ++ scopeText ++ "]:" ++ toString port

end SocketAddress

end MarkupEditor
