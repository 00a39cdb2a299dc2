import MarkupEditor.Number.Binary64
import MarkupEditor.Text.Unsigned

set_option autoImplicit false

namespace MarkupEditor.Decimal

open Text

/-- The magnitude nearest to `digits * 10 ^ exponent`. Exponents that leave the range of finite
words whatever the digits are not raised to. -/
def magnitude (digits : Nat) (exponent : Int) : Nat :=
  let size : Int := (Nat.toDigits 10 digits).length
  if digits = 0 then 0
  else if 310 < exponent + size then Binary64.infinite
  else if exponent + size < -330 then 0
  else if 0 ≤ exponent then Binary64.roundRatio (digits * Nat.pow 10 exponent.toNat) 1
  else Binary64.roundRatio digits (Nat.pow 10 (-exponent).toNat)

def value (whole fraction : List Char) (exponent : Int) : Option Nat := do
  let digits ← readDigits 10 0 (whole ++ fraction)
  pure (magnitude digits (exponent - fraction.length))

def takeSign : List Char → Bool × List Char
  | '-' :: cs => (true, cs)
  | '+' :: cs => (false, cs)
  | cs => (false, cs)

/-- The exponent that ends a number: nothing, or a letter `e`, a sign and at least one digit. -/
def readExponent : List Char → Option Int
  | [] => some 0
  | c :: cs =>
    if c = 'e' ∨ c = 'E' then
      let (negative, digits) := takeSign cs
      if digits.isEmpty then none
      else (readDigits 10 0 digits).map fun n => if negative then -(n : Int) else n
    else none

/-- Reads digits, a point and an exponent. Digits may be missing on one side of the point. -/
def readPositional (cs : List Char) : Option Nat :=
  let whole := cs.takeWhile Char.isDigit
  let rest := cs.dropWhile Char.isDigit
  let (fraction, tail) := match rest with
    | '.' :: rest => (rest.takeWhile Char.isDigit, rest.dropWhile Char.isDigit)
    | _ => ([], rest)
  if whole.isEmpty && fraction.isEmpty then none
  else (readExponent tail).bind (value whole fraction)

/-- Reads a number from its decimal text; no blanks, no digit separators, no other radix. -/
def read (cs : List Char) : Option Binary64 :=
  let (negative, body) := takeSign cs
  let name := body.map Char.toLower
  if name = ['i', 'n', 'f'] ∨ name = ['i', 'n', 'f', 'i', 'n', 'i', 't', 'y'] then
    some (.ofMagnitude negative Binary64.infinite)
  else if name = ['n', 'a', 'n'] then
    some (.ofMagnitude negative (Binary64.infinite + Binary64.hidden / 2))
  else (readPositional body).map (.ofMagnitude negative)

end MarkupEditor.Decimal
