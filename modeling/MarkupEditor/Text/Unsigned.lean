set_option autoImplicit false

namespace MarkupEditor.Text

/-- The value of a digit in either case, whatever the radix. -/
def digitValue? (c : Char) : Option Nat :=
  if '0' ≤ c ∧ c ≤ '9' then some (c.toNat - '0'.toNat)
  else if 'a' ≤ c ∧ c ≤ 'z' then some (c.toNat - 'a'.toNat + 10)
  else if 'A' ≤ c ∧ c ≤ 'Z' then some (c.toNat - 'A'.toNat + 10)
  else none

def digitBelow? (radix : Nat) (c : Char) : Option Nat :=
  (digitValue? c).filter (· < radix)

/-- The number that a run of digits writes on from `value`; `none` at the first other character. -/
def readDigits (radix : Nat) : Nat → List Char → Option Nat
  | value, [] => some value
  | value, c :: cs => (digitBelow? radix c).bind fun d => readDigits radix (value * radix + d) cs

/-- Reads an unsigned integer below `limit`: at least one digit, after at most one plus sign. -/
def readUnsigned (radix limit : Nat) (cs : List Char) : Option Nat :=
  let digits := match cs with
    | '+' :: rest => rest
    | _ => cs
  if digits.isEmpty then none else (readDigits radix 0 digits).filter (· < limit)

/-- Writes a number in the given number of hexadecimal digits, small letters, high digits first. -/
def hexDigits : Nat → Nat → List Char
  | 0, _ => []
  | width + 1, n => hexDigits width (n / 16) ++ [Nat.digitChar (n % 16)]

def decimal (n : Nat) : List Char :=
  Nat.toDigits 10 n

end MarkupEditor.Text
