/-!
# Binary64 numbers

A number literal is a 64-bit floating-point word. The word is kept as bits, and every operation on
it is exact arithmetic on natural numbers followed by one rounding, so that statements about
numbers need nothing but arithmetic.

A magnitude below `infinite` stands for `m * 2 ^ q` with the pair `(m, q)` given by `decode`;
`roundRatio` is the nearest such value to a ratio, a tie going to the even significand.
-/

set_option autoImplicit false

namespace MarkupEditor

/-- A 64-bit floating-point word. Two words are equal if their bits are. -/
structure Binary64 where
  bits : UInt64
  deriving DecidableEq

namespace Binary64

def signBit : Nat := 0x8000000000000000

/-- The weight of the lowest exponent bit, which is also the hidden bit of a significand. -/
def hidden : Nat := 0x10000000000000

/-- The magnitude of the infinities. Larger magnitudes are no numbers. -/
def infinite : Nat := 0x7FF * hidden

def magnitude (x : Binary64) : Nat := x.bits.toNat % signBit

def isNegative (x : Binary64) : Bool := signBit ≤ x.bits.toNat

def ofMagnitude (negative : Bool) (magnitude : Nat) : Binary64 :=
  ⟨UInt64.ofNat ((if negative then signBit else 0) + magnitude % signBit)⟩

def isNaN (x : Binary64) : Bool := infinite < x.magnitude

def isInfinite (x : Binary64) : Bool := x.magnitude == infinite

def isFinite (x : Binary64) : Bool := x.magnitude < infinite

def neg (x : Binary64) : Binary64 := ofMagnitude (!x.isNegative) x.magnitude

/-- The significand and the binary exponent of a finite magnitude. -/
def decode (magnitude : Nat) : Nat × Int :=
  if magnitude / hidden = 0 then (magnitude, -1074)
  else (hidden + magnitude % hidden, (magnitude / hidden : Nat) - 1075)

/-- The nearest natural number to `num / den`; of two equally near ones, the even one. -/
def divNearestEven (num den : Nat) : Nat :=
  let quotient := num / den
  let twice := 2 * (num % den)
  if den < twice ∨ (twice = den ∧ quotient % 2 = 1) then quotient + 1 else quotient

def scaleDown (num den : Nat) (q : Int) : Nat × Nat :=
  if 0 ≤ q then (num, den <<< q.toNat) else (num <<< (-q).toNat, den)

/-- The magnitude nearest to `num / den`, a tie going to the even significand; at and past the
middle between the greatest finite magnitude and the next power of two it is infinite. -/
def roundRatio (num den : Nat) : Nat :=
  if num = 0 then 0
  else
    let guess : Int := (num.log2 : Int) - den.log2 - 52
    let (n, d) := scaleDown num den guess
    let exponent := max (if n / d < hidden then guess - 1 else guess) (-1074)
    let (n, d) := scaleDown num den exponent
    min ((exponent + 1074).toNat * hidden + divNearestEven n d) infinite

def ofNat (n : Nat) : Binary64 := ofMagnitude false (roundRatio n 1)

def ratio (magnitude : Nat) : Nat × Nat :=
  let (m, q) := decode magnitude
  if 0 ≤ q then (m <<< q.toNat, 1) else (m, 1 <<< (-q).toNat)

def mulMagnitude (a b : Nat) : Nat :=
  roundRatio ((ratio a).1 * (ratio b).1) ((ratio a).2 * (ratio b).2)

def divMagnitude (a b : Nat) : Nat :=
  roundRatio ((ratio a).1 * (ratio b).2) ((ratio a).2 * (ratio b).1)

end Binary64

end MarkupEditor
