import MarkupEditor.Number.Binary64
/-!
# The shortest text of a number

The reals that round to a finite word form an interval. Among the decimal grids `10 ^ e` with a
point in that interval the coarsest gives the fewest digits; of its points the one nearest to the
word's own value is written, a tie going up. The digits are written positionally, whatever their
exponent.
-/

set_option autoImplicit false

namespace MarkupEditor.Shortest

/-- The reals that round to a word, in quarters of its last place: the value, both ends and whether
the ends themselves round to it. A quarter of the last place is `2 ^ exponent`. -/
structure Interval where
  value : Nat
  low : Nat
  high : Nat
  closed : Bool
  exponent : Int

/-- The interval of a finite magnitude. Below a power of two the neighbour is half as far away. -/
def interval (magnitude : Nat) : Interval :=
  let (m, q) := Binary64.decode magnitude
  let narrow := m = Binary64.hidden ∧ -1074 < q
  { value := 4 * m
    low := if narrow then 4 * m - 1 else 4 * m - 2
    high := 4 * m + 2
    closed := m % 2 = 0
    exponent := q - 2 }

/-- One place of the grid `10 ^ e`, in units of `2 ^ exponent / scale`. -/
structure Grid where
  scale : Nat
  step : Nat

def powerRatio (base : Nat) (e : Int) : Nat × Nat :=
  if 0 ≤ e then (Nat.pow base e.toNat, 1) else (1, Nat.pow base (-e).toNat)

def grid (exponent e : Int) : Grid :=
  { scale := (powerRatio 10 e).2 * (powerRatio 2 exponent).1
    step := (powerRatio 10 e).1 * (powerRatio 2 exponent).2 }

def Interval.contains (i : Interval) (g : Grid) (n : Nat) : Bool :=
  let point := n * g.step
  if i.closed then i.low * g.scale ≤ point && point ≤ i.high * g.scale
  else i.low * g.scale < point && point < i.high * g.scale

/-- The point of a grid that lies in the interval and is nearest to the value, if there is one. -/
def Interval.nearest? (i : Interval) (g : Grid) : Option Nat :=
  let value := i.value * g.scale
  let down := value / g.step
  let up := down + 1
  match i.contains g down, i.contains g up with
  | true, true => some (if up * g.step - value ≤ value - down * g.step then up else down)
  | true, false => some down
  | false, true => some up
  | false, false => none

/-- Searches the grids from `10 ^ e` downwards and returns the first point with its exponent. -/
def search (i : Interval) : Nat → Int → Nat × Int
  | 0, e => (0, e)
  | fuel + 1, e =>
    match i.nearest? (grid i.exponent e) with
    | some n => (n, e)
    | none => search i fuel (e - 1)

def digits (magnitude : Nat) : Nat × Int :=
  search (interval magnitude) 660 309

/-- Writes `n * 10 ^ e` with a point and no exponent. -/
def positional (n : Nat) (e : Int) : List Char :=
  let ds := Nat.toDigits 10 n
  if 0 ≤ e then ds ++ List.replicate e.toNat '0'
  else
    let places := (-e).toNat
    if places < ds.length then ds.take (ds.length - places) ++ '.' :: ds.drop (ds.length - places)
    else '0' :: '.' :: List.replicate (places - ds.length) '0' ++ ds

/-- The text of a number: the fewest digits that read back, a minus sign also on a zero, and the
usual words for what is not finite. -/
def print (x : Binary64) : List Char :=
  if x.isNaN then "NaN".toList
  else
    let body :=
      if x.isInfinite then "Infinity".toList
      else if x.magnitude = 0 then ['0']
      else let (n, e) := digits x.magnitude; positional n e
    if x.isNegative then '-' :: body else body

end MarkupEditor.Shortest
