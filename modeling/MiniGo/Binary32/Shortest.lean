import MiniGo.Binary32.Rounding

/-!
# The shortest decimal of a number

The reals that round to a finite positive number form an interval, whose ends belong to it exactly
if the mantissa is even. The shortest decimal is a point of that interval on the coarsest grid of
multiples of a power of ten that has one; of two such points it is the nearer one, and the upper one
at a tie.

All distances are natural numbers in units of `2 ^ (-150)`, half the least positive number.
-/

namespace MiniGo.Binary32

/-- The reals that round to a magnitude, in units of `2 ^ (-150)`. -/
structure Interval where
  low : Nat
  mid : Nat
  high : Nat
  closed : Bool
deriving DecidableEq, Repr

/-- The interval of a finite positive magnitude. Below a power of two the numbers lie twice as
dense. -/
def interval (m : Nat) : Interval :=
  let gap := Nat.pow 2 (shift m)
  let below := if mantissa m = Nat.pow 2 23 ∧ 0 < shift m then gap / 2 else gap
  { low := 2 * units m - below
    mid := 2 * units m
    high := 2 * units m + gap
    closed := mantissa m % 2 == 0 }

/-- Whether `num / den` (in the units of the interval) lies in an interval. -/
def Interval.contains (i : Interval) (num den : Nat) : Bool :=
  if i.closed then decide (i.low * den ≤ num ∧ num ≤ i.high * den)
  else decide (i.low * den < num ∧ num < i.high * den)

/-- The decimal `digits * 10 ^ exponent`. -/
structure Decimal where
  digits : Nat
  exponent : Int
deriving DecidableEq, Repr

/-- The best multiple of `10 ^ e` in an interval: the nearer one of the two neighbours of its
middle, the upper one at a tie. -/
def Interval.onGrid? (i : Interval) (e : Int) : Option Decimal :=
  -- a multiple `d` of the step is `d * num / den` units
  let num := Nat.pow 2 150 * Nat.pow 10 e.toNat
  let den := Nat.pow 10 (-e).toNat
  let lower := i.mid * den / num
  let upper := lower + 1
  let lowerIn := i.contains (lower * num) den
  let upperIn := i.contains (upper * num) den
  let lowerNearer := decide (i.mid * den - lower * num < upper * num - i.mid * den)
  if lowerIn && (lowerNearer || !upperIn) then some ⟨lower, e⟩
  else if upperIn then some ⟨upper, e⟩
  else none

/-- The first grid that has a point of an interval, from `10 ^ e` down, over `n` finer grids. -/
def Interval.search (i : Interval) (e : Int) : Nat → Decimal
  | 0 => ⟨i.mid * Nat.pow 5 150, -150⟩
  | n + 1 => (i.onGrid? e).getD (i.search (e - 1) n)

/-- The shortest decimal of a finite positive magnitude. The grids start above the greatest
magnitude and go down to `10 ^ (-149)`, on which every magnitude itself lies. -/
def shortest (m : Nat) : Decimal :=
  (interval m).search 39 189

end MiniGo.Binary32
