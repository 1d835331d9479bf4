import MiniGo.Binary32.Basic

/-!
# Rounding to the nearest number

* `roundDiv`: a quotient rounded to the nearest natural number, a tie to the even one.
* `Binary32.roundRatio`: the magnitude nearest to a ratio, a tie to the even mantissa.
* `Binary32.roundDecimal`: the magnitude nearest to a decimal `m * 10 ^ e`.
* `Binary32.ofInt`: the number nearest to an integer.
-/

namespace MiniGo

/-- The natural number nearest to `num / den`; of two equally near ones the even one. -/
def roundDiv (num den : Nat) : Nat :=
  let q := num / den
  let r := num % den
  if 2 * r < den then q
  else if den < 2 * r then q + 1
  else if q % 2 = 0 then q else q + 1

/-- The number of decimal digits of `m`, where zero has none. -/
def digitCount (m : Nat) : Nat :=
  if m = 0 then 0 else digitCount (m / 10) + 1
termination_by m

namespace Binary32

/-- The magnitude nearest to `num / den`. With `s` chosen such that the rounded mantissa has 24 bits
(or less, for `s = 0`), the magnitude is `s * 2 ^ 23` above the mantissa, also where rounding
carries the mantissa over to the next power of two. -/
def roundRatio (num den : Nat) : Nat :=
  let scaled := num * Nat.pow 2 149
  let s := Nat.log2 (scaled / den) - 23
  min infinityBits (s * Nat.pow 2 23 + roundDiv scaled (den * Nat.pow 2 s))

/-- The magnitude nearest to `m * 10 ^ e`. A decimal of `10 ^ 39` or more is infinite and one below
`10 ^ (-46)` is zero, so that powers of ten stay small. -/
def roundDecimal (m : Nat) (e : Int) : Nat :=
  let top := e + digitCount m
  if m = 0 then 0
  else if 40 ≤ top then infinityBits
  else if top ≤ -46 then 0
  else if 0 ≤ e then roundRatio (m * Nat.pow 10 e.toNat) 1
  else roundRatio m (Nat.pow 10 (-e).toNat)

/-- The number nearest to an integer. -/
def ofInt (i : Int) : Binary32 :=
  ofMagnitude (decide (i < 0)) (roundRatio i.natAbs 1)

end Binary32

end MiniGo
