import MiniGo.Binary32.Shortest
import MiniGo.Digits

/-!
# Writing numbers as decimal text

* `Binary32.literal`: the shortest decimal that reads back, without exponent, always with a point.
* `Binary32.fixedTwo`: the exact value rounded to two places, a tie to the even digit.
-/

namespace MiniGo

/-- The text of a natural number `n / 10 ^ places`: at least one digit before the point and exactly
`places` digits after it, and no point if there are none. -/
def pointedText (n places : Nat) : String :=
  if places = 0 then String.ofList (decimalDigits n)
  else
    let fraction := decimalDigits (n % Nat.pow 10 places)
    let zeros := List.replicate (places - fraction.length) '0'
    String.ofList (decimalDigits (n / Nat.pow 10 places) ++ '.' :: (zeros ++ fraction))

namespace Binary32

/-- A number with its sign, given how its finite magnitude is written. -/
def textWith (finite : Nat → String) (x : Binary32) : String :=
  if x.isNaN then "NaN"
  else
    let text := if x.isFinite then finite x.magnitude else "inf"
    if x.isNegative then "-" ++ text else text

/-- A decimal written out, with `.0` added to a whole number. -/
def Decimal.text (d : Decimal) : String :=
  if 0 ≤ d.exponent then pointedText (d.digits * Nat.pow 10 d.exponent.toNat) 0 ++ ".0"
  else pointedText d.digits (-d.exponent).toNat

/-- A number as a constant: the shortest decimal that reads back, without exponent and with a
point. -/
def literal (x : Binary32) : String :=
  x.textWith fun m => if m = 0 then "0.0" else (shortest m).text

/-- A number with two places after the point. -/
def fixedTwo (x : Binary32) : String :=
  x.textWith fun m => pointedText (roundDiv (units m * 100) (Nat.pow 2 149)) 2

end Binary32

end MiniGo
