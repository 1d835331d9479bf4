import MiniGo.Binary32.Rounding
import MiniGo.Digits

/-!
# Reading numbers from decimal text

A decimal text has an optional sign, digits with an optional point, and an optional exponent. The
number read is the one nearest to the exact value of the text.

* `Binary32.read?`: a signed decimal, an infinity or an undefined value.
* `Binary32.readFinite?`: a signed decimal that is not too large.
-/

namespace MiniGo

namespace Binary32

/-- The exponent part of a decimal: nothing, or a mark and a signed integer. -/
def readExponent? : List Char → Option Int
  | [] => some 0
  | c :: cs =>
    if c = 'e' ∨ c = 'E' then
      let (negative, ds) := splitSign cs
      if isDigits ds then some (signedValue negative ds) else none
    else none

/-- The magnitude of an unsigned decimal. -/
def readMagnitude? (cs : List Char) : Option Nat :=
  let whole := cs.takeWhile Char.isDigit
  let (fraction, rest) :=
    match cs.dropWhile Char.isDigit with
    | '.' :: rest => (rest.takeWhile Char.isDigit, rest.dropWhile Char.isDigit)
    | rest => ([], rest)
  if (whole ++ fraction).isEmpty then none
  else (readExponent? rest).map fun e =>
    roundDecimal (digitsValue (whole ++ fraction)) (e - fraction.length)

/-- The names of the values that have no digits, in small letters, with their magnitudes. -/
def named? (cs : List Char) : Option Nat :=
  match String.ofList (cs.map Char.toLower) with
  | "inf" | "infinity" => some infinityBits
  | "nan" => some (infinityBits + Nat.pow 2 22)
  | _ => none

/-- The number nearest to a decimal text, or nothing if the text is no decimal. -/
def read? (text : String) : Option Binary32 :=
  let (negative, cs) := splitSign text.toList
  (named? cs <|> readMagnitude? cs).map (ofMagnitude negative)

/-- The number nearest to a decimal text, if there is one and it is finite. -/
def readFinite? (text : String) : Option Binary32 :=
  (read? text).filter isFinite

end Binary32

end MiniGo
