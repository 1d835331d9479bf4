/-!
# Decimal digits

Reading and writing natural numbers and integers in decimal digits.

* `digitsValue`: the value of a list of digits.
* `readInteger?`: an integer with an optional sign.
* `decimalDigits`: the digits of a natural number.
-/

namespace MiniGo

/-- The value of a decimal digit. -/
def digitValue (c : Char) : Nat := c.toNat - '0'.toNat

/-- The value of a list of decimal digits. -/
def digitsValue (ds : List Char) : Nat :=
  ds.foldl (fun n d => 10 * n + digitValue d) 0

@[simp] theorem digitsValue_nil : digitsValue [] = 0 := rfl

@[simp] theorem digitsValue_append_singleton (ds : List Char) (d : Char) :
    digitsValue (ds ++ [d]) = 10 * digitsValue ds + digitValue d := by
  simp [digitsValue]

/-- Whether a list is one or more decimal digits. -/
def isDigits (cs : List Char) : Bool := !cs.isEmpty && cs.all Char.isDigit

/-- Splits a sign off a text; the first part says whether it is a minus. -/
def splitSign : List Char → Bool × List Char
  | '-' :: cs => (true, cs)
  | '+' :: cs => (false, cs)
  | cs => (false, cs)

/-- The integer of a sign and digits. -/
def signedValue (negative : Bool) (ds : List Char) : Int :=
  if negative then -(digitsValue ds : Int) else digitsValue ds

/-- An integer written with an optional sign and digits, if it fits into 64 bits. -/
def readInteger? (text : String) : Option Int :=
  let (negative, ds) := splitSign text.toList
  if isDigits ds then
    let i := signedValue negative ds
    if -(Nat.pow 2 63 : Int) ≤ i ∧ i < Nat.pow 2 63 then some i else none
  else none

/-- A natural number written with an optional plus and digits, if it fits into 64 bits. -/
def readNatural? (text : String) : Option Nat :=
  let ds := match text.toList with
    | '+' :: ds => ds
    | ds => ds
  if isDigits ds && decide (digitsValue ds < Nat.pow 2 64) then some (digitsValue ds) else none

/-- The decimal digits of a natural number. -/
def decimalDigits (n : Nat) : List Char := Nat.toDigits 10 n

end MiniGo
