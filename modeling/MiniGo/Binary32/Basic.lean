/-!
# Binary floating point numbers of 32 bits

A number is its bit pattern: a sign bit, eight bits of exponent and 23 bits of fraction. The
magnitude of a finite number is a multiple of `2 ^ (-149)`, and `units` is the multiplier, so that
all comparisons of magnitudes are comparisons of natural numbers.
-/

namespace MiniGo

/-- A binary floating point number, as its bit pattern. -/
structure Binary32 where
  bits : UInt32
deriving DecidableEq, Repr

namespace Binary32

/-- The bit pattern without the sign, of the positive infinity. -/
def infinityBits : Nat := 255 * Nat.pow 2 23

/-- Whether the sign bit is set. -/
def isNegative (x : Binary32) : Bool := decide (Nat.pow 2 31 ≤ x.bits.toNat)

/-- The bit pattern without the sign. -/
def magnitude (x : Binary32) : Nat := x.bits.toNat % Nat.pow 2 31

/-- Whether a number is neither infinite nor undefined. -/
def isFinite (x : Binary32) : Bool := decide (x.magnitude < infinityBits)

/-- Whether a number is undefined. -/
def isNaN (x : Binary32) : Bool := decide (infinityBits < x.magnitude)

/-- The number with a given sign and a given bit pattern below the sign. -/
def ofMagnitude (negative : Bool) (m : Nat) : Binary32 :=
  ⟨UInt32.ofNat (m + if negative then Nat.pow 2 31 else 0)⟩

/-- Positive zero. -/
def zero : Binary32 := ⟨0⟩

/-- The number with the other sign. -/
def neg (x : Binary32) : Binary32 := ofMagnitude (!x.isNegative) x.magnitude

/-! ### Magnitudes as multiples of the least positive number -/

/-- The power of two between the mantissa and the units of a magnitude. -/
def shift (m : Nat) : Nat := m / Nat.pow 2 23 - 1

/-- The mantissa of a magnitude, with its leading bit. -/
def mantissa (m : Nat) : Nat :=
  if m < Nat.pow 2 23 then m else m % Nat.pow 2 23 + Nat.pow 2 23

/-- The value of a magnitude, in units of `2 ^ (-149)`. -/
def units (m : Nat) : Nat := mantissa m * Nat.pow 2 (shift m)

end Binary32

end MiniGo
