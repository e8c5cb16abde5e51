/-!
# The value of a double

A double is a sign with zero, a positive dyadic number, infinity or nothing at all. This module reads
which one from the bits.
-/

namespace Relational.Decimal

/-- The positive number `mantissa * 2 ^ exponent`. The flag `tightBelow` says that the doubles just
below it lie twice as close as those above, which is so at a power of two. -/
structure Dyadic where
  mantissa : Nat
  exponent : Int
  tightBelow : Bool

/-- What a double stands for, apart from its sign. -/
inductive Magnitude where
  | nan
  | infinite
  | zero
  | positive (d : Dyadic)

/-- Is the sign bit set? -/
def signBit (bits : UInt64) : Bool :=
  bits.toNat / Nat.pow 2 63 == 1

/-- Reads the magnitude from the eleven exponent bits and the fifty-two fraction bits. -/
def magnitude (bits : UInt64) : Magnitude :=
  let biased : Nat := bits.toNat / Nat.pow 2 52 % Nat.pow 2 11
  let fraction : Nat := bits.toNat % Nat.pow 2 52
  if biased = 2047 then
    if fraction = 0 then .infinite else .nan
  else if biased = 0 then
    if fraction = 0 then .zero else .positive ⟨fraction, -1074, false⟩
  else
    .positive ⟨Nat.pow 2 52 + fraction, (biased : Int) - 1075, fraction == 0 && decide (1 < biased)⟩

end Relational.Decimal
