import Relational.Decimal.Shortest

/-!
# Text of a double

A double is written with its shortest digits, always positionally: there is no exponent, a whole number
has no point, and a negative zero keeps its sign.
-/

namespace Relational.Decimal

/-- Writes `digits * 10 ^ place` positionally. -/
def positional (n : Scaled) : List Char :=
  let digits := Nat.toDigits 10 n.digits
  let places := (-n.place).toNat
  if places = 0 then
    digits ++ List.replicate n.place.toNat '0'
  else if places < digits.length then
    digits.take (digits.length - places) ++ '.' :: digits.drop (digits.length - places)
  else
    '0' :: '.' :: List.replicate (places - digits.length) '0' ++ digits

/-- Writes a magnitude. -/
def magnitudeChars : Magnitude → List Char
  | .nan => "NaN".toList
  | .infinite => "inf".toList
  | .zero => ['0']
  | .positive d => positional (shortest d)

/-- Writes a double. A NaN has no sign. -/
def floatChars (x : Float) : List Char :=
  match magnitude x.toBits with
  | .nan => magnitudeChars .nan
  | m => (if signBit x.toBits then ['-'] else []) ++ magnitudeChars m

/-- Writes an integer. -/
def intChars : Int → List Char
  | .ofNat n => Nat.toDigits 10 n
  | .negSucc n => '-' :: Nat.toDigits 10 (n + 1)

end Relational.Decimal
