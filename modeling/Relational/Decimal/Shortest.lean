import Relational.Decimal.Binary64

/-!
# The shortest decimal of a double

Every real of a small interval rounds to a given double. The decimal chosen for it is the one on the
coarsest grid of powers of ten that has a point in this interval, hence one with the fewest digits.
-/

namespace Relational.Decimal

/-! ## Rounding intervals -/

/-- The positive rational `value / unit` with the ends `low / unit` and `high / unit` of the reals that
round to it. The flag says whether the ends themselves do. -/
structure Interval where
  low : Nat
  value : Nat
  high : Nat
  unit : Nat
  closed : Bool

namespace Interval

/-- The interval of a double: it ends halfway to the two neighbours, and the ends round to the double
when its mantissa is even. -/
def ofDyadic (d : Dyadic) : Interval :=
  let scale := Nat.pow 2 (d.exponent - 2).toNat
  { low := (4 * d.mantissa - if d.tightBelow then 1 else 2) * scale
    value := 4 * d.mantissa * scale
    high := (4 * d.mantissa + 2) * scale
    unit := Nat.pow 2 (2 - d.exponent).toNat
    closed := d.mantissa % 2 == 0 }

/-- Does the interval hold the number `point / unit`? -/
def holds (i : Interval) (point : Nat) : Bool :=
  if i.closed then decide (i.low ≤ point) && decide (point ≤ i.high)
  else decide (i.low < point) && decide (point < i.high)

/-- The same interval measured in multiples of `10 ^ place`. -/
def measuredIn (i : Interval) (place : Int) : Interval :=
  let scale := Nat.pow 10 (-place).toNat
  { low := i.low * scale
    value := i.value * scale
    high := i.high * scale
    unit := i.unit * Nat.pow 10 place.toNat
    closed := i.closed }

/-- The multiple of the unit in the interval that is nearest to its value, the upper one of two that
are equally near. Only the two around the value need a look. -/
def nearest? (i : Interval) : Option Nat :=
  let below := i.value / i.unit
  let rest := i.value % i.unit
  let lower := i.holds (below * i.unit)
  let upper := i.holds ((below + 1) * i.unit)
  if lower && (!upper || decide (2 * rest < i.unit)) then some below
  else if upper then some (below + 1)
  else none

end Interval

/-! ## The coarsest grid -/

/-- The decimal number `digits * 10 ^ place`. -/
structure Scaled where
  digits : Nat
  place : Int

/-- The point of the interval on the coarsest of the grids of `10 ^ place`, `10 ^ (place - 1)` and so
on that has one. After `tries` of them without one, the value itself is expected on the next grid. -/
def coarsest (i : Interval) : (tries : Nat) → (place : Int) → Scaled
  | 0, place => ⟨(i.measuredIn place).value / (i.measuredIn place).unit, place⟩
  | tries + 1, place =>
    match (i.measuredIn place).nearest? with
    | some digits => ⟨digits, place⟩
    | none => coarsest i tries (place - 1)

/-- How many digits the whole part of the interval's upper end has. That power of ten lies above the
interval, so no coarser grid has a point in it. -/
def coarseBound (i : Interval) : Nat :=
  (Nat.toDigits 10 (i.high / i.unit)).length

/-- The decimal with the fewest digits that reads back as the double, and of those the nearest to it. A
double is a multiple of `10 ^ exponent` when its exponent is negative and a whole number otherwise, so
no finer grid is needed. -/
def shortest (d : Dyadic) : Scaled :=
  let i := Interval.ofDyadic d
  coarsest i (coarseBound i + (-d.exponent).toNat) (coarseBound i)

end Relational.Decimal
