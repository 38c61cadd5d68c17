namespace PermitTypes.Decimal

/-- A finite double without its sign: the number `mantissa · 2 ^ exponent`. -/
structure Binary where
  mantissa : Nat
  exponent : Int

namespace Binary

/-- The leading bit of a mantissa, which is not stored. -/
def leadingBit : Nat := 0x10000000000000

def leastExponent : Int := -1074

def ofBits (bits : UInt64) : Binary :=
  let fraction := (bits &&& 0xfffffffffffff).toNat
  let biased := ((bits >>> 52) &&& 0x7ff).toNat
  if biased = 0 then ⟨fraction, leastExponent⟩
  else ⟨leadingBit + fraction, leastExponent + (biased - 1 : Nat)⟩

/-- Below a power of two the next double is only half as far away. -/
def closeBelow (b : Binary) : Bool :=
  b.mantissa == leadingBit && b.exponent != leastExponent

end Binary

/-- The number `digits · 10 ^ exponent`. -/
structure Scaled where
  digits : Nat
  exponent : Int
  deriving DecidableEq

/-- A positive double in quarters of its unit, over the denominator `den`. -/
structure Quarters where
  low : Nat
  value : Nat
  high : Nat
  closed : Bool
  den : Nat

namespace Quarters

/-- What reads back as the double: all between the middles to its neighbours, and the middles
themselves when the mantissa is even. -/
def ofBinary (b : Binary) : Quarters :=
  let up := Nat.pow 2 (b.exponent - 2).toNat
  { low := (4 * b.mantissa - if b.closeBelow then 1 else 2) * up
    value := 4 * b.mantissa * up
    high := (4 * b.mantissa + 2) * up
    closed := b.mantissa % 2 == 0
    den := Nat.pow 2 (2 - b.exponent).toNat }

/-- Both sides of a comparison of `s` with one of the bounds. -/
def point (q : Quarters) (s : Scaled) : Nat := s.digits * Nat.pow 10 s.exponent.toNat * q.den

def bound (n : Nat) (s : Scaled) : Nat := n * Nat.pow 10 (-s.exponent).toNat

def contains (q : Quarters) (s : Scaled) : Bool :=
  if q.closed then bound q.low s ≤ q.point s && q.point s ≤ bound q.high s
  else bound q.low s < q.point s && q.point s < bound q.high s

def floor (q : Quarters) (exponent : Int) : Nat :=
  q.value * Nat.pow 10 (-exponent).toNat / (q.den * Nat.pow 10 exponent.toNat)

/-- Zeros between the point and the first digit of a fraction. -/
def zerosAfterPoint (den : Nat) : Nat → Nat → Nat
  | 0, _ => 0
  | fuel + 1, num => if den ≤ 10 * num then 0 else zerosAfterPoint den fuel (10 * num) + 1

/-- Where the point stands before the first digit: the value lies in `[10 ^ (k - 1), 10 ^ k)`. -/
def pointPosition (q : Quarters) : Int :=
  if q.den ≤ q.value then (Nat.toDigits 10 (q.value / q.den)).length
  else -(zerosAfterPoint q.den q.den.log2 q.value : Nat)

/-- The nearer of the two neighbours with a given exponent that reads back, if one does. -/
def onGrid (q : Quarters) (exponent : Int) : Option Scaled :=
  let below : Scaled := ⟨q.floor exponent, exponent⟩
  let above : Scaled := ⟨below.digits + 1, exponent⟩
  let toBelow := bound q.value below - q.point below
  let toAbove := q.point above - bound q.value above
  match q.contains below, q.contains above with
  | false, false => none
  | true, false => some below
  | false, true => some above
  | true, true =>
    if toBelow < toAbove || (toBelow == toAbove && below.digits % 2 == 0) then some below
    else some above

/-- The fewest digits that read back; seventeen always do. -/
def shortest (q : Quarters) : Scaled :=
  let position := q.pointPosition
  let grids := (List.range' 1 17).map fun (digits : Nat) => position - digits
  (grids.findSome? q.onGrid).getD ⟨q.floor (position - 17), position - 17⟩

end Quarters

end PermitTypes.Decimal
