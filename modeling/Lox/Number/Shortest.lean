import Lox.Number.Binary

/-!
# The shortest decimal of a double

Every double is the nearest double to a whole interval of reals. Its shortest decimal
has the fewest digits that any decimal in this interval has, and of those with that many
digits it is the one nearest to the double. Whether two decimals can be equally near
depends on the double; which of them is taken then is the caller's choice.

For each count of digits only the two neighbours of the value on that decimal grid have
to be looked at: if some point of the grid lies in the interval, so does one of these.
-/

namespace Lox

/-- The number `0.d₁d₂…dₙ * 10 ^ point`. -/
structure Decimal where
  digits : List Char
  point : Int
  deriving DecidableEq, Repr

namespace Decimal

/-- The decimal `digits * 10 ^ exponent`, without the zeros that end `digits`. -/
def ofNat (digits : Nat) (exponent : Int) : Decimal :=
  let text := Nat.toDigits 10 digits
  ⟨(text.reverse.dropWhile (· == '0')).reverse, text.length + exponent⟩

end Decimal

/-- Which of two equally near decimals is taken. -/
inductive Tie where
  | toEven
  | up
  deriving DecidableEq, Repr

namespace Dyadic

/-- The least `k` with `x < 10 ^ k`, for a magnitude that is not zero and not below
`10 ^ (-400)`. -/
def decimalExponent (x : Dyadic) : Int :=
  if x.floor ≠ 0 then
    (Nat.toDigits 10 x.floor).length
  else
    let reached := fun j => x.denominator ≤ x.mantissa * Nat.pow 10 j
    1 - ((List.range 400).find? fun j => reached j).getD 400

/-- How far below the value its interval reaches, in quarters of a unit of the mantissa.
The double before a power of two is only half a unit away, unless exponents end there. -/
def gapBelow (x : Dyadic) : Nat :=
  if x.mantissa = Number.leadingBit ∧ x.exponent ≠ Number.leastExponent then 1 else 2

/-- The multiple of `10 ^ unit` that is nearest to the value and reads back as it, if the
interval of the value holds one. The interval has its end points if the mantissa is even. -/
def nearestOnGrid (tie : Tie) (x : Dyadic) (unit : Int) : Option Nat :=
  let quarters := x.exponent - 2
  let step := Nat.pow 10 unit.toNat * Nat.pow 2 (-quarters).toNat
  let factor := Nat.pow 10 (-unit).toNat * Nat.pow 2 quarters.toNat
  let value := 4 * x.mantissa * factor
  let low := (4 * x.mantissa - x.gapBelow) * factor
  let high := (4 * x.mantissa + 2) * factor
  let closed := x.mantissa % 2 == 0
  let below := value / step
  let excess := value % step
  let belowFits := low < below * step || closed && low == below * step
  let aboveFits := (below + 1) * step < high || closed && (below + 1) * step == high
  let preferAbove := step < 2 * excess ||
    step == 2 * excess && (tie == .up || below % 2 == 1)
  if belowFits && aboveFits then some (if preferAbove then below + 1 else below)
  else if belowFits then some below
  else if aboveFits then some (below + 1)
  else none

/-- The shortest decimal that reads back as `x`, the magnitude of a double that is not
zero. Seventeen digits are always enough. -/
def shortest (tie : Tie) (x : Dyadic) : Decimal :=
  let exponent := x.decimalExponent
  let attempt := fun count : Nat =>
    let unit := exponent - (count + 1 : Nat)
    (x.nearestOnGrid tie unit).map fun digits => Decimal.ofNat digits unit
  ((List.range 17).findSome? attempt).getD ⟨[], 0⟩

end Dyadic
end Lox
