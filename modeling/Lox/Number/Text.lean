import Lox.Number.Shortest

/-!
# The written form of numbers

Positional notation for a decimal, and the two texts of a double that the rest of the
library writes: the shortest text that reads back, and the exact value of a whole number.
-/

namespace Lox

namespace Decimal

/-- Write a decimal without an exponent: zeros fill the gap between the digits and the
point on either side, and a whole number has no point. -/
def positional (d : Decimal) : String :=
  let point := d.point.toNat
  if d.point ≤ 0 then
    "0." ++ String.ofList (List.replicate (-d.point).toNat '0' ++ d.digits)
  else if d.digits.length ≤ point then
    String.ofList (d.digits ++ List.replicate (point - d.digits.length) '0')
  else
    String.ofList (d.digits.take point) ++ "." ++ String.ofList (d.digits.drop point)

end Decimal

namespace Number

/-- The sign of a written number; a positive one has none. -/
def signText (negative : Bool) : String := if negative then "-" else ""

/-- The shortest text that reads back as the number, without an exponent. Of two equally
near decimals the larger magnitude is written. -/
def shortestText (x : Float) : String :=
  match shape x with
  | .nan => "NaN"
  | .infinite negative => signText negative ++ "inf"
  | .finite negative magnitude =>
    signText negative ++
      if magnitude.mantissa = 0 then "0" else (magnitude.shortest .up).positional

/-- Every digit of a finite whole number, with its sign, also that of a negative zero. -/
def exactText? (x : Float) : Option String :=
  match shape x with
  | .finite negative magnitude =>
    if magnitude.isWhole then some (signText negative ++ toString magnitude.floor) else none
  | _ => none

/-- The text that printing writes: whole numbers exactly, all others as short as possible. -/
def printedText (x : Float) : String := (exactText? x).getD (shortestText x)

end Number
end Lox
