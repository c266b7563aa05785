/-!
# Doubles as dyadic numbers

A number of the language is an IEEE double. Writing one in decimal starts from the
three fields of its bit pattern: this file reads them as a sign and a magnitude
`mantissa * 2 ^ exponent` in exact integer arithmetic, so that nothing below works
with rounded values.
-/

namespace Lox

/-- A double by its bit pattern. Many patterns stand for no number; they differ here, though
computing with them gives the same results. -/
structure Double where
  bits : UInt64
  deriving DecidableEq, Repr, Inhabited

namespace Double

def ofFloat (x : Float) : Double := ⟨x.toBits⟩

def toFloat (d : Double) : Float := Float.ofBits d.bits

end Double

/-- The magnitude `mantissa * 2 ^ exponent`. -/
structure Dyadic where
  mantissa : Nat
  exponent : Int
  deriving DecidableEq, Repr

namespace Dyadic

/-- The power of two that a whole magnitude is multiplied by. -/
def scale (x : Dyadic) : Nat := Nat.pow 2 x.exponent.toNat

/-- The power of two that a magnitude with a fraction is divided by. -/
def denominator (x : Dyadic) : Nat := Nat.pow 2 (-x.exponent).toNat

def floor (x : Dyadic) : Nat := x.mantissa * x.scale / x.denominator

def isWhole (x : Dyadic) : Bool := x.mantissa * x.scale % x.denominator == 0

end Dyadic

namespace Number

/-- What a double stands for. -/
inductive Shape where
  | nan
  | infinite (negative : Bool)
  | finite (negative : Bool) (magnitude : Dyadic)
  deriving DecidableEq, Repr

/-- The exponent of the least positive double, and of all subnormal ones. -/
def leastExponent : Int := -1074

/-- The first mantissa of a normal double: its leading bit is not stored. -/
def leadingBit : Nat := Nat.pow 2 52

/-- Read a bit pattern: one sign bit, eleven exponent bits, fifty-two fraction bits. -/
def shapeOfBits (bits : Nat) : Shape :=
  let negative := bits / Nat.pow 2 63 % 2 == 1
  let biased : Nat := bits / Nat.pow 2 52 % Nat.pow 2 11
  let fraction := bits % Nat.pow 2 52
  if biased = 2047 then
    if fraction = 0 then .infinite negative else .nan
  else if biased = 0 then
    .finite negative ⟨fraction, leastExponent⟩
  else
    .finite negative ⟨leadingBit + fraction, leastExponent + (biased - 1 : Nat)⟩

def shape (x : Float) : Shape := shapeOfBits x.toBits.toNat

end Number
end Lox
