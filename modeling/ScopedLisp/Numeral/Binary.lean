namespace ScopedLisp

/-- A double: no number, an infinity, or `significand * 2 ^ exponent`, negated if `negative`. -/
inductive BinaryForm
  | notANumber
  | infinite (negative : Bool)
  | finite (negative : Bool) (significand : Nat) (exponent : Int)
  deriving DecidableEq

/-- Sign, eleven bits of exponent and 52 of fraction, from the top. A zero exponent field stands for
the smallest exponent without the leading one bit. -/
def BinaryForm.ofFloat (x : Float) : BinaryForm :=
  let bits := x.toBits.toNat
  let negative := decide (Nat.pow 2 63 ≤ bits)
  let field : Nat := bits / Nat.pow 2 52 % Nat.pow 2 11
  let fraction : Nat := bits % Nat.pow 2 52
  if field = Nat.pow 2 11 - 1 then
    if fraction = 0 then .infinite negative else .notANumber
  else if field = 0 then .finite negative fraction (-1074)
  else .finite negative (Nat.pow 2 52 + fraction) ((field : Int) - 1075)

/-- A magnitude as an exact fraction. -/
structure Fraction where
  numerator : Nat
  denominator : Nat
  deriving DecidableEq

namespace Fraction

/-- The fraction `significand * 2 ^ exponent`. -/
def ofBinary (significand : Nat) (exponent : Int) : Fraction :=
  ⟨significand * Nat.pow 2 exponent.toNat, Nat.pow 2 (-exponent).toNat⟩

def whole? (f : Fraction) : Option Nat :=
  if f.numerator % f.denominator = 0 then some (f.numerator / f.denominator) else none

/-- The fraction divided by `10 ^ place`. -/
def scaled (f : Fraction) (place : Int) : Fraction :=
  ⟨f.numerator * Nat.pow 10 (-place).toNat, f.denominator * Nat.pow 10 place.toNat⟩

def floor (f : Fraction) : Nat := f.numerator / f.denominator

/-- Whether the fraction lies beyond the middle between its neighbouring integers or on it. -/
def roundsUp (f : Fraction) : Bool :=
  decide (f.denominator ≤ 2 * (f.numerator % f.denominator))

/-- The greatest `k` for which `10 ^ k` does not exceed a positive fraction: the difference of the
numbers of digits, or one less. -/
def decimalExponent (f : Fraction) : Int :=
  let k : Int := (Nat.toDigits 10 f.numerator).length - (Nat.toDigits 10 f.denominator).length
  if (f.scaled k).denominator ≤ (f.scaled k).numerator then k else k - 1

end Fraction

end ScopedLisp
