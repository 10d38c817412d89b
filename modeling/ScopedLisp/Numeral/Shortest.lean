import ScopedLisp.Numeral
import ScopedLisp.Numeral.Binary

/-!
The fewest decimal digits that read back to a double, and of those the nearest to it. On each grid
of one to seventeen digits only the two neighbours of the double are tried, since any point of the
grid that reads back has one of them between itself and the double. A double in the middle between
its neighbours takes the upper one.
-/

namespace ScopedLisp

/-- Digits without zeros at the end, the first of them standing for tens to the `exponent`. -/
structure Digits where
  digits : List Char
  exponent : Int
  deriving DecidableEq

namespace Digits

def trim (cs : List Char) : List Char := (cs.reverse.dropWhile (· == '0')).reverse

/-- The digits of `significand * 10 ^ place`. -/
def ofNat (significand : Nat) (place : Int) : Digits :=
  let cs := Nat.toDigits 10 significand
  ⟨trim cs, place + cs.length - 1⟩

/-- The neighbour of `f` among the multiples of `10 ^ place` that reads back to `x`. -/
def neighbour? (x : Float) (negative : Bool) (f : Fraction) (place : Int) : Option Digits :=
  let scaled := f.scaled place
  let below := scaled.floor
  let readsBack := fun n => (Numeral.mk negative n place).value == x
  if scaled.roundsUp then
    if readsBack (below + 1) then some (ofNat (below + 1) place)
    else if readsBack below then some (ofNat below place) else none
  else
    if readsBack below then some (ofNat below place)
    else if readsBack (below + 1) then some (ofNat (below + 1) place) else none

/-- All digits of `significand * 2 ^ exponent`: a half is five tenths. -/
def exact (significand : Nat) (exponent : Int) : Digits :=
  ofNat (significand * Nat.pow 2 exponent.toNat * Nat.pow 5 (-exponent).toNat) (min exponent 0)

/-- The shortest digits of the double `x` with the positive magnitude `significand * 2 ^
exponent`. -/
def shortest (x : Float) (negative : Bool) (significand : Nat) (exponent : Int) : Digits :=
  let f := Fraction.ofBinary significand exponent
  let lead := f.decimalExponent
  ((List.range 17).findSome? fun more : Nat => neighbour? x negative f (lead - more)).getD
    (exact significand exponent)

end Digits

end ScopedLisp
