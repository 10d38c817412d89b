namespace ScopedLisp

/-- The number `significand * 10 ^ exponent`, negated if `negative`. -/
structure Numeral where
  negative : Bool
  significand : Nat
  exponent : Int
  deriving DecidableEq

namespace Numeral

def digitValue (c : Char) : Nat := c.toNat - '0'.toNat

/-- The number that a row of digits denotes. -/
def ofDigits (cs : List Char) : Nat := cs.foldl (fun n c => 10 * n + digitValue c) 0

def natural? (cs : List Char) : Option Nat :=
  if !cs.isEmpty && cs.all Char.isDigit then some (ofDigits cs) else none

def exponentPart? : List Char → Option Int
  | [] => some 0
  | 'e' :: '-' :: cs => (natural? cs).map fun n => -(n : Int)
  | 'e' :: '+' :: cs => (natural? cs).map Int.ofNat
  | 'e' :: cs => (natural? cs).map Int.ofNat
  | _ => none

/-- The digits after a point, and what follows them. -/
def fractionPart : List Char → List Char × List Char
  | '.' :: cs => (cs.takeWhile Char.isDigit, cs.dropWhile Char.isDigit)
  | cs => ([], cs)

def unsigned? (negative : Bool) (cs : List Char) : Option Numeral :=
  let whole := cs.takeWhile Char.isDigit
  let fraction := fractionPart (cs.dropWhile Char.isDigit)
  if whole.isEmpty then none
  else (exponentPart? fraction.2).map fun e =>
    ⟨negative, ofDigits (whole ++ fraction.1), e - fraction.1.length⟩

/-- An optional minus sign, digits, an optional point with more digits, and an optional exponent
part. -/
def ofChars? : List Char → Option Numeral
  | '-' :: cs => unsigned? true cs
  | cs => unsigned? false cs

/-- Rounded to the nearest double, a tie to the even one; too large a magnitude is infinite. -/
def value (n : Numeral) : Float :=
  let magnitude := Float.ofScientific n.significand (n.exponent < 0) n.exponent.natAbs
  if n.negative then -magnitude else magnitude

end Numeral

end ScopedLisp
