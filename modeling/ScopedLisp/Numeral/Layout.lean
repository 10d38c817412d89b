import ScopedLisp.Numeral.Shortest

/-!
Laying out a double: integers in a range in full, other numbers by their shortest digits, written
positionally while the exponent of the first digit is moderate and with an exponent part otherwise.
-/

namespace ScopedLisp

/-- One way of writing numbers. -/
structure Layout where
  /-- Integers from `-wholeBound` up to but not including `wholeBound` are written in full. -/
  wholeBound : Nat
  /-- Positional from exponent -4 up to but not including this one. -/
  positionalBound : Int
  /-- Whether a positional integer gets `.0`. -/
  keepsPoint : Bool
  /-- Whether a positive exponent is signed. -/
  signsExponent : Bool
  /-- The least number of digits of an exponent. -/
  exponentWidth : Nat
  positiveInfinity : String
  negativeInfinity : String

namespace Layout

def signed (negative : Bool) (cs : List Char) : List Char := if negative then '-' :: cs else cs

def zeros (n : Nat) : List Char := List.replicate n '0'

/-- Digits around the point. Zeros fill the places up to the point. -/
def positional (l : Layout) (d : Digits) : List Char :=
  if d.exponent < 0 then '0' :: '.' :: zeros (-d.exponent - 1).toNat ++ d.digits
  else
    let wholeLength := d.exponent.toNat + 1
    let whole := d.digits.take wholeLength ++ zeros (wholeLength - d.digits.length)
    let fraction := d.digits.drop wholeLength
    if !fraction.isEmpty then whole ++ '.' :: fraction
    else if l.keepsPoint then whole ++ ['.', '0'] else whole

def exponentPart (l : Layout) (exponent : Int) : List Char :=
  let cs := Nat.toDigits 10 exponent.natAbs
  let sign := if exponent < 0 then ['-'] else if l.signsExponent then ['+'] else []
  'e' :: sign ++ zeros (l.exponentWidth - cs.length) ++ cs

/-- One digit before the point, if there is need of one, and an exponent. -/
def scientific (l : Layout) (d : Digits) : List Char :=
  let mantissa := match d.digits with
    | first :: more@(_ :: _) => first :: '.' :: more
    | cs => cs
  mantissa ++ l.exponentPart d.exponent

def shortest (l : Layout) (d : Digits) : List Char :=
  if -4 ≤ d.exponent ∧ d.exponent < l.positionalBound then l.positional d else l.scientific d

/-- The integer to be written in full, if there is one. -/
def whole? (l : Layout) (negative : Bool) (f : Fraction) : Option Int :=
  (f.whole?.map fun n => if negative then -(n : Int) else n).filter fun n =>
    -(l.wholeBound : Int) ≤ n ∧ n < l.wholeBound

def write (l : Layout) (x : Float) : List Char :=
  match BinaryForm.ofFloat x with
  | .notANumber => "NaN".toList
  | .infinite negative => (if negative then l.negativeInfinity else l.positiveInfinity).toList
  | .finite negative significand exponent =>
    match l.whole? negative (.ofBinary significand exponent) with
    | some n => signed (n < 0) (Nat.toDigits 10 n.natAbs)
    | none =>
      let digits := if significand = 0 then ⟨['0'], 0⟩
        else Digits.shortest x negative significand exponent
      signed negative (l.shortest digits)

/-- Numbers as values print them; zero has no sign. -/
def display : Layout := ⟨Nat.pow 2 63, 6, false, true, 2, "+Inf", "-Inf"⟩

/-- Numbers as inspection shows them; zero keeps its sign, and a positional integer its point. -/
def inspection : Layout := ⟨0, 16, true, false, 1, "inf", "-inf"⟩

end Layout

end ScopedLisp
