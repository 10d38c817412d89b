import ScopedLisp.Error
import ScopedLisp.Value

/-!
The arithmetic procedures. A sum starts from negative zero, which added to any number gives that
number, and a product from one. All but division look at the kinds of all operands first; division
stops at the leftmost operand that is no number or divides by zero.
-/

namespace ScopedLisp.Arithmetic

def operand (op : Arithmetic) (v : Value) : Except EvalError Float :=
  match v.number? with
  | some x => .ok x
  | none => .error (.typeMismatch op.symbol "number" v.kind)

def operands (op : Arithmetic) (vs : List Value) : Except EvalError (List Float) :=
  vs.mapM op.operand

def noOperand (op : Arithmetic) : EvalError := .arityMismatch op.symbol (.atLeast 1) 0

def divisor (v : Value) : Except EvalError Float := do
  let x ← divide.operand v
  if x == 0 then .error .divisionByZero else .ok x

def sum (xs : List Float) : Float := xs.foldl (· + ·) (-0.0)

def product (xs : List Float) : Float := xs.foldl (· * ·) 1.0

/-- One operand is negated, more are subtracted from the first. -/
def difference : List Float → Except EvalError Float
  | [] => .error subtract.noOperand
  | [x] => .ok (-x)
  | x :: xs => .ok (xs.foldl (· - ·) x)

/-- One operand is inverted, the first of more is divided by the others. -/
def quotient : List Value → Except EvalError Float
  | [] => .error divide.noOperand
  | [v] => return 1.0 / (← divisor v)
  | v :: vs => do
    let x ← divide.operand v
    vs.foldlM (fun x v => return x / (← divisor v)) x

def apply (op : Arithmetic) (vs : List Value) : Except EvalError Value :=
  Value.number <$> match op with
    | add => sum <$> op.operands vs
    | subtract => op.operands vs >>= difference
    | multiply => product <$> op.operands vs
    | divide => quotient vs

end ScopedLisp.Arithmetic
