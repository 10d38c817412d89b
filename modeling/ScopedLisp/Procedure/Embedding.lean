import ScopedLisp.Error
import ScopedLisp.Value
import ScopedLisp.Value.Equality

namespace ScopedLisp

/-- What a supplied procedure computes: it ends, or goes on with the outcome of an application, and
has no other access to scopes. It is assumed that it fails with errors of evaluation only, not with
those of a text. -/
inductive NativeStep
  | done (outcome : Except EvalError Value)
  | apply (callable : Value) (arguments : List Value)
      (resume : Except EvalError Value → NativeStep)

/-- What the foreign procedures do, by name. -/
abbrev Embedding := String → Option (List Value → NativeStep)

namespace Embedding

def empty : Embedding := fun _ => none

/-- A procedure of one argument that needs no application. -/
def unary (name : String) (f : Value → Except EvalError Value) : List Value → NativeStep
  | [v] => .done (f v)
  | vs => .done (.error (.arityMismatch name (.exactly 1) vs.length))

def binary (name : String) (f : Value → Value → NativeStep) : List Value → NativeStep
  | [v, w] => f v w
  | vs => .done (.error (.arityMismatch name (.exactly 2) vs.length))

def head : Value → Except EvalError Value
  | .pair head _ => .ok head
  | v => .error (.typeMismatch "car" "cons" v.kind)

def tail : Value → Except EvalError Value
  | .pair _ tail => .ok tail
  | v => .error (.typeMismatch "cdr" "cons" v.kind)

/-- The first operand is looked at before the second. -/
def less (v w : Value) : Except EvalError Value := do
  let x ← number v
  let y ← number w
  return .boolean (x < y)
where
  number (v : Value) : Except EvalError Float :=
    match v.number? with
    | some x => .ok x
    | none => .error (.typeMismatch "lt" "number" v.kind)

def applyToList (f vs : Value) : NativeStep :=
  match vs.items? with
  | some items => .apply f items .done
  | none => .done (.error (.typeMismatch "apply" "list" vs.kind))

/-- Procedures on lists, comparisons, and application to a list of arguments. -/
def listTools : Embedding
  | "list" => some fun vs => .done (.ok (.list vs))
  | "cons" => some (binary "cons" fun v w => .done (.ok (.pair v w)))
  | "car" => some (unary "car" head)
  | "cdr" => some (unary "cdr" tail)
  | "eq" => some (binary "eq" fun v w => .done (.ok (.boolean (v.equal w))))
  | "lt" => some (binary "lt" fun v w => .done (less v w))
  | "apply" => some (binary "apply" applyToList)
  | _ => none

end Embedding

end ScopedLisp
