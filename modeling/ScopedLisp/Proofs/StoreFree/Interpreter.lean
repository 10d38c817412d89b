import ScopedLisp.Procedure.Arithmetic
import ScopedLisp.Proofs.SpecialForm.Parts
import ScopedLisp.Value.Text

namespace ScopedLisp.StoreFree

/-- Data without closures, or a closure. -/
inductive Val
  | datum (v : Value)
  | closure (name : Option String) (params : List String) (body : Value)
      (env : List (String × Val))

abbrev Env := List (String × Val)

/-- A computation without outcome, or with a value or an error. -/
abbrev M := ExceptT EvalError Option

/-- What arithmetic sees of a value. It does not look into closures. -/
def Val.shown : Val → Value
  | datum v => v
  | closure name params body _ => .closure 0 name params body 0

def M.none {α : Type} : M α := ExceptT.mk Option.none

def lookup (env : Env) (x : String) : M Val :=
  match env.lookup x with
  | some p => return p
  | none => throw (.undefinedVariable x)

def parts {α : Type} (form : SpecialForm) (result : Except ShapeFault α) : M α :=
  ofExcept (result.mapError (.malformedForm form))

/-- The values of a chain's elements, evaluated in order. -/
def elements (evaluate : Value → M Val) : Value → M (List Val)
  | .nil => return []
  | .pair head tail => do
    let p ← evaluate head
    let ps ← elements evaluate tail
    return p :: ps
  | v => throw (.typeMismatch "apply" "proper argument list" v.kind)

/-- A special form in the environment `env`. -/
def evalForm (evaluate : Value → M Val) (env : Env) (args : Value) : SpecialForm → M Val
  | .quote => do
    let v ← parts .quote (SpecialForm.quotedPart args)
    return .datum v
  | .conditional => do
    let c ← parts .conditional (SpecialForm.conditionalParts args)
    let test ← evaluate c.condition
    match c.chosen test.shown with
    | some e => evaluate e
    | none => return .datum .nil
  | .lambda => do
    let l ← parts .lambda (SpecialForm.lambdaParts args)
    return .closure none l.params l.body env
  | .defun => M.none

mutual

/-- Evaluates a value in the environment `env`. Evaluations nest at most `limit` deep. -/
def eval : Nat → Env → Value → M Val
  | 0, _, _ => M.none
  | _ + 1, env, .symbol x => lookup env x
  | limit + 1, env, .pair head args =>
    match SpecialForm.ofHead? head with
    | some form => evalForm (eval limit env) env args form
    | none => do
      let f ← eval limit env head
      let ps ← elements (eval limit env) args
      apply limit f ps
  | _ + 1, _, v => return .datum v
termination_by structural limit => limit

/-- Applies a value. The last of several arguments for one name comes first in the environment of
the body. -/
def apply : Nat → Val → List Val → M Val
  | 0, _, _ => M.none
  | _ + 1, .datum (.native _ (.arithmetic op)), ps => do
    let v ← ofExcept (op.apply (ps.map Val.shown))
    return .datum v
  | _ + 1, .datum v, _ => throw (.notCallable v.text)
  | limit + 1, .closure name params body env, ps =>
    if ps.length = params.length then eval limit ((params.zip ps).reverse ++ env) body
    else
      throw <| .arityMismatch (name.getD SpecialForm.lambda.name) (.exactly params.length)
        ps.length
termination_by structural limit => limit

end

/-- The arithmetic procedures under their symbols. -/
def global : Env :=
  Arithmetic.all.map fun op => (op.symbol, .datum (.native op.symbol (.arithmetic op)))

end ScopedLisp.StoreFree
