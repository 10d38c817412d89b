import ScopedLisp.Procedure.Arithmetic
import ScopedLisp.Procedure.Embedding
import ScopedLisp.SpecialForm.Shape
import ScopedLisp.Store
import ScopedLisp.Value.Text

/-!
Evaluation of values in a scope of a store, under lexical scoping: a call's frame stands inside the
scope of the closure, not inside the scope of the call. A computation keeps what it has done to the
store when it fails, and has no outcome at all if evaluations would nest more deeply than a given
limit.
-/

namespace ScopedLisp

/-- A computation on the store: without outcome, or with a value or an error and the store left. -/
abbrev EvalM := ExceptT EvalError (StateT Store Option)

namespace EvalM

def beyondLimit {α : Type} : EvalM α := fun _ => none

def lookup (ρ : ScopeId) (x : String) : EvalM Value := do
  match (← get).get? ρ x with
  | some v => return v
  | none => throw (.undefinedVariable x)

def newScope (parent : ScopeId) : EvalM ScopeId := modifyGet (·.newScope (some parent))

def newClosure (name : Option String) (parts : SpecialForm.LambdaParts) (scope : ScopeId) :
    EvalM Value := do
  let id ← modifyGet Store.newClosureId
  return .closure id name parts.params parts.body scope

/-- The parts of a form, or the error that its shape is wrong. -/
def parts {α : Type} (form : SpecialForm) (result : Except ShapeFault α) : EvalM α :=
  ofExcept (result.mapError (.malformedForm form))

/-- The values of a chain's elements, evaluated in order, after those already `done`. -/
def elements (evaluate : Value → EvalM Value) : Value → List Value → EvalM (List Value)
  | .nil, done => return done.reverse
  | .pair head tail, done => do
    let v ← evaluate head
    elements evaluate tail (v :: done)
  | v, _ => throw (.typeMismatch "apply" "proper argument list" v.kind)

/-- Runs a native computation, given how to apply. An application that fails is handed back to
it. -/
def native (apply : Value → List Value → EvalM Value) : NativeStep → EvalM Value
  | .done outcome => ofExcept outcome
  | .apply f args resume => do
    let outcome ← ExceptT.lift (apply f args).run
    native apply (resume outcome)

end EvalM

open EvalM

/-- A special form in the scope `ρ`. -/
def evalForm (evaluate : Value → EvalM Value) (ρ : ScopeId) (args : Value) :
    SpecialForm → EvalM Value
  | .quote => parts .quote (SpecialForm.quotedPart args)
  | .conditional => do
    let c ← parts .conditional (SpecialForm.conditionalParts args)
    if (← evaluate c.condition).isTruthy then evaluate c.consequent
    else
      match c.alternative with
      | some alternative => evaluate alternative
      | none => return .nil
  | .lambda => do
    let l ← parts .lambda (SpecialForm.lambdaParts args)
    newClosure none l ρ
  | .defun => do
    let d ← parts .defun (SpecialForm.defunParts args)
    let f ← newClosure (some d.name) d.definition ρ
    modify (·.bind ρ d.name f)
    return .symbol d.name

mutual

/-- Evaluates a value in the scope `ρ`. Evaluations nest at most `limit` deep. -/
def eval (ext : Embedding) : Nat → ScopeId → Value → EvalM Value
  | 0, _, _ => beyondLimit
  | _ + 1, ρ, .symbol x => lookup ρ x
  | limit + 1, ρ, .pair head args =>
    match SpecialForm.ofHead? head with
    | some form => evalForm (eval ext limit ρ) ρ args form
    | none => do
      let f ← eval ext limit ρ head
      let vs ← elements (eval ext limit ρ) args []
      apply ext limit f vs
  | _ + 1, _, v => return v
termination_by structural limit => limit

/-- Applies a value to arguments that are evaluated already. -/
def apply (ext : Embedding) : Nat → Value → List Value → EvalM Value
  | 0, _, _ => beyondLimit
  | _ + 1, .native _ (.arithmetic op), args => ofExcept (op.apply args)
  | limit + 1, .native label (.foreign name), args =>
    match ext name with
    | some f => EvalM.native (apply ext limit) (f args)
    | none => throw (.notCallable (Value.native label (.foreign name)).text)
  | limit + 1, .closure _ name params body scope, args =>
    if args.length = params.length then do
      let frame ← newScope scope
      modify (·.bindAll frame (params.zip args))
      eval ext limit frame body
    else
      throw <| .arityMismatch (name.getD SpecialForm.lambda.name) (.exactly params.length)
        args.length
  | _ + 1, v, _ => throw (.notCallable v.text)
termination_by structural limit => limit

end

end ScopedLisp
