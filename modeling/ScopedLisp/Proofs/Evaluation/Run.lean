import ScopedLisp.Evaluation
import ScopedLisp.Proofs.SpecialForm.Parts
import ScopedLisp.Proofs.Store.Call

namespace ScopedLisp

namespace EvalM

variable {α β : Type}

/-- Whatever the errors are, so that it holds in a session, too. -/
theorem bind_apply {ε : Type} (m : ExceptT ε (StateT Store Option) α)
    (f : α → ExceptT ε (StateT Store Option) β) (σ : Store) :
    (m >>= f) σ =
      match m σ with
      | none => none
      | some (.error e, σ') => some (.error e, σ')
      | some (.ok a, σ') => f a σ' := by
  change Option.bind (m σ) _ = _
  cases m σ with
  | none => rfl
  | some outcome =>
    obtain ⟨result, σ'⟩ := outcome
    cases result <;> rfl

theorem bind_eq_some_iff {m : EvalM α} {f : α → EvalM β} {σ σ' : Store}
    {r : Except EvalError β} :
    (m >>= f) σ = some (r, σ') ↔
      (∃ e, m σ = some (.error e, σ') ∧ r = .error e) ∨
        ∃ a σ₁, m σ = some (.ok a, σ₁) ∧ f a σ₁ = some (r, σ') := by
  rw [bind_apply]
  constructor
  · intro h
    split at h
    · cases h
    · next e σ₁ hm =>
      cases h
      exact .inl ⟨e, hm, rfl⟩
    · next a σ₁ hm => exact .inr ⟨a, σ₁, hm, h⟩
  · intro h
    rcases h with ⟨e, hm, rfl⟩ | ⟨a, σ₁, hm, hf⟩
    · rw [hm]
    · rw [hm]
      exact hf

theorem ofExcept_apply (r : Except EvalError α) (σ : Store) :
    (ofExcept r : EvalM α) σ = some (r, σ) := by
  cases r <;> rfl

/-- What a name means, or the error that it means nothing. -/
def lookupResult (σ : Store) (ρ : ScopeId) (x : String) : Except EvalError Value :=
  match σ.get? ρ x with
  | some v => .ok v
  | none => .error (.undefinedVariable x)

theorem lookup_apply (ρ : ScopeId) (x : String) (σ : Store) :
    lookup ρ x σ = some (lookupResult σ ρ x, σ) := by
  change (match σ.get? ρ x with
    | some v => (pure v : EvalM Value)
    | none => throw (EvalError.undefinedVariable x)) σ = _
  unfold lookupResult
  cases σ.get? ρ x <;> rfl

theorem newClosure_apply (name : Option String) (l : SpecialForm.LambdaParts) (scope : ScopeId)
    (σ : Store) :
    newClosure name l scope σ =
      some (.ok (.closure σ.closures name l.params l.body scope), σ.newClosureId.2) := rfl

/-- An outcome becomes the value of the computation, so that nothing fails. -/
theorem lift_run_apply (m : EvalM α) (σ : Store) :
    (ExceptT.lift m.run : EvalM (Except EvalError α)) σ = (m σ).map fun o => (.ok o.1, o.2) := by
  change Option.bind (m σ) _ = _
  cases m σ <;> rfl

theorem elements_eq_append (evaluate : Value → EvalM Value) (args : Value) (done : List Value) :
    elements evaluate args done = (done.reverse ++ ·) <$> elements evaluate args [] := by
  induction args generalizing done with
  | nil => simp [elements]
  | pair head tail _ ih =>
    rw [elements, elements, map_bind]
    refine congrArg (evaluate head >>= ·) (funext fun v => ?_)
    rw [ih (v :: done), ih [v], Functor.map_map]
    simp
  | _ => rfl

/-- The elements of a chain are evaluated in order. -/
theorem elements_pair (evaluate : Value → EvalM Value) (head tail : Value) :
    elements evaluate (.pair head tail) [] = (do
      let v ← evaluate head
      let vs ← elements evaluate tail []
      return v :: vs) := by
  rw [elements]
  refine congrArg (evaluate head >>= ·) (funext fun v => ?_)
  rw [elements_eq_append, map_eq_pure_bind]
  rfl

end EvalM

open EvalM

theorem evalForm_quote (evaluate : Value → EvalM Value) (ρ : ScopeId) (args : Value) :
    evalForm evaluate ρ args .quote = parts .quote (SpecialForm.quotedPart args) >>= pure :=
  (bind_pure _).symm

theorem evalForm_conditional (evaluate : Value → EvalM Value) (ρ : ScopeId) (args : Value) :
    evalForm evaluate ρ args .conditional = (do
      let c ← parts .conditional (SpecialForm.conditionalParts args)
      let test ← evaluate c.condition
      match c.chosen test with
      | some v => evaluate v
      | none => return .nil) := by
  refine congrArg (parts .conditional (SpecialForm.conditionalParts args) >>= ·) ?_
  funext c
  refine congrArg (evaluate c.condition >>= ·) ?_
  funext test
  unfold SpecialForm.ConditionalParts.chosen
  cases test.isTruthy with
  | true => rfl
  | false => cases c.alternative <;> rfl

theorem evalForm_lambda (evaluate : Value → EvalM Value) (ρ : ScopeId) (args : Value) :
    evalForm evaluate ρ args .lambda = (do
      let l ← parts .lambda (SpecialForm.lambdaParts args)
      newClosure none l ρ) := rfl

theorem evalForm_defun (evaluate : Value → EvalM Value) (ρ : ScopeId) (args : Value) :
    evalForm evaluate ρ args .defun = (do
      let d ← parts .defun (SpecialForm.defunParts args)
      let f ← newClosure (some d.name) d.definition ρ
      modify (·.bind ρ d.name f)
      return .symbol d.name) := rfl

theorem eval_form (ext : Embedding) (limit : Nat) (ρ : ScopeId) {head : Value}
    {form : SpecialForm} (hf : SpecialForm.ofHead? head = some form) (args : Value) :
    eval ext (limit + 1) ρ (.pair head args) = evalForm (eval ext limit ρ) ρ args form := by
  rw [eval, hf]

theorem eval_application (ext : Embedding) (limit : Nat) (ρ : ScopeId) {head : Value}
    (hf : SpecialForm.ofHead? head = none) (args : Value) :
    eval ext (limit + 1) ρ (.pair head args) = (do
      let f ← eval ext limit ρ head
      let vs ← elements (eval ext limit ρ) args []
      apply ext limit f vs) := by
  rw [eval, hf]

theorem apply_not_callable (ext : Embedding) (limit : Nat) {f : Value} (hc : f.kind ≠ .closure)
    (hn : f.kind ≠ .native) (args : List Value) :
    apply ext (limit + 1) f args = throw (.notCallable f.text) := by
  cases f with
  | closure => exact absurd rfl hc
  | native => exact absurd rfl hn
  | _ => rfl

/-- A call of a closure evaluates its body in a frame of its own. -/
theorem apply_closure (ext : Embedding) (limit : Nat) (id : ClosureId) (name : Option String)
    {params : List String} (body : Value) (scope : ScopeId) {args : List Value}
    (hn : args.length = params.length) (σ : Store) :
    apply ext (limit + 1) (.closure id name params body scope) args σ =
      eval ext limit σ.scopes.size body (σ.enter scope (params.zip args)) := by
  rw [apply, if_pos hn]
  rfl

theorem apply_closure_arity (ext : Embedding) (limit : Nat) (id : ClosureId)
    (name : Option String) {params : List String} (body : Value) (scope : ScopeId)
    {args : List Value} (hn : args.length ≠ params.length) (σ : Store) :
    apply ext (limit + 1) (.closure id name params body scope) args σ =
      some (.error (.arityMismatch (name.getD SpecialForm.lambda.name) (.exactly params.length)
        args.length), σ) := by
  rw [apply, if_neg hn]
  rfl

end ScopedLisp
