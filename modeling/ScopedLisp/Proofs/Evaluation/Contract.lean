import ScopedLisp.Proofs.Evaluation.Run
import ScopedLisp.Proofs.Procedure.Faults
import ScopedLisp.Proofs.Procedure.Operands
import ScopedLisp.Proofs.Store.Growth

/-!
What evaluation relies on and sees to. A contract says what holds of stores, of the values that come
up, and of the expressions that are evaluated in a scope. The evaluator's recursion is followed once
for all contracts: a contract owes that the parts of an expression under it are under it, that the
frame of a call puts the body of the closure under it, and that what holds of a store goes on to
hold when a closure is made, a name bound or a frame added.
-/

namespace ScopedLisp

open SpecialForm Store

/-- The error is that a chain of arguments ends in something else than nil. -/
def EvalError.IsImproper : EvalError → Prop
  | typeMismatch procedure expected _ =>
    procedure = "apply" ∧ expected = "proper argument list"
  | malformedForm form fault => form = .conditional ∧ fault = .improperArguments
  | _ => False

theorem Arithmetic.Fault.not_isImproper {op : Arithmetic} {e : EvalError} (h : op.Fault e) :
    ¬ e.IsImproper := by
  cases h with
  | noNumber kind => simp [EvalError.IsImproper]
  | noOperand => exact not_false
  | zeroDivisor => exact not_false

/-- The expression is a lambda or a definition, and these are the parts of the closure it makes. -/
inductive Value.Makes (l : LambdaParts) : Value → Prop
  | lambda {head args : Value} (hhead : ofHead? head = some .lambda)
      (hl : lambdaParts args = .ok l) : Makes l (.pair head args)
  | defun {head args : Value} {d : DefunParts} (hhead : ofHead? head = some .defun)
      (hd : defunParts args = .ok d) (hl : d.definition = l) : Makes l (.pair head args)

/-- The body of a lambda or a definition is the head of a pair in it. -/
theorem Value.Makes.body_partOf {e : Value} {l : LambdaParts} (h : e.Makes l) :
    ∃ tail, (Value.pair l.body tail).PartOf e := by
  have hargs : ∀ {args : Value}, lambdaParts args = .ok l →
      (Value.pair l.body .nil).PartOf args := by
    intro args hl
    obtain ⟨params, rfl, -⟩ := lambdaParts_eq_ok_iff.1 hl
    exact .tail .self params
  cases h with
  | lambda _ hl => exact ⟨.nil, .tail (hargs hl) _⟩
  | defun _ hd heq =>
    obtain ⟨rest, rfl, hl⟩ := defunParts_eq_ok_iff.1 hd
    rw [heq] at hl
    exact ⟨.nil, .tail (.tail (hargs hl) _) _⟩

/-- Conditions on stores, on values, on expressions and on errors that fit together: where they
hold, each step of an evaluation leaves them holding. -/
structure Contract where
  Holds : Store → Prop
  Values : Store → Value → Prop
  /-- The expression is to be evaluated in the scope. -/
  Code : Store → ScopeId → Value → Prop
  Allows : EvalError → Prop
  values_later {σ σ' : Store} {v : Value} (hv : Values σ v) (h : σ.LeadsTo σ') : Values σ' v
  code_later {σ σ' : Store} {ρ : ScopeId} {e : Value} (he : Code σ ρ e) (h : σ.LeadsTo σ') :
    Code σ' ρ e
  binds {σ : Store} (hσ : Holds σ) : σ.Binds (Values σ)
  newClosureId {σ : Store} (hσ : Holds σ) : Holds σ.newClosureId.2
  bind {σ : Store} (hσ : Holds σ) {v : Value} (hv : Values σ v) (ρ : ScopeId) (x : String) :
    Holds (σ.bind ρ x v)
  enter {σ : Store} (hσ : Holds σ) {id : ClosureId} {name : Option String} {params : List String}
    {body : Value} {scope : ScopeId} (hf : Values σ (.closure id name params body scope))
    {bs : List (String × Value)} (hbs : ∀ b ∈ bs, Values σ b.2) :
    Holds (σ.enter scope bs) ∧ Code (σ.enter scope bs) σ.scopes.size body
  number (σ : Store) (x : Float) : Values σ (.number x)
  symbol (σ : Store) (x : String) : Values σ (.symbol x)
  nil (σ : Store) : Values σ .nil
  /-- What is neither a symbol nor a pair evaluates to itself. -/
  constant {σ : Store} {ρ : ScopeId} {v : Value} (hv : Code σ ρ v) (hpair : v.kind ≠ .pair) :
    Values σ v
  quoted {σ : Store} {ρ : ScopeId} {head args v : Value} (he : Code σ ρ (.pair head args))
    (hhead : ofHead? head = some .quote) (hv : quotedPart args = .ok v) : Values σ v
  branch {σ : Store} {ρ : ScopeId} {head args v : Value} {c : ConditionalParts}
    (he : Code σ ρ (.pair head args)) (hhead : ofHead? head = some .conditional)
    (hc : conditionalParts args = .ok c) (hv : v ∈ c.expressions) : Code σ ρ v
  closure {σ : Store} {ρ : ScopeId} {e : Value} {l : LambdaParts} (he : Code σ ρ e)
    (hl : e.Makes l) (name : Option String) :
    Values σ.newClosureId.2 (.closure σ.closures name l.params l.body ρ)
  head {σ : Store} {ρ : ScopeId} {head args : Value} (he : Code σ ρ (.pair head args))
    (hhead : ofHead? head = none) : Code σ ρ head
  argument {σ : Store} {ρ : ScopeId} {head args v : Value} (he : Code σ ρ (.pair head args))
    (hhead : ofHead? head = none) (hv : v ∈ args.unchain.1) : Code σ ρ v
  allows {e : EvalError} (he : ¬ e.IsImproper) : Allows e
  proper {σ : Store} {ρ : ScopeId} {head args : Value} (he : Code σ ρ (.pair head args)) :
    args.unchain.2 = .nil ∨ ∀ e, Allows e

/-- A run that has kept to the contract: it started from the store `σ` and has ended with the result
`r` and the store `σ'`, in which values are as `P` says. -/
structure Contract.Kept {α : Type} (C : Contract) (P : Store → α → Prop) (σ : Store)
    (r : Except EvalError α) (σ' : Store) : Prop where
  holds : C.Holds σ'
  leadsTo : σ.LeadsTo σ'
  fails : OnlyFails C.Allows r
  value : ∀ a, r = .ok a → P σ' a

/-- Runs of the computation from stores after `σ₀` that are under the contract keep to it. -/
def Contract.Meets {α : Type} (C : Contract) (P : Store → α → Prop) (σ₀ : Store) (m : EvalM α) :
    Prop :=
  ∀ ⦃σ r σ'⦄, m σ = some (r, σ') → C.Holds σ → σ₀.LeadsTo σ → C.Kept P σ r σ'

namespace Contract

open EvalM

variable {C : Contract} {α β : Type} {P : Store → α → Prop} {Q : Store → β → Prop}
  {σ₀ σ₁ : Store} {ρ : ScopeId}

theorem Meets.later {m : EvalM α} (hm : C.Meets P σ₀ m) (h : σ₀.LeadsTo σ₁) : C.Meets P σ₁ m :=
  fun _ _ _ hrun hσ h' => hm hrun hσ (h.trans h')

theorem meets_ofExcept {outcome : Except EvalError α} (he : OnlyFails C.Allows outcome)
    (ha : ∀ a, outcome = .ok a → ∀ σ, σ₀.LeadsTo σ → P σ a) :
    C.Meets P σ₀ (ofExcept outcome) := by
  intro σ r σ' hrun hσ h
  rw [ofExcept_apply] at hrun
  cases hrun
  exact ⟨hσ, .refl σ, he, fun a heq => ha a heq σ h⟩

theorem meets_pure {a : α} (ha : ∀ σ, σ₀.LeadsTo σ → P σ a) : C.Meets P σ₀ (pure a) := by
  change C.Meets P σ₀ (ofExcept (.ok a))
  refine meets_ofExcept (onlyFails_ok a) fun b hb => ?_
  cases hb
  exact ha

theorem meets_throw {e : EvalError} (he : C.Allows e) : C.Meets P σ₀ (throw e) := by
  change C.Meets P σ₀ (ofExcept (.error e))
  exact meets_ofExcept (onlyFails_error he) nofun

theorem Meets.bind {m : EvalM α} {f : α → EvalM β} (hm : C.Meets P σ₀ m)
    (hf : ∀ σ a, σ₀.LeadsTo σ → P σ a → C.Meets Q σ (f a)) : C.Meets Q σ₀ (m >>= f) := by
  intro σ r σ' hrun hσ h
  rcases bind_eq_some_iff.1 hrun with ⟨e, hfirst, rfl⟩ | ⟨a, σ₁, hfirst, hrest⟩
  · have hkept := hm hfirst hσ h
    exact ⟨hkept.holds, hkept.leadsTo, onlyFails_error (hkept.fails e rfl), nofun⟩
  · have hkept := hm hfirst hσ h
    have hkept' := hf σ₁ a (h.trans hkept.leadsTo) (hkept.value a rfl) hrest hkept.holds (.refl σ₁)
    exact ⟨hkept'.holds, hkept.leadsTo.trans hkept'.leadsTo, hkept'.fails, hkept'.value⟩

theorem meets_parts_bind {form : SpecialForm} {outcome : Except ShapeFault α} {f : α → EvalM β}
    (he : ∀ fault, outcome = .error fault → C.Allows (.malformedForm form fault))
    (hf : ∀ a, outcome = .ok a → C.Meets Q σ₀ (f a)) : C.Meets Q σ₀ (parts form outcome >>= f) := by
  cases outcome with
  | error fault => exact meets_throw (he fault rfl)
  | ok a => exact hf a rfl

theorem meets_lookup (x : String) : C.Meets C.Values σ₀ (lookup ρ x) := by
  intro σ r σ' hrun hσ _
  rw [lookup_apply] at hrun
  cases hrun
  unfold lookupResult
  split
  · next v hv =>
    refine ⟨hσ, .refl σ, onlyFails_ok v, fun w hw => ?_⟩
    cases hw
    exact (C.binds hσ).get? hv
  · exact ⟨hσ, .refl σ, onlyFails_error (C.allows not_false), nofun⟩

/-- Arguments are under the contract in the store that evaluating the last of them leaves. -/
theorem meets_elements {evaluate : Value → EvalM Value} {args : Value}
    (h : ∀ v ∈ args.unchain.1, C.Meets C.Values σ₀ (evaluate v))
    (hproper : args.unchain.2 = .nil ∨ ∀ e, C.Allows e) :
    C.Meets (fun σ vs => ∀ v ∈ vs, C.Values σ v) σ₀ (elements evaluate args []) := by
  induction args generalizing σ₀ with
  | nil => exact meets_pure fun σ _ => nofun
  | pair head tail _ ih =>
    rw [elements_pair]
    refine (h head List.mem_cons_self).bind fun σ v hleads hv => ?_
    have htail := ih (fun w hw => (h w (List.mem_cons_of_mem _ hw)).later hleads) hproper
    refine htail.bind fun σ' vs hleads' hvs => meets_pure fun σ'' hleads'' => ?_
    exact List.forall_mem_cons.2 ⟨C.values_later hv (hleads'.trans hleads''), fun w hw =>
      C.values_later (hvs w hw) hleads''⟩
  | _ =>
    rcases hproper with hnil | hany
    · cases hnil
    · exact meets_throw (hany _)

theorem meets_newClosure {e : Value} {l : LambdaParts} (he : C.Code σ₀ ρ e) (hl : e.Makes l)
    (name : Option String) : C.Meets C.Values σ₀ (newClosure name l ρ) := by
  intro σ r σ' hrun hσ hleads
  rw [newClosure_apply] at hrun
  cases hrun
  refine ⟨C.newClosureId hσ, .newClosureId σ, onlyFails_ok _, fun v hv => ?_⟩
  cases hv
  exact C.closure (C.code_later he hleads) hl name

theorem meets_bind {v : Value} (hv : C.Values σ₀ v) (x : String) :
    C.Meets (fun _ _ => True) σ₀ (modify (·.bind ρ x v) : EvalM Unit) := by
  intro σ r σ' hrun hσ hleads
  cases hrun
  have hv' := C.values_later hv hleads
  exact ⟨C.bind hσ hv' ρ x, .bind σ ρ x v, onlyFails_ok _, fun _ _ => trivial⟩

theorem meets_evalForm {evaluate : Value → EvalM Value} {form : SpecialForm} {head args : Value}
    (h : ∀ {σ e}, C.Code σ ρ e → C.Meets C.Values σ (evaluate e))
    (he : C.Code σ₀ ρ (.pair head args)) (hhead : ofHead? head = some form) :
    C.Meets C.Values σ₀ (evalForm evaluate ρ args form) := by
  cases form with
  | quote =>
    rw [evalForm_quote]
    refine meets_parts_bind (fun fault _ => C.allows nofun) fun v hv => meets_pure fun σ hσ => ?_
    exact C.values_later (C.quoted he hhead hv) hσ
  | conditional =>
    rw [evalForm_conditional]
    refine meets_parts_bind (fun fault hfault => ?_) fun c hc => ?_
    · rcases C.proper he with hproper | hany
      · refine C.allows fun himproper => ?_
        exact conditionalParts_ne_improperArguments hproper (himproper.2 ▸ hfault)
      · exact hany _
    · have hpart := fun v (hv : v ∈ c.expressions) => C.branch he hhead hc hv
      refine (h (hpart _ c.condition_mem_expressions)).bind fun σ test hleads _ => ?_
      split
      · next v hv =>
        have hbranch := hpart v (ConditionalParts.chosen_mem_expressions hv)
        exact h (C.code_later hbranch hleads)
      · exact meets_pure fun σ _ => C.nil σ
  | lambda =>
    rw [evalForm_lambda]
    exact meets_parts_bind (fun fault _ => C.allows nofun) fun l hl =>
      meets_newClosure he (.lambda hhead hl) none
  | defun =>
    rw [evalForm_defun]
    refine meets_parts_bind (fun fault _ => C.allows nofun) fun d hd => ?_
    refine (meets_newClosure he (.defun hhead hd rfl) (some d.name)).bind fun σ f _ hf => ?_
    exact (meets_bind hf d.name).bind fun σ' _ _ _ => meets_pure fun σ'' _ => C.symbol σ'' d.name

variable {limit : Nat}

theorem eval_meets_succ
    (iheval : ∀ {σ ρ e}, C.Code σ ρ e → C.Meets C.Values σ (eval .empty limit ρ e))
    (ihapply : ∀ {σ f vs}, C.Values σ f → (∀ v ∈ vs, C.Values σ v) →
      C.Meets C.Values σ (apply .empty limit f vs)) {e : Value} (he : C.Code σ₀ ρ e) :
    C.Meets C.Values σ₀ (eval .empty (limit + 1) ρ e) := by
  match e with
  | .symbol x => exact meets_lookup x
  | .pair head args =>
    cases hhead : ofHead? head with
    | some form =>
      rw [eval_form .empty limit ρ hhead]
      exact meets_evalForm iheval he hhead
    | none =>
      rw [eval_application .empty limit ρ hhead]
      refine (iheval (C.head he hhead)).bind fun σ f hleads hf => ?_
      have hparts : ∀ v ∈ args.unchain.1, C.Meets C.Values σ (eval .empty limit ρ v) :=
        fun v hv => iheval (C.code_later (C.argument he hhead hv) hleads)
      have hargs := meets_elements hparts (C.proper he)
      exact hargs.bind fun σ' vs hleads' hvs => ihapply (C.values_later hf hleads') hvs
  | .number _ | .string _ | .boolean _ | .nil | .closure .. | .native .. =>
    exact meets_pure fun σ hσ => C.values_later (C.constant he nofun) hσ

theorem apply_meets_succ
    (iheval : ∀ {σ ρ e}, C.Code σ ρ e → C.Meets C.Values σ (eval .empty limit ρ e))
    {f : Value} {vs : List Value} (hf : C.Values σ₀ f) (hvs : ∀ v ∈ vs, C.Values σ₀ v) :
    C.Meets C.Values σ₀ (apply .empty (limit + 1) f vs) := by
  match f with
  | .closure id name params body scope =>
    intro σ r σ' hrun hσ hleads
    by_cases hn : vs.length = params.length
    · rw [apply_closure .empty limit id name body scope hn] at hrun
      have hbs : ∀ b ∈ params.zip vs, C.Values σ b.2 := fun b hb =>
        C.values_later (hvs b.2 (List.of_mem_zip hb).2) hleads
      have henter := C.enter hσ (C.values_later hf hleads) hbs
      have hkept := iheval henter.2 hrun henter.1 (.refl _)
      exact ⟨hkept.holds, (LeadsTo.enter σ scope _).trans hkept.leadsTo, hkept.fails, hkept.value⟩
    · rw [apply_closure_arity .empty limit id name body scope hn] at hrun
      cases hrun
      exact ⟨hσ, .refl σ, onlyFails_error (C.allows not_false), nofun⟩
  | .native label (.arithmetic op) =>
    rw [apply]
    refine meets_ofExcept (fun e he => C.allows (op.onlyFails_apply vs e he).not_isImproper) ?_
    intro v hv σ _
    obtain ⟨x, rfl⟩ := Arithmetic.apply_eq_number hv
    exact C.number σ x
  | .native label (.foreign name) => exact meets_throw (C.allows not_false)
  | .number _ | .string _ | .boolean _ | .symbol _ | .nil | .pair _ _ =>
    exact meets_throw (C.allows not_false)

/-- Evaluations and applications that start under a contract keep to it. -/
theorem eval_apply_meets (C : Contract) (limit : Nat) :
    (∀ {σ ρ e}, C.Code σ ρ e → C.Meets C.Values σ (eval .empty limit ρ e)) ∧
    ∀ {σ f vs}, C.Values σ f → (∀ v ∈ vs, C.Values σ v) →
      C.Meets C.Values σ (apply .empty limit f vs) := by
  -- On the limit for both at once, since each of them goes on with the other one limit below.
  induction limit with
  | zero => exact ⟨fun _ _ _ _ => nofun, fun _ _ _ _ _ => nofun⟩
  | succ limit ih => exact ⟨eval_meets_succ ih.1 ih.2, apply_meets_succ ih.1⟩

end Contract

end ScopedLisp
