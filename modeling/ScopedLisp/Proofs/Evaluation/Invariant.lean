import ScopedLisp.Proofs.Evaluation.Run
import ScopedLisp.Proofs.Store.Growth

namespace ScopedLisp

namespace EvalM

def Preserves {α : Type} (I : Store → Prop) (m : EvalM α) : Prop :=
  ∀ ⦃σ r σ'⦄, m σ = some (r, σ') → I σ → I σ'

variable {α β : Type} {I : Store → Prop}

theorem preserves_pure (a : α) : Preserves I (pure a : EvalM α) := by
  intro σ r σ' h hσ
  cases h
  exact hσ

theorem preserves_throw (e : EvalError) : Preserves I (throw e : EvalM α) := by
  intro σ r σ' h hσ
  cases h
  exact hσ

theorem preserves_beyondLimit : Preserves I (beyondLimit : EvalM α) := by
  intro σ r σ' h
  cases h

theorem preserves_ofExcept (outcome : Except EvalError α) :
    Preserves I (ofExcept outcome : EvalM α) := by
  intro σ r σ' h hσ
  rw [ofExcept_apply] at h
  cases h
  exact hσ

theorem preserves_lookup (ρ : ScopeId) (x : String) : Preserves I (lookup ρ x) := by
  intro σ r σ' h hσ
  rw [lookup_apply] at h
  cases h
  exact hσ

theorem preserves_bind {m : EvalM α} {f : α → EvalM β} (hm : Preserves I m)
    (hf : ∀ a, Preserves I (f a)) : Preserves I (m >>= f) := by
  intro σ r σ' h hσ
  rcases bind_eq_some_iff.1 h with ⟨e, hrun, -⟩ | ⟨a, σ₁, hrun, hrest⟩
  · exact hm hrun hσ
  · exact hf a hrest (hm hrun hσ)

/-- What follows the parts of a form runs only if the form has the right shape. -/
theorem preserves_parts_bind {form : SpecialForm} {outcome : Except ShapeFault α}
    {f : α → EvalM β} (hf : ∀ a, outcome = .ok a → Preserves I (f a)) :
    Preserves I (parts form outcome >>= f) := by
  cases outcome with
  | error fault => exact preserves_throw _
  | ok a => exact hf a rfl

theorem preserves_lift {m : EvalM α} (hm : Preserves I m) :
    Preserves I (ExceptT.lift m.run : EvalM (Except EvalError α)) := by
  intro σ r σ' h hσ
  rw [lift_run_apply] at h
  obtain ⟨⟨outcome, σ₁⟩, hrun, ho⟩ := Option.map_eq_some_iff.1 h
  cases ho
  exact hm hrun hσ

/-- Evaluating arguments preserves what evaluating each of them does. -/
theorem preserves_elements {evaluate : Value → EvalM Value} {args : Value}
    (h : ∀ v ∈ args.unchain.1, Preserves I (evaluate v)) (done : List Value) :
    Preserves I (elements evaluate args done) := by
  induction args generalizing done with
  | nil => exact preserves_pure _
  | pair head tail _ ih =>
    refine preserves_bind (h head (by simp [Value.unchain])) fun v => ?_
    exact ih (fun w hw => h w (by simp [Value.unchain, hw])) (v :: done)
  | _ => exact preserves_throw _

/-- A native procedure reaches the store through applications only. -/
theorem preserves_native {apply : Value → List Value → EvalM Value}
    (h : ∀ f vs, Preserves I (apply f vs)) (step : NativeStep) :
    Preserves I (native apply step) := by
  induction step with
  | done outcome => exact preserves_ofExcept outcome
  | apply f vs resume ih => exact preserves_bind (preserves_lift (h f vs)) ih

/-- Of the special forms only a definition binds, and only a conditional evaluates. -/
theorem preserves_evalForm {evaluate : Value → EvalM Value} {ρ : ScopeId} {args : Value}
    {form : SpecialForm} (hid : ∀ σ, I σ → I σ.newClosureId.2)
    (heval : form = .conditional → ∀ c, SpecialForm.conditionalParts args = .ok c →
      ∀ v ∈ c.expressions, Preserves I (evaluate v))
    (hbind : form = .defun → ∀ d, SpecialForm.defunParts args = .ok d → ∀ σ id, I σ →
      I (σ.bind ρ d.name
        (.closure id (some d.name) d.definition.params d.definition.body ρ))) :
    Preserves I (evalForm evaluate ρ args form) := by
  have hclosure : ∀ name l, Preserves I (newClosure name l ρ) := by
    intro name l σ r σ' h hσ
    cases h
    exact hid σ hσ
  cases form with
  | quote => exact preserves_ofExcept _
  | lambda => exact preserves_bind (preserves_ofExcept _) fun l => hclosure none l
  | conditional =>
    rw [evalForm_conditional]
    refine preserves_parts_bind fun c hc => ?_
    refine preserves_bind (heval rfl c hc _ c.condition_mem_expressions) fun test => ?_
    split
    · next v hv => exact heval rfl c hc v (SpecialForm.ConditionalParts.chosen_mem_expressions hv)
    · exact preserves_pure _
  | defun =>
    rw [evalForm_defun]
    refine preserves_parts_bind fun d hd => ?_
    intro σ r σ' h hσ
    cases h
    exact hbind rfl d hd _ _ (hid σ hσ)

end EvalM

open EvalM

/-- What neither a new closure, nor a binding, nor the frame of a call can end, lasts through every
evaluation and every application. -/
theorem eval_apply_preserves {I : Store → Prop} (hid : ∀ σ, I σ → I σ.newClosureId.2)
    (hbind : ∀ σ ρ x v, I σ → I (σ.bind ρ x v)) (henter : ∀ σ scope bs, I σ → I (σ.enter scope bs))
    (ext : Embedding) (limit : Nat) :
    (∀ ρ e, Preserves I (eval ext limit ρ e)) ∧ ∀ f args, Preserves I (apply ext limit f args) := by
  induction limit with
  | zero => exact ⟨fun _ _ => preserves_beyondLimit, fun _ _ => preserves_beyondLimit⟩
  | succ limit ih =>
    obtain ⟨iheval, ihapply⟩ := ih
    constructor
    · intro ρ e
      match e with
      | .symbol x => exact preserves_lookup ρ x
      | .pair head args =>
        cases hhead : SpecialForm.ofHead? head with
        | some form =>
          rw [eval_form ext limit ρ hhead]
          exact preserves_evalForm hid (fun _ _ _ v _ => iheval ρ v)
            fun _ d _ σ id hσ => hbind σ ρ d.name _ hσ
        | none =>
          rw [eval_application ext limit ρ hhead]
          refine preserves_bind (iheval ρ head) fun f => ?_
          have hargs := preserves_elements (fun v (_ : v ∈ args.unchain.1) => iheval ρ v) []
          exact preserves_bind hargs fun vs => ihapply f vs
      | .number _ | .string _ | .boolean _ | .nil | .closure .. | .native .. =>
        exact preserves_pure _
    · intro f args
      match f with
      | .closure id name params body scope =>
        intro σ r σ' h hσ
        by_cases hn : args.length = params.length
        · rw [apply_closure ext limit id name body scope hn] at h
          exact iheval _ body h (henter σ scope _ hσ)
        · rw [apply_closure_arity ext limit id name body scope hn] at h
          cases h
          exact hσ
      | .native label (.arithmetic op) => exact preserves_ofExcept _
      | .native label (.foreign name) =>
        rw [apply]
        split
        · exact preserves_native ihapply _
        · exact preserves_throw _
      | .number _ | .string _ | .boolean _ | .symbol _ | .nil | .pair _ _ =>
        exact preserves_throw _

theorem eval_apply_leadsTo (ext : Embedding) (limit : Nat) (σ : Store) :
    (∀ ρ e, Preserves σ.LeadsTo (eval ext limit ρ e)) ∧
    ∀ f args, Preserves σ.LeadsTo (apply ext limit f args) :=
  eval_apply_preserves (fun _ h => h.trans (.newClosureId _)) (fun _ _ _ _ h => h.trans (.bind ..))
    (fun _ _ _ h => h.trans (.enter ..)) ext limit

end ScopedLisp
