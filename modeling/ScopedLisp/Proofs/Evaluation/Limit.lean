import ScopedLisp.Proofs.Evaluation.Run

namespace ScopedLisp

namespace EvalM

/-- The second computation has the outcomes of the first and perhaps more. -/
def Refines {α : Type} (m m' : EvalM α) : Prop :=
  ∀ ⦃σ outcome⦄, m σ = some outcome → m' σ = some outcome

variable {α β : Type}

theorem Refines.refl (m : EvalM α) : Refines m m := fun _ _ h => h

theorem Refines.trans {m₁ m₂ m₃ : EvalM α} (h : Refines m₁ m₂) (h₁ : Refines m₂ m₃) :
    Refines m₁ m₃ := fun _ _ hm => h₁ (h hm)

theorem Refines.bind {m m' : EvalM α} {f f' : α → EvalM β} (h : Refines m m')
    (hf : ∀ a, Refines (f a) (f' a)) : Refines (m >>= f) (m' >>= f') := by
  intro σ outcome hrun
  obtain ⟨r, σ'⟩ := outcome
  rw [bind_eq_some_iff] at hrun ⊢
  rcases hrun with ⟨e, hm, hr⟩ | ⟨a, σ₁, hm, hrest⟩
  · exact .inl ⟨e, h hm, hr⟩
  · exact .inr ⟨a, σ₁, h hm, hf a hrest⟩

variable {evaluate evaluate' : Value → EvalM Value}

theorem refines_elements (h : ∀ e, Refines (evaluate e) (evaluate' e)) (args : Value)
    (done : List Value) : Refines (elements evaluate args done) (elements evaluate' args done) := by
  induction args generalizing done with
  | pair head tail _ ih => exact (h head).bind fun v => ih (v :: done)
  | _ => exact .refl _

theorem refines_native {apply apply' : Value → List Value → EvalM Value}
    (h : ∀ f vs, Refines (apply f vs) (apply' f vs)) (step : NativeStep) :
    Refines (native apply step) (native apply' step) := by
  induction step with
  | done outcome => exact .refl _
  | apply f vs resume ih =>
    refine Refines.bind (fun σ outcome hrun => ?_) ih
    rw [lift_run_apply] at hrun ⊢
    obtain ⟨o, ho, rfl⟩ := Option.map_eq_some_iff.1 hrun
    rw [h f vs ho]
    rfl

theorem refines_evalForm (h : ∀ e, Refines (evaluate e) (evaluate' e)) (ρ : ScopeId)
    (args : Value) (form : SpecialForm) :
    Refines (evalForm evaluate ρ args form) (evalForm evaluate' ρ args form) := by
  cases form with
  | conditional =>
    rw [evalForm_conditional, evalForm_conditional]
    refine Refines.bind (.refl _) fun c => (h c.condition).bind fun test => ?_
    cases c.chosen test with
    | some e => exact h e
    | none => exact .refl _
  | _ => exact .refl _

end EvalM

open EvalM

theorem eval_apply_refines (ext : Embedding) (limit : Nat) :
    (∀ ρ e, Refines (eval ext limit ρ e) (eval ext (limit + 1) ρ e)) ∧
    ∀ f vs, Refines (apply ext limit f vs) (apply ext (limit + 1) f vs) := by
  induction limit with
  | zero => exact ⟨fun _ _ _ _ => nofun, fun _ _ _ _ => nofun⟩
  | succ limit ih =>
    obtain ⟨iheval, ihapply⟩ := ih
    constructor
    · intro ρ e
      cases e with
      | pair head args =>
        cases hform : SpecialForm.ofHead? head with
        | some form =>
          rw [eval_form ext _ ρ hform, eval_form ext _ ρ hform]
          exact refines_evalForm (iheval ρ) ρ args form
        | none =>
          rw [eval_application ext _ ρ hform, eval_application ext _ ρ hform]
          refine (iheval ρ head).bind fun f => ?_
          exact (refines_elements (iheval ρ) args []).bind fun vs => ihapply f vs
      | _ => exact .refl _
    · intro f vs
      match f with
      | .closure id name params body scope =>
        intro σ outcome h
        by_cases hn : vs.length = params.length
        · rw [apply_closure ext _ id name body scope hn] at h ⊢
          exact iheval _ _ h
        · rw [apply_closure_arity ext _ id name body scope hn] at h ⊢
          exact h
      | .native label (.foreign name) =>
        rw [apply, apply]
        cases ext name with
        | some f => exact refines_native ihapply (f vs)
        | none => exact .refl _
      | .native _ (.arithmetic _) | .number _ | .string _ | .boolean _ | .symbol _ | .nil
      | .pair _ _ => exact .refl _

/-- At a sufficient limit the evaluation ends with the result `r` and leaves the store `σ'`. -/
def Evaluates (ext : Embedding) (ρ : ScopeId) (e : Value) (σ : Store)
    (r : Except EvalError Value) (σ' : Store) : Prop :=
  ∃ limit, eval ext limit ρ e σ = some (r, σ')

theorem eval_of_le {ext : Embedding} {limit limit' : Nat} (h : limit ≤ limit') (ρ : ScopeId)
    (e : Value) : Refines (eval ext limit ρ e) (eval ext limit' ρ e) := by
  induction h with
  | refl => exact .refl _
  | @step limit' _ ih => exact ih.trans ((eval_apply_refines ext limit').1 ρ e)

end ScopedLisp
