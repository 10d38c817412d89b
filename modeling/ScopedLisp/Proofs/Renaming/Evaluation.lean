import ScopedLisp.Proofs.Evaluation.Simulation
import ScopedLisp.Proofs.Renaming.Store

namespace ScopedLisp

open EvalM Pairing SpecialForm

/-- The second computation does under other ids what the first one does. -/
inductive NativeStep.Renames (r : Renaming) : NativeStep → NativeStep → Prop
  | done (outcome : Except EvalError Value) :
      Renames r (.done outcome) (.done (outcome.map (.rename r)))
  | apply (f : Value) (args : List Value) {resume resume' : Except EvalError Value → NativeStep}
      (h : ∀ outcome, Renames r (resume outcome) (resume' (outcome.map (.rename r)))) :
      Renames r (.apply f args resume) (.apply (f.rename r) (args.map (.rename r)) resume')

/-- Given the same arguments under other ids, the foreign procedures do the same under these ids.
They may tell closures apart, but not by looking at ids that `r` changes. -/
def Embedding.RenamedBy (ext : Embedding) (r : Renaming) : Prop :=
  ∀ ⦃name f⦄, ext name = some f → ∀ args, (f args).Renames r (f (args.map (.rename r)))

namespace Renaming

/-- The renaming is fixed for a whole run. -/
def pairing : Pairing where
  World := Renaming
  Le := Eq
  Stores r := Store.Renames r
  Closures r := fun _ body scope body' scope' => body' = body.rename r ∧ scope' = r.scope scope
  Native _ := True
  refl _ := rfl
  trans := Eq.trans
  closures_mono := by
    intro r r' heq _ _ _ _ _ h
    subst heq
    exact h

def Same (r : Renaming) (v v' : Value) : Prop := v' = v.rename r

def SameAll (r : Renaming) (vs vs' : List Value) : Prop := vs' = vs.map (.rename r)

variable {r : Renaming} {α α' β β' : Type}

theorem beside_renamed_parts {S : Renaming → β → β' → Prop} {form : SpecialForm}
    {result : Except ShapeFault α} {g : α → α'} {f : α → EvalM β} {f' : α' → EvalM β'}
    (h : ∀ a, pairing.Beside r S (f a) (f' (g a))) :
    pairing.Beside r S (parts form result >>= f) (parts form (result.map g) >>= f') := by
  cases result with
  | error fault => exact beside_throw _
  | ok a => exact h a

theorem beside_lookup (ρ : ScopeId) (x : String) :
    pairing.Beside r Same (lookup ρ x) (lookup (r.scope ρ) x) := by
  intro σ σ' hσ
  have hx : σ'.get? (r.scope ρ) x = (σ.get? ρ x).map (.rename r) := Store.Renames.get? hσ ρ x
  rw [lookup_apply, lookup_apply, lookupResult, lookupResult, hx]
  cases σ.get? ρ x with
  | none => exact .some ⟨r, rfl, hσ, .error _⟩
  | some v => exact .some ⟨r, rfl, hσ, .ok rfl⟩

theorem beside_newClosure (name : Option String) (l : LambdaParts) (ρ : ScopeId) :
    pairing.Beside r Same (newClosure name l ρ) (newClosure name (l.rename r) (r.scope ρ)) := by
  intro σ σ' hσ
  have hid : r.closure σ.closures = σ'.closures := Store.Renames.newestClosure hσ
  have hvalue : Same r (.closure σ.closures name l.params l.body ρ)
      (.closure σ'.closures name l.params (l.body.rename r) (r.scope ρ)) := by
    rw [Same, Value.rename, hid]
  rw [newClosure_apply, newClosure_apply]
  exact .some ⟨r, rfl, Store.Renames.newClosureId hσ, .ok hvalue⟩

theorem beside_bind (ρ : ScopeId) (x : String) (v : Value) :
    pairing.Beside r (fun _ _ _ => True) (modify (·.bind ρ x v) : EvalM Unit)
      (modify (·.bind (r.scope ρ) x (v.rename r))) :=
  fun _ _ hσ => .some ⟨r, rfl, Store.Renames.bind hσ ρ x v, .ok trivial⟩

/-- Elements are evaluated in the same order under either ids. -/
theorem beside_elements {evaluate evaluate' : Value → EvalM Value}
    (h : ∀ e, pairing.Beside r Same (evaluate e) (evaluate' (e.rename r))) (args : Value) :
    pairing.Beside r SameAll (elements evaluate args [])
      (elements evaluate' (args.rename r) []) := by
  induction args with
  | nil => exact beside_pure (P := pairing) rfl
  | pair head tail _ ih =>
    rw [Value.rename, elements_pair, elements_pair]
    refine (h head).bind fun r₁ v v' hr hv => ?_
    cases hr
    refine ih.bind fun r₂ vs vs' hr hvs => ?_
    cases hr
    have hall : SameAll r (v :: vs) (v' :: vs') := by
      rw [SameAll, hv, hvs, List.map_cons]
    exact beside_pure (P := pairing) hall
  | _ => exact beside_throw _

theorem chosen_map_rename (c : ConditionalParts) (test : Value) :
    (c.map (.rename r)).chosen (test.rename r) = (c.chosen test).map (.rename r) := by
  rw [ConditionalParts.chosen, ConditionalParts.chosen, Value.isTruthy_rename]
  split <;> rfl

theorem beside_evalForm {evaluate evaluate' : Value → EvalM Value}
    (h : ∀ e, pairing.Beside r Same (evaluate e) (evaluate' (e.rename r))) (ρ : ScopeId)
    (args : Value) (form : SpecialForm) :
    pairing.Beside r Same (evalForm evaluate ρ args form)
      (evalForm evaluate' (r.scope ρ) (args.rename r) form) := by
  cases form with
  | quote =>
    rw [evalForm_quote, evalForm_quote, quotedPart_rename]
    exact beside_renamed_parts fun v => beside_pure (P := pairing) rfl
  | conditional =>
    rw [evalForm_conditional, evalForm_conditional, conditionalParts_rename]
    refine beside_renamed_parts fun c => (h c.condition).bind fun r₁ test test' hr htest => ?_
    cases hr
    rw [show test' = test.rename r from htest, chosen_map_rename]
    cases c.chosen test with
    | some e => exact h e
    | none => exact beside_pure (P := pairing) rfl
  | lambda =>
    rw [evalForm_lambda, evalForm_lambda, lambdaParts_rename]
    exact beside_renamed_parts fun l => beside_newClosure none l ρ
  | defun =>
    rw [evalForm_defun, evalForm_defun, defunParts_rename]
    refine beside_renamed_parts fun d => ?_
    refine (beside_newClosure (some d.name) d.definition ρ).bind fun r₁ f f' hr hf => ?_
    cases hr
    rw [show f' = f.rename r from hf]
    refine (beside_bind ρ d.name f).bind fun r₁ _ _ hr _ => ?_
    cases hr
    exact beside_pure (P := pairing) rfl

variable {ext : Embedding} {limit : Nat}

/-- A native computation goes on alike with outcomes that are alike. -/
theorem beside_native {apply apply' : Value → List Value → EvalM Value}
    (h : ∀ f vs, pairing.Beside r Same (apply f vs) (apply' (f.rename r) (vs.map (.rename r))))
    {step step' : NativeStep} (hstep : step.Renames r step') :
    pairing.Beside r Same (native apply step) (native apply' step') := by
  induction hstep with
  | done outcome =>
    intro σ σ' hσ
    rw [native, native, ofExcept_apply, ofExcept_apply]
    cases outcome with
    | error e => exact .some ⟨r, rfl, hσ, .error e⟩
    | ok v => exact .some ⟨r, rfl, hσ, .ok rfl⟩
  | @apply f args resume resume' _ ih =>
    have hcall : pairing.Beside r (fun r o o' => o' = o.map (.rename r))
        (ExceptT.lift (apply f args).run : EvalM (Except EvalError Value))
        (ExceptT.lift (apply' (f.rename r) (args.map (.rename r))).run) := by
      intro σ σ' hσ
      rw [lift_run_apply, lift_run_apply]
      generalize apply f args σ = o, apply' _ _ σ' = o', h f args hσ = hrel
      cases hrel with
      | none => exact .none
      | @some outcome outcome' hrel =>
        obtain ⟨result, σ₁⟩ := outcome
        obtain ⟨result', σ₁'⟩ := outcome'
        obtain ⟨r₁, hr, hσ₁, hagree⟩ := hrel
        cases hr
        refine .some ⟨r, rfl, hσ₁, .ok ?_⟩
        cases hagree with
        | error e => rfl
        | ok hv => exact congrArg Except.ok hv
    refine hcall.bind fun r₁ o o' hr ho => ?_
    cases hr
    cases ho
    exact ih o

theorem beside_apply_succ (hext : ext.RenamedBy r)
    (iheval : ∀ ρ e, pairing.Beside r Same (eval ext limit ρ e)
      (eval ext limit (r.scope ρ) (e.rename r)))
    (ihapply : ∀ f vs, pairing.Beside r Same (apply ext limit f vs)
      (apply ext limit (f.rename r) (vs.map (.rename r)))) (f : Value) (vs : List Value) :
    pairing.Beside r Same (apply ext (limit + 1) f vs)
      (apply ext (limit + 1) (f.rename r) (vs.map (.rename r))) := by
  match f with
  | .closure id name params body scope =>
    intro σ σ' hσ
    rw [Value.rename]
    by_cases hn : vs.length = params.length
    · have hn' : (vs.map (Value.rename r)).length = params.length := by simpa using hn
      have hframe : r.scope σ.scopes.size = σ'.scopes.size := Store.Renames.newest hσ
      rw [apply_closure ext limit id name body scope hn,
        apply_closure ext limit _ name _ _ hn', ← hframe]
      exact iheval σ.scopes.size body (Store.Renames.enter hσ scope params vs)
    · have hn' : (vs.map (Value.rename r)).length ≠ params.length := by simpa using hn
      rw [apply_closure_arity ext limit id name body scope hn,
        apply_closure_arity ext limit _ name _ _ hn', List.length_map]
      exact .some ⟨r, rfl, hσ, .error _⟩
  | .native label (.arithmetic op) =>
    intro σ σ' hσ
    have hsame : op.apply (vs.map (.rename r)) = op.apply vs := by
      refine op.apply_congr (List.forall₂_map_left_iff.2 (List.forall₂_same.2 fun v _ => ?_))
      exact ⟨Value.number?_rename r v, Value.kind_rename r v⟩
    rw [Value.rename_native, apply, apply, ofExcept_apply, ofExcept_apply, hsame]
    cases hv : op.apply vs with
    | error e => exact .some ⟨r, rfl, hσ, .error e⟩
    | ok v =>
      obtain ⟨x, rfl⟩ := Arithmetic.apply_eq_number hv
      exact .some ⟨r, rfl, hσ, .ok rfl⟩
  | .native label (.foreign name) =>
    rw [Value.rename_native, apply, apply]
    cases hf : ext name with
    | none => exact beside_throw _
    | some g => exact beside_native ihapply (hext hf vs)
  | .pair head tail =>
    have htext := Value.text_rename r (.pair head tail)
    rw [apply_not_callable ext limit (by simp [Value.kind]) (by simp [Value.kind]),
      apply_not_callable ext limit (by simp [Value.kind, Value.rename])
        (by simp [Value.kind, Value.rename]), htext]
    exact beside_throw _
  | .number _ | .string _ | .boolean _ | .symbol _ | .nil => exact beside_throw _

/-- Evaluating and applying under other ids comes to the same under these ids. -/
theorem beside_eval_apply (hext : ext.RenamedBy r) (limit : Nat) :
    (∀ ρ e, pairing.Beside r Same (eval ext limit ρ e)
      (eval ext limit (r.scope ρ) (e.rename r))) ∧
    ∀ f vs, pairing.Beside r Same (apply ext limit f vs)
      (apply ext limit (f.rename r) (vs.map (.rename r))) := by
  induction limit with
  | zero => exact ⟨fun _ _ _ _ _ => .none, fun _ _ _ _ _ => .none⟩
  | succ limit ih =>
    obtain ⟨iheval, ihapply⟩ := ih
    refine ⟨fun ρ e => ?_, beside_apply_succ hext iheval ihapply⟩
    match e with
    | .symbol x => exact beside_lookup ρ x
    | .pair head args =>
      rw [Value.rename]
      cases hform : ofHead? head with
      | some form =>
        rw [eval_form ext limit ρ hform,
          eval_form ext limit (r.scope ρ) ((ofHead?_rename r head).trans hform)]
        exact beside_evalForm (iheval ρ) ρ args form
      | none =>
        rw [eval_application ext limit ρ hform,
          eval_application ext limit (r.scope ρ) ((ofHead?_rename r head).trans hform)]
        refine (iheval ρ head).bind fun r₁ f f' hr hf => ?_
        cases hr
        refine (beside_elements (iheval ρ) args).bind fun r₁ vs vs' hr hvs => ?_
        cases hr
        cases hf
        cases hvs
        exact ihapply f vs
    | .number _ | .string _ | .boolean _ | .nil | .closure .. | .native .. =>
      exact beside_pure (P := pairing) rfl

/-- The second outcome is the first one under other ids, and so is the store that it comes with. -/
structure Takes {ε : Type} (r : Renaming) (o o' : Except ε Value × Store) : Prop where
  result : o'.1 = o.1.map (.rename r)
  store : o.2.Renames r o'.2

theorem takes_of_beside {m m' : EvalM Value} (h : pairing.Beside r Same m m') {σ σ' : Store}
    (hσ : σ.Renames r σ') : Option.Rel r.Takes (m σ) (m' σ') := by
  refine (h hσ).mono fun o o' ⟨r₁, hr, hstores, hagree⟩ => ?_
  cases hr
  obtain ⟨result, σ₁⟩ := o
  obtain ⟨result', σ₁'⟩ := o'
  refine ⟨?_, hstores⟩
  cases hagree with
  | ok hv => exact congrArg Except.ok hv
  | error e => rfl

end Renaming

end ScopedLisp
