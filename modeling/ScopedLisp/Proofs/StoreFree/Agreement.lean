import ScopedLisp.Proofs.Evaluation.Run
import ScopedLisp.Proofs.StoreFree.Representation

namespace ScopedLisp.StoreFree

variable {α α' β β' : Type} {σ : Store}

/-- From the store `σ` the first computation has an outcome if the second has, it adds to the store
only, and the outcomes agree up to `R`. -/
def Simulates (σ : Store) (R : Store → α → β → Prop) (m : EvalM α) (n : M β) : Prop :=
  Option.Rel (fun outcome result => σ.Keeps outcome.2 ∧ Agree (R outcome.2) outcome.1 result)
    (m σ) n.run

theorem simulates_pure {R : Store → α → β → Prop} {a : α} {b : β} (h : R σ a b) :
    Simulates σ R (pure a) (pure b) :=
  .some ⟨fun _ _ => rfl, .ok h⟩

theorem simulates_throw {R : Store → α → β → Prop} (e : EvalError) :
    Simulates σ R (throw e) (throw e) :=
  .some ⟨fun _ _ => rfl, .error e⟩

theorem Simulates.bind {R : Store → α → β → Prop} {S : Store → α' → β' → Prop} {m : EvalM α}
    {n : M β} {f : α → EvalM α'} {g : β → M β'} (h : Simulates σ R m n)
    (hrest : ∀ σ₁ a b, σ.Keeps σ₁ → R σ₁ a b → Simulates σ₁ S (f a) (g b)) :
    Simulates σ S (m >>= f) (n >>= g) := by
  unfold Simulates at h ⊢
  rw [EvalM.bind_apply, ExceptT.run_bind]
  generalize m σ = outcome, n.run = result at h
  cases h with
  | none => exact .none
  | @some outcome result h =>
    obtain ⟨r, σ₁⟩ := outcome
    obtain ⟨hkeeps, hagree⟩ := h
    cases hagree with
    | error e => exact .some ⟨hkeeps, .error e⟩
    | ok hab =>
      exact (hrest σ₁ _ _ hkeeps hab).mono fun _ _ h => ⟨hkeeps.trans h.1, h.2⟩

theorem simulates_parts_bind {S : Store → α' → β' → Prop} {form : SpecialForm}
    {result : Except ShapeFault α} {f : α → EvalM α'} {g : α → M β'}
    (h : ∀ a, result = .ok a → Simulates σ S (f a) (g a)) :
    Simulates σ S (EvalM.parts form result >>= f) (parts form result >>= g) := by
  cases result with
  | error fault => exact simulates_throw _
  | ok a => exact h a rfl

theorem simulates_elements {evaluate : Value → EvalM Value} {evaluate' : Value → M Val}
    {args : Value} (h : ∀ e ∈ args.unchain.1, ∀ σ₁, σ.Keeps σ₁ →
      Simulates σ₁ Represents (evaluate e) (evaluate' e)) :
    Simulates σ (fun σ₁ => List.Forall₂ (Represents σ₁)) (EvalM.elements evaluate args [])
      (elements evaluate' args) := by
  induction args generalizing σ with
  | nil => exact simulates_pure .nil
  | pair head tail _ ih =>
    rw [EvalM.elements_pair, elements]
    refine (h head (by simp [Value.unchain]) σ fun _ _ => rfl).bind fun σ₁ v p hk hvp => ?_
    have htail : ∀ e ∈ tail.unchain.1, ∀ σ₂, σ₁.Keeps σ₂ →
        Simulates σ₂ Represents (evaluate e) (evaluate' e) := fun e he σ₂ hk₁ =>
      h e (by simp [Value.unchain, he]) σ₂ (hk.trans hk₁)
    refine (ih htail).bind fun σ₂ vs ps hk₁ hvs => ?_
    exact simulates_pure (.cons (hvp.keeps hk₁) hvs)
  | _ => exact simulates_throw _

theorem simulates_lookup {ρ : ScopeId} {env : Env} (h : Models σ ρ env) (x : String) :
    Simulates σ Represents (EvalM.lookup ρ x) (lookup env x) := by
  unfold Simulates
  rw [EvalM.lookup_apply, EvalM.lookupResult, lookup]
  generalize σ.get? ρ x = v, env.lookup x = p, h.names x = hx
  cases hx with
  | none => exact .some ⟨fun _ _ => rfl, .error _⟩
  | some hvp => exact .some ⟨fun _ _ => rfl, .ok hvp⟩

/-- A special form behaves alike if the expressions in it do. -/
theorem simulates_evalForm {evaluate : Value → EvalM Value} {evaluate' : Value → M Val}
    {ρ : ScopeId} {env : Env} {args : Value} {form : SpecialForm} (hscope : Models σ ρ env)
    (hargs : IsProgram args) (hform : form ≠ .defun)
    (h : ∀ e, IsProgram e → ∀ σ₁, σ.Keeps σ₁ →
      Simulates σ₁ Represents (evaluate e) (evaluate' e)) :
    Simulates σ Represents (ScopedLisp.evalForm evaluate ρ args form)
      (evalForm evaluate' env args form) := by
  cases form with
  | quote =>
    have hquote : ScopedLisp.evalForm evaluate ρ args .quote =
        EvalM.parts .quote (SpecialForm.quotedPart args) >>= pure := (bind_pure _).symm
    rw [hquote]
    refine simulates_parts_bind fun v hv => simulates_pure (.datum ?_)
    exact (hargs.part (SpecialForm.quotedPart_partOf hv)).source
  | conditional =>
    rw [evalForm_conditional]
    refine simulates_parts_bind fun c hc => ?_
    have hpart : ∀ e ∈ c.expressions, IsProgram e := fun e he =>
      hargs.part (SpecialForm.expressions_partOf hc he)
    have htest := h c.condition (hpart _ c.condition_mem_expressions) σ fun _ _ => rfl
    refine htest.bind fun σ₁ v p hk hvp => ?_
    have hchosen : c.chosen v = c.chosen p.shown := by
      rw [SpecialForm.ConditionalParts.chosen, SpecialForm.ConditionalParts.chosen, hvp.isTruthy]
    rw [hchosen]
    cases he : c.chosen p.shown with
    | some e =>
      exact h e (hpart e (SpecialForm.ConditionalParts.chosen_mem_expressions he)) σ₁ hk
    | none => exact simulates_pure (.datum trivial)
  | lambda =>
    rw [evalForm_lambda]
    refine simulates_parts_bind fun l hl => ?_
    have hbody := hargs.part (SpecialForm.lambdaParts_body_partOf hl)
    have hk : σ.Keeps σ.newClosureId.2 := fun _ _ => rfl
    exact .some ⟨hk, .ok ((hscope.keeps hk).closure hbody _ none l.params)⟩
  | defun => exact absurd rfl hform

variable {ext : Embedding} {limit : Nat}

theorem simulates_eval_succ
    (iheval : ∀ {ρ env e σ}, Models σ ρ env → IsProgram e →
      Simulates σ Represents (ScopedLisp.eval ext limit ρ e) (eval limit env e))
    (ihapply : ∀ {f p vs ps σ}, Represents σ f p → List.Forall₂ (Represents σ) vs ps →
      Simulates σ Represents (ScopedLisp.apply ext limit f vs) (apply limit p ps))
    {ρ : ScopeId} {env : Env} {e : Value} (hscope : Models σ ρ env) (he : IsProgram e) :
    Simulates σ Represents (ScopedLisp.eval ext (limit + 1) ρ e) (eval (limit + 1) env e) := by
  cases e with
  | symbol x => exact simulates_lookup hscope x
  | pair head args =>
    rw [eval]
    cases hform : SpecialForm.ofHead? head with
    | some form =>
      have hdefun : form ≠ .defun := by
        intro heq
        subst heq
        rw [SpecialForm.ofHead?_eq_some_iff] at hform
        exact he.head.noDefinition (hform ▸ .self)
      rw [eval_form ext limit ρ hform]
      exact simulates_evalForm hscope he.tail hdefun fun e he σ₁ hk => iheval (hscope.keeps hk) he
    | none =>
      rw [eval_application ext limit ρ hform]
      refine (iheval hscope he.head).bind fun σ₁ f p hk hfp => ?_
      have hargs : ∀ e ∈ args.unchain.1, ∀ σ₂, σ₁.Keeps σ₂ →
          Simulates σ₂ Represents (ScopedLisp.eval ext limit ρ e) (eval limit env e) :=
        fun e hmem σ₂ hk₁ => iheval (hscope.keeps (hk.trans hk₁))
          (he.tail.part (Value.partOf_of_mem_unchain hmem))
      exact (simulates_elements hargs).bind fun σ₂ vs ps hk₁ hvs => ihapply (hfp.keeps hk₁) hvs
  | _ => exact simulates_pure (.datum he.source)

/-- A call is an evaluation in a frame that is represented by the arguments and the environment of
the closure. -/
theorem simulates_call
    (iheval : ∀ {ρ env e σ}, Models σ ρ env → IsProgram e →
      Simulates σ Represents (ScopedLisp.eval ext limit ρ e) (eval limit env e))
    {scope : ScopeId} {env : Env} {body : Value} (hmodels : Models σ scope env)
    (hbody : IsProgram body) {vs : List Value} {ps : List Val}
    (hvs : List.Forall₂ (Represents σ) vs ps) (id : ClosureId) (name : Option String)
    (params : List String) :
    Simulates σ Represents
      (ScopedLisp.apply ext (limit + 1) (.closure id name params body scope) vs)
      (apply (limit + 1) (.closure name params body env) ps) := by
  have hlength := hvs.length_eq
  unfold Simulates
  rw [apply]
  by_cases hn : vs.length = params.length
  · rw [if_pos (hlength ▸ hn), apply_closure ext limit id name body scope hn]
    refine Option.Rel.mono (iheval (hmodels.enter params hvs) hbody) fun _ _ h => ?_
    exact ⟨(Store.Keeps.enter _ _ _).trans h.1, h.2⟩
  · rw [if_neg (hlength ▸ hn), apply_closure_arity ext limit id name body scope hn, hlength]
    exact .some ⟨fun _ _ => rfl, .error _⟩

theorem simulates_arithmetic (label : String) (op : Arithmetic) {vs : List Value} {ps : List Val}
    (hvs : List.Forall₂ (Represents σ) vs ps) :
    Simulates σ Represents (ScopedLisp.apply ext (limit + 1) (.native label (.arithmetic op)) vs)
      (apply (limit + 1) (.datum (.native label (.arithmetic op))) ps) := by
  have hsame : op.apply vs = op.apply (ps.map Val.shown) :=
    op.apply_congr (List.forall₂_map_right_iff.2 (hvs.imp fun _ _ h => h.sameOperand))
  unfold Simulates
  rw [ScopedLisp.apply, EvalM.ofExcept_apply, apply, hsame]
  cases hr : op.apply (ps.map Val.shown) with
  | error e => exact .some ⟨fun _ _ => rfl, .error e⟩
  | ok v =>
    obtain ⟨x, rfl⟩ := Arithmetic.apply_eq_number hr
    exact .some ⟨fun _ _ => rfl, .ok (.datum trivial)⟩

theorem simulates_apply_succ
    (iheval : ∀ {ρ env e σ}, Models σ ρ env → IsProgram e →
      Simulates σ Represents (ScopedLisp.eval ext limit ρ e) (eval limit env e))
    {f : Value} {p : Val} {vs : List Value} {ps : List Val} (hfp : Represents σ f p)
    (hvs : List.Forall₂ (Represents σ) vs ps) :
    Simulates σ Represents (ScopedLisp.apply ext (limit + 1) f vs) (apply (limit + 1) p ps) := by
  cases hfp with
  | closure hscope hbody hnone hsome id name params =>
    have hmodels := (Represents.closure hscope hbody hnone hsome id name params).models
    exact simulates_call iheval hmodels hbody hvs id name params
  | datum hf =>
    cases f with
    | native label procedure =>
      obtain ⟨op, rfl⟩ := hf
      exact simulates_arithmetic label op hvs
    | closure => exact hf.1.elim
    | _ => exact simulates_throw _

/-- Both at once by induction on the limit. -/
theorem eval_apply_simulates (ext : Embedding) (limit : Nat) :
    (∀ {ρ env e σ}, Models σ ρ env → IsProgram e →
      Simulates σ Represents (ScopedLisp.eval ext limit ρ e) (eval limit env e)) ∧
    ∀ {f p vs ps σ}, Represents σ f p → List.Forall₂ (Represents σ) vs ps →
      Simulates σ Represents (ScopedLisp.apply ext limit f vs) (apply limit p ps) := by
  induction limit with
  | zero => exact ⟨fun _ _ => .none, fun _ _ => .none⟩
  | succ limit ih => exact ⟨simulates_eval_succ ih.1 ih.2, simulates_apply_succ ih.1⟩

theorem models_newGlobal (σ : Store) : Models σ.newGlobal.2 σ.newGlobal.1 global := by
  refine ⟨by simp [Store.newGlobal, Store.newScope], fun x => ?_⟩
  rw [Store.get?_newGlobal, global]
  induction Arithmetic.all with
  | nil => exact .none
  | cons op ops ih =>
    simp only [List.map_cons, List.lookup_cons]
    cases x == op.symbol with
    | true => exact .some (.datum ⟨op, rfl⟩)
    | false => exact ih

/-- The value of a store is the datum itself, or a closure that differs in its environment only. -/
inductive Val.Shows : Val → Value → Prop
  | datum (v : Value) : Shows (.datum v) v
  | closure (id : ClosureId) (name : Option String) (params : List String) (body : Value)
      (env : Env) (scope : ScopeId) :
      Shows (.closure name params body env) (.closure id name params body scope)

theorem Represents.shows {v : Value} {p : Val} (h : Represents σ v p) : p.Shows v := by
  cases h with
  | datum => exact .datum v
  | closure _ _ _ _ id name params => exact .closure id name params _ _ _

/-- In a new global scope a program without definitions has an outcome exactly if it has one in the
global environment, and then it is the same error or the same value but for the environments of
closures. Both evaluations even nest equally deep. -/
theorem program_needs_no_store (ext : Embedding) (σ : Store) {e : Value} (he : IsProgram e)
    (limit : Nat) :
    Option.Rel (fun outcome result => Agree (fun v p => p.Shows v) outcome.1 result)
      (ScopedLisp.eval ext limit σ.newGlobal.1 e σ.newGlobal.2) (eval limit global e).run :=
  Option.Rel.mono ((eval_apply_simulates ext limit).1 (models_newGlobal σ) he) fun _ _ h =>
    h.2.mono fun _ _ hvp => hvp.shows

/-- `((lambda (x) (lambda (y) x)) 1)` -/
private def escapingFrame : Value :=
  .list [.list [.symbol "lambda", .list [.symbol "x"],
    .list [.symbol "lambda", .list [.symbol "y"], .symbol "x"]], .number 1]

/-- A closure that keeps the frame it was made in after the call. -/
theorem escaping_frame_needs_no_store :
    ∃ v σ p,
      ScopedLisp.eval .empty 3 0 escapingFrame Store.empty.newGlobal.2 = some (.ok v, σ) ∧
        (eval 3 global escapingFrame).run = some (.ok p) ∧ p.Shows v := by
  have he : IsProgram escapingFrame :=
    ⟨by simp [escapingFrame, Value.IsSource, Value.Within], by decide⟩
  obtain ⟨v, σ, hrun⟩ : ∃ v σ,
      ScopedLisp.eval .empty 3 0 escapingFrame Store.empty.newGlobal.2 = some (.ok v, σ) :=
    ⟨_, _, rfl⟩
  have hsame := program_needs_no_store .empty .empty he 3
  rw [show Store.empty.newGlobal.1 = 0 from rfl, hrun] at hsame
  generalize (eval 3 global escapingFrame).run = result at hsame
  cases hsame with
  | some h =>
    cases h with
    | ok hshows => exact ⟨v, σ, _, hrun, rfl, hshows⟩

end ScopedLisp.StoreFree
