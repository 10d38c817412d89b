import ScopedLisp.Proofs.Evaluation.Simulation
import ScopedLisp.Proofs.Irrelevance.Store

namespace ScopedLisp

open EvalM Pairing SpecialForm

namespace Irrelevance

/-- Closures that do not say `n` in their bodies and have scopes in `R`. -/
def Silent (n : String) (R : ScopeId → Prop) (body : Value) (scope : ScopeId) : Prop :=
  ¬(Value.symbol n).PartOf body ∧ R scope

/-- Code that does not say `n`, nor does any closure in it. -/
structure Code (n : String) (R : ScopeId → Prop) (e : Value) : Prop where
  symbol : ¬(Value.symbol n).PartOf e
  closures : e.ClosuresAre (Silent n R)

theorem Code.part {n : String} {R : ScopeId → Prop} {part e : Value} (he : Code n R e)
    (h : part.PartOf e) : Code n R part :=
  ⟨fun hn => he.symbol (hn.trans h), he.closures.part h⟩

/-- Beside each other run stores of which the second one also binds `n` in `s`. All new scopes are
in `R`. -/
def pairing (s : ScopeId) (n : String) (v : Value) (R : ScopeId → Prop) : Pairing where
  World := Unit
  Le _ _ := True
  Stores _ σ σ' := σ.AlsoBinds s n v σ' ∧ s < σ.scopes.size ∧ (∀ i, σ.scopes.size ≤ i → R i) ∧
    σ.Confined R (Silent n R)
  Closures _ := fun _ _ _ _ _ => True
  Native _ := True
  refl _ := trivial
  trans _ _ := trivial
  closures_mono _ _ _ _ _ _ h := h

variable {s ρ : ScopeId} {n : String} {u : Value} {R : ScopeId → Prop}

/-- Both runs have the same value, whose closures do not say `n`. -/
def Same (n : String) (R : ScopeId → Prop) (_ : Unit) (v v' : Value) : Prop :=
  v = v' ∧ v.ClosuresAre (Silent n R)

def SameAll (n : String) (R : ScopeId → Prop) (_ : Unit) (vs vs' : List Value) : Prop :=
  vs = vs' ∧ ∀ v ∈ vs, v.ClosuresAre (Silent n R)

/-- The computation comes to the same in both runs. -/
def Unaffected (s : ScopeId) (n : String) (u : Value) (R : ScopeId → Prop) (m : EvalM Value) :
    Prop :=
  (pairing s n u R).Beside () (Same n R) m m

theorem unaffected_pure {v : Value} (hv : v.ClosuresAre (Silent n R)) :
    Unaffected s n u R (pure v) :=
  beside_pure (P := pairing s n u R) ⟨rfl, hv⟩

theorem unaffected_ofExcept {r : Except EvalError Value}
    (hr : ∀ v, r = .ok v → v.ClosuresAre (Silent n R)) : Unaffected s n u R (ofExcept r) := by
  cases r with
  | error e => exact beside_throw e
  | ok v => exact unaffected_pure (hr v rfl)

theorem unaffected_lookup {x : String} (hρ : R ρ) (hx : x ≠ n) :
    Unaffected s n u R (lookup ρ x) := by
  rintro σ σ' hσ
  rw [lookup_apply, lookup_apply, lookupResult, lookupResult, hσ.1.get? hx]
  cases hv : σ.get? ρ x with
  | none => exact .some ⟨(), trivial, hσ, .error _⟩
  | some v => exact .some ⟨(), trivial, hσ, .ok ⟨rfl, hσ.2.2.2.get? hρ hv⟩⟩

theorem unaffected_newClosure (hρ : R ρ) (name : Option String) {l : LambdaParts}
    (hl : Code n R l.body) : Unaffected s n u R (newClosure name l ρ) := by
  rintro σ σ' ⟨hsame, hs, hnew, hconfined⟩
  rw [newClosure_apply, newClosure_apply, hsame.closures]
  refine .some ⟨(), trivial, ⟨hsame.newClosureId, hs, hnew, hconfined.newClosureId⟩, .ok ⟨rfl, ?_⟩⟩
  exact ⟨⟨hl.symbol, hρ⟩, hl.closures⟩

theorem beside_bind {x : String} {v : Value} (hx : x ≠ n) (hv : v.ClosuresAre (Silent n R))
    (ρ : ScopeId) : (pairing s n u R).Beside () (fun _ _ _ => True)
      (modify (·.bind ρ x v) : EvalM Unit) (modify (·.bind ρ x v)) := by
  rintro σ σ' ⟨hsame, hs, hnew, hconfined⟩
  refine .some ⟨(), trivial, ⟨hsame.bind hx ρ v, ?_, fun i hi => hnew i ?_,
    hconfined.bind hv ρ x⟩, .ok trivial⟩
  · simpa using hs
  · simpa using hi

theorem beside_elements {evaluate : Value → EvalM Value}
    (h : ∀ e, Code n R e → Unaffected s n u R (evaluate e)) {args : Value} (hargs : Code n R args) :
    (pairing s n u R).Beside () (SameAll n R) (elements evaluate args [])
      (elements evaluate args []) := by
  induction args with
  | nil => exact beside_pure (P := pairing s n u R) ⟨rfl, by simp⟩
  | pair head tail _ ih =>
    rw [elements_pair]
    refine (h head (hargs.part (.head .self tail))).bind ?_
    rintro _ v _ - ⟨rfl, hv⟩
    refine (ih (hargs.part (.tail .self head))).bind ?_
    rintro _ vs _ - ⟨rfl, hvs⟩
    refine beside_pure (P := pairing s n u R) ⟨rfl, fun w hw => ?_⟩
    rcases List.mem_cons.1 hw with rfl | hw
    · exact hv
    · exact hvs w hw
  | _ => exact beside_throw _

theorem unaffected_evalForm {evaluate : Value → EvalM Value}
    (h : ∀ e, Code n R e → Unaffected s n u R (evaluate e)) (hρ : R ρ) {args : Value}
    (hargs : Code n R args) (form : SpecialForm) :
    Unaffected s n u R (evalForm evaluate ρ args form) := by
  cases form with
  | quote =>
    rw [evalForm_quote]
    refine beside_parts_bind fun v hv => unaffected_pure ?_
    exact (hargs.part (quotedPart_partOf hv)).closures
  | conditional =>
    rw [evalForm_conditional]
    refine beside_parts_bind fun c hc => ?_
    have hcode {e : Value} (he : e ∈ c.expressions) : Code n R e :=
      hargs.part (expressions_partOf hc he)
    refine (h c.condition (hcode c.condition_mem_expressions)).bind ?_
    rintro _ test _ - ⟨rfl, -⟩
    cases hchosen : c.chosen test with
    | some e => exact h e (hcode (ConditionalParts.chosen_mem_expressions hchosen))
    | none => exact unaffected_pure trivial
  | lambda =>
    rw [evalForm_lambda]
    refine beside_parts_bind fun l hl => ?_
    exact unaffected_newClosure hρ none (hargs.part (lambdaParts_body_partOf hl))
  | defun =>
    rw [evalForm_defun]
    refine beside_parts_bind fun d hd => ?_
    have hbody : Code n R d.definition.body := hargs.part (defunParts_body_partOf hd)
    have hname : d.name ≠ n := by
      rintro rfl
      obtain ⟨rest, rfl, -⟩ := defunParts_eq_ok_iff.1 hd
      exact hargs.symbol (.head .self rest)
    refine (unaffected_newClosure hρ (some d.name) hbody).bind ?_
    rintro _ f _ - ⟨rfl, hf⟩
    refine (beside_bind hname hf ρ).bind fun _ _ _ _ _ => ?_
    exact unaffected_pure trivial

variable {ext : Embedding} {limit : Nat}

theorem unaffected_native {apply : Value → List Value → EvalM Value}
    (h : ∀ f vs, f.ClosuresAre (Silent n R) → (∀ v ∈ vs, v.ClosuresAre (Silent n R)) →
      Unaffected s n u R (apply f vs))
    {step : NativeStep} (hstep : step.HandsOn (Silent n R)) :
    Unaffected s n u R (native apply step) := by
  induction hstep with
  | done hv => exact unaffected_ofExcept hv
  | @apply f args resume hf hargs _ ih =>
    have hcall : (pairing s n u R).Beside ()
        (fun _ o o' => o = o' ∧ ∀ v, o = .ok v → v.ClosuresAre (Silent n R))
        (ExceptT.lift (apply f args).run : EvalM (Except EvalError Value))
        (ExceptT.lift (apply f args).run) := by
      intro σ σ' hσ
      rw [lift_run_apply, lift_run_apply]
      generalize apply f args σ = o, apply f args σ' = o', h f args hf hargs hσ = hrel
      cases hrel with
      | none => exact .none
      | @some outcome outcome' hrel =>
        obtain ⟨result, σ₁⟩ := outcome
        obtain ⟨result', σ₁'⟩ := outcome'
        obtain ⟨_, -, hσ₁, hagree⟩ := hrel
        refine .some ⟨(), trivial, hσ₁, .ok ?_⟩
        cases hagree with
        | error e => exact ⟨rfl, fun _ hv => nomatch hv⟩
        | ok hv =>
          obtain ⟨rfl, hv⟩ := hv
          exact ⟨rfl, fun _ heq => by cases heq; exact hv⟩
    refine hcall.bind ?_
    rintro _ o _ - ⟨rfl, ho⟩
    exact ih o ho

theorem unaffected_apply_succ (hext : ext.HandsOn)
    (iheval : ∀ ρ e, R ρ → Code n R e → Unaffected s n u R (eval ext limit ρ e))
    (ihapply : ∀ f vs, f.ClosuresAre (Silent n R) → (∀ v ∈ vs, v.ClosuresAre (Silent n R)) →
      Unaffected s n u R (apply ext limit f vs)) {f : Value} {vs : List Value}
    (hf : f.ClosuresAre (Silent n R)) (hvs : ∀ v ∈ vs, v.ClosuresAre (Silent n R)) :
    Unaffected s n u R (apply ext (limit + 1) f vs) := by
  match f with
  | .closure id name params body scope =>
    obtain ⟨⟨hbody, hscope⟩, hclosures⟩ := hf
    rintro σ σ' ⟨hsame, hs, hnew, hconfined⟩
    by_cases hn : vs.length = params.length
    · rw [apply_closure ext limit id name body scope hn,
        apply_closure ext limit id name body scope hn, hsame.size]
      have hframe : R σ.scopes.size := hnew _ (Nat.le_refl _)
      have hbindings : ∀ b ∈ params.zip vs, b.2.ClosuresAre (Silent n R) := fun b hb =>
        hvs b.2 (List.of_mem_zip hb).2
      refine iheval σ.scopes.size body hframe ⟨hbody, hclosures⟩ ⟨hsame.enter hs scope _, ?_,
        fun i hi => hnew i ?_, hconfined.enter hscope hbindings⟩
      · simpa using Nat.lt_succ_of_lt hs
      · rw [Store.size_enter] at hi
        exact Nat.le_of_succ_le hi
    · rw [apply_closure_arity ext limit id name body scope hn,
        apply_closure_arity ext limit id name body scope hn]
      exact .some ⟨(), trivial, ⟨hsame, hs, hnew, hconfined⟩, .error _⟩
  | .native label (.arithmetic op) =>
    rw [apply]
    refine unaffected_ofExcept fun v hv => ?_
    obtain ⟨x, rfl⟩ := Arithmetic.apply_eq_number hv
    trivial
  | .native label (.foreign name) =>
    rw [apply]
    cases hg : ext name with
    | none => exact beside_throw _
    | some g => exact unaffected_native ihapply (hext _ hg vs hvs)
  | .number _ | .string _ | .boolean _ | .symbol _ | .nil | .pair _ _ => exact beside_throw _

theorem unaffected_eval_apply (hext : ext.HandsOn) (limit : Nat) :
    (∀ ρ e, R ρ → Code n R e → Unaffected s n u R (eval ext limit ρ e)) ∧
    ∀ f vs, f.ClosuresAre (Silent n R) → (∀ v ∈ vs, v.ClosuresAre (Silent n R)) →
      Unaffected s n u R (apply ext limit f vs) := by
  induction limit with
  | zero => exact ⟨fun _ _ _ _ _ _ _ => .none, fun _ _ _ _ _ _ _ => .none⟩
  | succ limit ih =>
    obtain ⟨iheval, ihapply⟩ := ih
    refine ⟨fun ρ e hρ he => ?_, fun f vs => unaffected_apply_succ hext iheval ihapply⟩
    match e with
    | .symbol x =>
      refine unaffected_lookup hρ fun hx => he.symbol ?_
      rw [hx]
      exact .self
    | .pair head args =>
      cases hform : ofHead? head with
      | some form =>
        rw [eval_form ext limit ρ hform]
        have hargs := he.part (.tail .self head)
        exact unaffected_evalForm (fun e he => iheval ρ e hρ he) hρ hargs form
      | none =>
        rw [eval_application ext limit ρ hform]
        refine (iheval ρ head hρ (he.part (.head .self args))).bind ?_
        rintro _ f _ - ⟨rfl, hf⟩
        refine (beside_elements (fun e he => iheval ρ e hρ he) (he.part (.tail .self head))).bind ?_
        rintro _ vs _ - ⟨rfl, hvs⟩
        exact ihapply f vs hf hvs
    | .number _ | .string _ | .boolean _ | .nil | .closure .. | .native .. =>
      exact unaffected_pure he.closures

/-- A name that the expression does not say, nor anything that can be got at from it and from its
scope, may as well be bound, wherever and to whatever: at every limit the evaluation has the same
outcome, if any, and leaves the same store but for this binding. -/
theorem unsaid_binding_changes_nothing {ext : Embedding} (hext : ext.HandsOn) {σ : Store}
    {ρ s : ScopeId} {e : Value} {n : String} (hn : ¬σ.ReachesValue ρ e (.symbol n)) (hs : s < σ.scopes.size)
    (v : Value) (limit : Nat) :
    Option.Rel (fun o o' => o.1 = o'.1 ∧ o.2.AlsoBinds s n v o'.2) (eval ext limit ρ e σ)
      (eval ext limit ρ e (σ.bind s n v)) := by
  let R : ScopeId → Prop := fun i => σ.ReachesScope ρ e i ∨ σ.scopes.size ≤ i
  have hclosures {w : Value} (hw : σ.ReachesValue ρ e w) : w.ClosuresAre (Silent n R) :=
    (hw.closuresAre hn).mono fun _ _ h => ⟨h.1, .inl h.2⟩
  have hcode : Code n R e := ⟨fun h => hn (Store.ReachesValue.expression.part h),
    hclosures .expression⟩
  have hconfined : σ.Confined R (Silent n R) := by
    refine ⟨fun hi hp => ?_, fun hi hw => ?_⟩
    · rcases hi with hi | hi
      · exact .inl (hi.parent hp)
      · exact absurd (Store.lt_size_of_parent? hp) (Nat.not_lt_of_le hi)
    · rcases hi with hi | hi
      · exact hclosures (.bound hi hw)
      · exact absurd (Store.lt_size_of_local? hw) (Nat.not_lt_of_le hi)
  have hrun := (unaffected_eval_apply hext limit).1 ρ e (.inl .own) hcode
    ⟨Store.alsoBinds_bind hs n v, hs, fun i hi => .inr hi, hconfined⟩
  refine hrun.mono fun o o' ⟨_, _, hσ, hagree⟩ => ⟨?_, hσ.1⟩
  generalize o.1 = r, o'.1 = r' at hagree
  cases hagree with
  | ok hv => exact congrArg Except.ok hv.1
  | error err => rfl

/-- `(lambda (x) (cons x x))` in the scope 1 -/
private def twice : Value :=
  .closure 0 none ["x"] (.list [.native "cons" (.foreign "cons"), .symbol "x", .symbol "x"]) 1

/-- A scope inside a global one, which binds a closure of the inner scope. -/
private def storeWithTwice : Store :=
  (Store.empty.newGlobal.2.newScope (some 0)).2.newClosureId.2.bind 0 "twice" twice

/-- `(apply twice (list #t))` -/
private def twiceCall : Value :=
  .list [.native "apply" (.foreign "apply"), .symbol "twice",
    .list [.native "list" (.foreign "list"), .boolean true]]

/-- A name is bound in the scope of a closure that is called and does not say it. -/
theorem unsaid_binding_in_captured_scope :
    ∃ σ₁ σ₂, eval .listTools 6 0 twiceCall storeWithTwice =
        some (.ok (.pair (.boolean true) (.boolean true)), σ₁) ∧
      eval .listTools 6 0 twiceCall (storeWithTwice.bind 1 "y" .nil) =
        some (.ok (.pair (.boolean true) (.boolean true)), σ₂) ∧
      σ₁.AlsoBinds 1 "y" .nil σ₂ := by
  have hbound : storeWithTwice.Binds (¬Value.Says "y" ·) := by
    refine Store.Binds.bind (Store.Binds.newScope ?_ _) (by decide) 0 "twice"
    exact (Store.binds_empty _).newGlobal fun op h => h
  have hn : ¬storeWithTwice.ReachesValue 0 twiceCall (.symbol "y") :=
    Store.not_reachesValue_symbol hbound (by decide)
  have hruns := unsaid_binding_changes_nothing Embedding.handsOn_listTools hn
    (s := 1) (by decide +kernel) .nil 6
  have hvalue : (eval .listTools 6 0 twiceCall storeWithTwice).map Prod.fst =
      some (.ok (.pair (.boolean true) (.boolean true))) := by decide +kernel
  obtain ⟨⟨_, σ₁⟩, hfirst, rfl⟩ := Option.map_eq_some_iff.1 hvalue
  rw [hfirst] at hruns
  generalize eval .listTools 6 0 twiceCall (storeWithTwice.bind 1 "y" .nil) = o at hruns ⊢
  cases hruns with
  | @some _ o h =>
    obtain ⟨result, σ₂⟩ := o
    obtain ⟨rfl, hσ⟩ := h
    exact ⟨σ₁, σ₂, hfirst, rfl, hσ⟩

end Irrelevance

end ScopedLisp
