import ScopedLisp.Proofs.Evaluation.Contract
import ScopedLisp.Proofs.Evaluation.Limit

namespace ScopedLisp

open SpecialForm

/-- The elements of a chain evaluate in order, at a sufficient limit. -/
def ElementsEvaluate (ρ : ScopeId) (args : Value) (σ : Store) (r : Except EvalError (List Value))
    (σ' : Store) : Prop :=
  ∃ limit, EvalM.elements (eval .empty limit ρ) args [] σ = some (r, σ')

/-- An application comes to applying `f` to `vs` in the store `σ'`. -/
structure Applies (σ : Store) (ρ : ScopeId) (head args : Value) (σ' : Store) (f : Value)
    (vs : List Value) : Prop where
  application : ofHead? head = none
  evaluates : ∃ σ₁, Evaluates .empty ρ head σ (.ok f) σ₁ ∧
    ElementsEvaluate ρ args σ₁ (.ok vs) σ'

/-- Evaluating `e` in the scope `ρ` of the store `σ`, the evaluator comes to evaluate `e'` in the
scope `ρ'` of the store `σ'`. -/
inductive ComesTo : Store → ScopeId → Value → Store → ScopeId → Value → Prop
  | here (σ : Store) (ρ : ScopeId) (e : Value) : ComesTo σ ρ e σ ρ e
  | condition {σ σ' : Store} {ρ ρ' : ScopeId} {head args e' : Value} {c : ConditionalParts}
      (hhead : ofHead? head = some .conditional) (hc : conditionalParts args = .ok c)
      (h : ComesTo σ ρ c.condition σ' ρ' e') : ComesTo σ ρ (.pair head args) σ' ρ' e'
  | branch {σ σ₁ σ' : Store} {ρ ρ' : ScopeId} {head args test v e' : Value} {c : ConditionalParts}
      (hhead : ofHead? head = some .conditional) (hc : conditionalParts args = .ok c)
      (htest : Evaluates .empty ρ c.condition σ (.ok test) σ₁) (hv : c.chosen test = some v)
      (h : ComesTo σ₁ ρ v σ' ρ' e') : ComesTo σ ρ (.pair head args) σ' ρ' e'
  | head {σ σ' : Store} {ρ ρ' : ScopeId} {head args e' : Value} (hhead : ofHead? head = none)
      (h : ComesTo σ ρ head σ' ρ' e') : ComesTo σ ρ (.pair head args) σ' ρ' e'
  | argument {σ σ₁ σ₂ σ' : Store} {ρ ρ' : ScopeId} {head f v rest e' : Value}
      {before vs : List Value} (hhead : ofHead? head = none)
      (hf : Evaluates .empty ρ head σ (.ok f) σ₁)
      (hbefore : ElementsEvaluate ρ (.list before) σ₁ (.ok vs) σ₂)
      (h : ComesTo σ₂ ρ v σ' ρ' e') :
      ComesTo σ ρ (.pair head (.chain before (.pair v rest))) σ' ρ' e'
  | body {σ σ₁ σ' : Store} {ρ ρ' scope : ScopeId} {head args body e' : Value} {id : ClosureId}
      {name : Option String} {params : List String} {vs : List Value}
      (hcall : Applies σ ρ head args σ₁ (.closure id name params body scope) vs)
      (hn : vs.length = params.length)
      (h : ComesTo (σ₁.enter scope (params.zip vs)) σ₁.scopes.size body σ' ρ' e') :
      ComesTo σ ρ (.pair head args) σ' ρ' e'

/-- The stores there are while `e` is evaluated in the scope `ρ` of the store `σ`: where an
evaluation starts, while parameters are bound, and where an evaluation has ended. -/
inductive PassesThrough (σ : Store) (ρ : ScopeId) (e : Value) : Store → Prop
  | start {σ' : Store} {ρ' : ScopeId} {e' : Value} (h : ComesTo σ ρ e σ' ρ' e') :
      PassesThrough σ ρ e σ'
  | binding {σ₁ σ₂ : Store} {ρ₁ scope : ScopeId} {head args body : Value} {id : ClosureId}
      {name : Option String} {params : List String} {vs : List Value}
      (h : ComesTo σ ρ e σ₁ ρ₁ (.pair head args))
      (hcall : Applies σ₁ ρ₁ head args σ₂ (.closure id name params body scope) vs)
      (hn : vs.length = params.length) (n : Nat) :
      PassesThrough σ ρ e (σ₂.enter scope ((params.zip vs).take n))
  | finish {σ₁ σ' : Store} {ρ₁ : ScopeId} {e₁ : Value} {r : Except EvalError Value}
      (h : ComesTo σ ρ e σ₁ ρ₁ e₁) (hrun : Evaluates .empty ρ₁ e₁ σ₁ r σ') :
      PassesThrough σ ρ e σ'

namespace Contract

variable {C : Contract} {σ σ' : Store} {ρ ρ' : ScopeId} {e e' head args f : Value}

theorem evaluates {r : Except EvalError Value} (h : Evaluates .empty ρ e σ r σ')
    (he : C.Code σ ρ e) (hσ : C.Holds σ) : C.Kept C.Values σ r σ' := by
  obtain ⟨limit, hrun⟩ := h
  exact (C.eval_apply_meets limit).1 he hrun hσ (.refl σ)

theorem elementsEvaluate {r : Except EvalError (List Value)} (h : ElementsEvaluate ρ args σ r σ')
    (hargs : ∀ v ∈ args.unchain.1, C.Code σ ρ v)
    (hproper : args.unchain.2 = .nil ∨ ∀ e, C.Allows e) (hσ : C.Holds σ) :
    C.Kept (fun σ vs => ∀ v ∈ vs, C.Values σ v) σ r σ' := by
  obtain ⟨limit, hrun⟩ := h
  have helements := meets_elements (fun v hv => (C.eval_apply_meets limit).1 (hargs v hv)) hproper
  exact helements hrun hσ (.refl σ)

theorem applies {vs : List Value} (h : Applies σ ρ head args σ' f vs)
    (he : C.Code σ ρ (.pair head args)) (hσ : C.Holds σ) :
    C.Holds σ' ∧ σ.LeadsTo σ' ∧ C.Values σ' f ∧ ∀ v ∈ vs, C.Values σ' v := by
  obtain ⟨hhead, σ₁, hf, hvs⟩ := h
  have hkept := evaluates hf (C.head he hhead) hσ
  have hkept' := elementsEvaluate hvs
    (fun v hv => C.code_later (C.argument he hhead hv) hkept.leadsTo) (C.proper he) hkept.holds
  exact ⟨hkept'.holds, hkept.leadsTo.trans hkept'.leadsTo,
    C.values_later (hkept.value f rfl) hkept'.leadsTo, hkept'.value vs rfl⟩

/-- Whatever the evaluator comes to is under the contract that its course started under. -/
theorem comesTo (h : ComesTo σ ρ e σ' ρ' e') (he : C.Code σ ρ e) (hσ : C.Holds σ) :
    C.Holds σ' ∧ σ.LeadsTo σ' ∧ C.Code σ' ρ' e' := by
  induction h with
  | here σ ρ e => exact ⟨hσ, .refl σ, he⟩
  | condition hhead hc _ ih =>
    exact ih (C.branch he hhead hc (ConditionalParts.condition_mem_expressions _)) hσ
  | branch hhead hc htest hv _ ih =>
    have hcondition := C.branch he hhead hc (ConditionalParts.condition_mem_expressions _)
    have hkept := evaluates htest hcondition hσ
    have hbranch := C.branch he hhead hc (ConditionalParts.chosen_mem_expressions hv)
    obtain ⟨hσ', hleads, he'⟩ := ih (C.code_later hbranch hkept.leadsTo) hkept.holds
    exact ⟨hσ', hkept.leadsTo.trans hleads, he'⟩
  | head hhead _ ih => exact ih (C.head he hhead) hσ
  | @argument σ σ₁ σ₂ σ' ρ ρ' head f v rest e' before vs hhead hf hbefore _ ih =>
    have hkept := evaluates hf (C.head he hhead) hσ
    have hmem : ∀ w, w ∈ before ∨ w = v → w ∈ (Value.chain before (.pair v rest)).unchain.1 := by
      intro w hw
      simpa [Value.unchain_chain, Value.unchain] using hw.imp_right .inl
    have hcode : ∀ w, w ∈ before ∨ w = v → C.Code σ₁ ρ w := fun w hw =>
      C.code_later (C.argument he hhead (hmem w hw)) hkept.leadsTo
    have hkept' := elementsEvaluate hbefore (by simpa using fun w hw => hcode w (.inl hw))
      (.inl (by simp)) hkept.holds
    obtain ⟨hσ', hleads, he'⟩ := ih (C.code_later (hcode v (.inr rfl)) hkept'.leadsTo) hkept'.holds
    exact ⟨hσ', hkept.leadsTo.trans (hkept'.leadsTo.trans hleads), he'⟩
  | body hcall hn _ ih =>
    obtain ⟨hσ₁, hleads, hf, hvs⟩ := applies hcall he hσ
    obtain ⟨henter, hbody⟩ := C.enter hσ₁ hf fun b hb => hvs b.2 (List.of_mem_zip hb).2
    obtain ⟨hσ', hleads', he'⟩ := ih hbody henter
    exact ⟨hσ', hleads.trans ((Store.LeadsTo.enter ..).trans hleads'), he'⟩

theorem passesThrough (h : PassesThrough σ ρ e σ') (he : C.Code σ ρ e) (hσ : C.Holds σ) :
    C.Holds σ' ∧ σ.LeadsTo σ' := by
  cases h with
  | start h =>
    obtain ⟨hσ', hleads, -⟩ := comesTo h he hσ
    exact ⟨hσ', hleads⟩
  | binding h hcall hn n =>
    obtain ⟨hσ₁, hleads, he₁⟩ := comesTo h he hσ
    obtain ⟨hσ₂, hleads', hf, hvs⟩ := applies hcall he₁ hσ₁
    obtain ⟨henter, -⟩ := C.enter hσ₂ hf fun b hb =>
      hvs b.2 (List.of_mem_zip (List.mem_of_mem_take hb)).2
    exact ⟨henter, hleads.trans (hleads'.trans (.enter ..))⟩
  | finish h hrun =>
    obtain ⟨hσ₁, hleads, he₁⟩ := comesTo h he hσ
    have hkept := evaluates hrun he₁ hσ₁
    exact ⟨hkept.holds, hleads.trans hkept.leadsTo⟩

/-- The contract that asks for nothing. -/
def free : Contract where
  Holds _ := True
  Values _ _ := True
  Code _ _ _ := True
  Allows _ := True
  values_later _ _ := trivial
  code_later _ _ := trivial
  binds _ _ _ _ _ := trivial
  newClosureId _ := trivial
  bind _ _ _ _ _ := trivial
  enter _ _ _ _ _ _ _ _ _ := ⟨trivial, trivial⟩
  number _ _ := trivial
  symbol _ _ := trivial
  nil _ := trivial
  constant _ _ := trivial
  quoted _ _ _ := trivial
  branch _ _ _ _ := trivial
  closure _ _ _ := trivial
  head _ _ := trivial
  argument _ _ _ := trivial
  allows _ := trivial
  proper _ := .inr fun _ => trivial

end Contract

theorem PassesThrough.leadsTo {σ σ' : Store} {ρ : ScopeId} {e : Value}
    (h : PassesThrough σ ρ e σ') : σ.LeadsTo σ' :=
  (Contract.passesThrough (C := .free) h trivial trivial).2

end ScopedLisp
