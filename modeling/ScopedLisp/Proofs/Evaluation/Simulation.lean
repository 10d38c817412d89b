import ScopedLisp.Proofs.Evaluation.Run
import ScopedLisp.Proofs.Relation
import ScopedLisp.Proofs.Value.Alike

/-!
Two runs side by side. A pairing says which stores and which closures of the two runs belong
together; it may come to know more while they go on, since both add scopes. The evaluator's
recursion is followed once for all pairings: a simulation owes that related expressions have related
parts, that the frames of two related closures make their bodies related, and what native procedures
do.
-/

namespace ScopedLisp

/-- What is known of two runs is a world, and `Le` leads to worlds in which more is known. -/
structure Pairing where
  World : Type
  Le : World → World → Prop
  Stores : World → Store → Store → Prop
  Closures : World → Value.ClosureRel
  Native : Procedure → Prop
  refl (w : World) : Le w w
  trans {w w₁ w₂ : World} (h : Le w w₁) (h₁ : Le w₁ w₂) : Le w w₂
  closures_mono {w w₁ : World} (h : Le w w₁) {params : List String} {body body' : Value}
    {scope scope' : ScopeId} (hc : Closures w params body scope body' scope') :
    Closures w₁ params body scope body' scope'

namespace Pairing

variable {P : Pairing} {w w₁ : P.World} {α α' β β' : Type}

def Values (P : Pairing) (w : P.World) : Value → Value → Prop :=
  Value.Alike (P.Closures w) P.Native

theorem Values.mono {v v' : Value} (hv : P.Values w v v') (h : P.Le w w₁) : P.Values w₁ v v' :=
  Value.Alike.mono hv (fun _ _ _ _ _ hc => P.closures_mono h hc) fun _ hp => hp

/-- From stores that belong together the first computation has an outcome if the second has, and
then the stores they leave belong together and the outcomes agree up to `R`. -/
def Beside (P : Pairing) (w : P.World) (R : P.World → α → β → Prop) (m : EvalM α)
    (m' : EvalM β) : Prop :=
  ∀ ⦃σ σ'⦄, P.Stores w σ σ' → Option.Rel (fun outcome outcome' => ∃ w₁, P.Le w w₁ ∧
    P.Stores w₁ outcome.2 outcome'.2 ∧ Agree (R w₁) outcome.1 outcome'.1) (m σ) (m' σ')

theorem beside_pure {R : P.World → α → β → Prop} {a : α} {b : β} (h : R w a b) :
    P.Beside w R (pure a) (pure b) :=
  fun _ _ hσ => .some ⟨w, P.refl w, hσ, .ok h⟩

theorem beside_throw {R : P.World → α → β → Prop} (e : EvalError) :
    P.Beside w R (throw e) (throw e) :=
  fun _ _ hσ => .some ⟨w, P.refl w, hσ, .error e⟩

theorem Beside.bind {R : P.World → α → β → Prop} {S : P.World → α' → β' → Prop} {m : EvalM α}
    {m' : EvalM β} {f : α → EvalM α'} {f' : β → EvalM β'} (h : P.Beside w R m m')
    (hrest : ∀ w₁ a b, P.Le w w₁ → R w₁ a b → P.Beside w₁ S (f a) (f' b)) :
    P.Beside w S (m >>= f) (m' >>= f') := by
  intro σ σ' hσ
  rw [EvalM.bind_apply, EvalM.bind_apply]
  generalize m σ = outcome, m' σ' = outcome', h hσ = hfirst
  cases hfirst with
  | none => exact .none
  | @some outcome outcome' hfirst =>
    obtain ⟨r, σ₁⟩ := outcome
    obtain ⟨r', σ₁'⟩ := outcome'
    obtain ⟨w₁, hle, hσ₁, hagree⟩ := hfirst
    cases hagree with
    | error e => exact .some ⟨w₁, hle, hσ₁, .error e⟩
    | ok hab =>
      exact (hrest w₁ _ _ hle hab hσ₁).mono fun _ _ ⟨w₂, hle₁, h⟩ => ⟨w₂, P.trans hle hle₁, h⟩

theorem beside_parts_bind {S : P.World → α' → β' → Prop} {form : SpecialForm}
    {result : Except ShapeFault α} {f : α → EvalM α'} {f' : α → EvalM β'}
    (h : ∀ a, result = .ok a → P.Beside w S (f a) (f' a)) :
    P.Beside w S (EvalM.parts form result >>= f) (EvalM.parts form result >>= f') := by
  cases result with
  | error fault => exact beside_throw _
  | ok a => exact h a rfl

/-- Chains of related elements in front of the same tail. -/
inductive Chains (C : Value → Value → Prop) : Value → Value → Prop
  | pair {head head' tail tail' : Value} (hhead : C head head') (htail : Chains C tail tail') :
      Chains C (.pair head tail) (.pair head' tail')
  | tail {v : Value} (hv : v.kind ≠ .pair) : Chains C v v

theorem chains_self {C : Value → Value → Prop} {args : Value}
    (h : ∀ e ∈ args.unchain.1, C e e) : Chains C args args := by
  induction args with
  | pair head tail _ ih =>
    refine .pair (h head (by simp [Value.unchain])) (ih fun e he => ?_)
    exact h e (by simp [Value.unchain, he])
  | _ => exact .tail (by simp [Value.kind])

theorem Chains.mono_mem {C D : Value → Value → Prop} {args args' : Value}
    (h : Chains C args args') (hCD : ∀ e e', e ∈ args.unchain.1 → C e e' → D e e') :
    Chains D args args' := by
  induction h with
  | pair hhead _ ih =>
    exact .pair (hCD _ _ (by simp [Value.unchain]) hhead)
      (ih fun e e' he => hCD e e' (by simp [Value.unchain, he]))
  | tail hv => exact .tail hv

theorem Chains.beside_elements {C : Value → Value → Prop} {evaluate evaluate' : Value → EvalM Value}
    {args args' : Value} (hargs : Chains C args args')
    (h : ∀ e e', C e e' → ∀ w₁, P.Le w w₁ → P.Beside w₁ P.Values (evaluate e) (evaluate' e')) :
    P.Beside w (fun w₁ => List.Forall₂ (P.Values w₁)) (EvalM.elements evaluate args [])
      (EvalM.elements evaluate' args' []) := by
  induction hargs generalizing w with
  | pair hhead _ ih =>
    rw [EvalM.elements_pair, EvalM.elements_pair]
    refine (h _ _ hhead w (P.refl w)).bind fun w₁ v v' hle hv => ?_
    have htail := ih fun e e' he w₂ hle₁ => h e e' he w₂ (P.trans hle hle₁)
    exact htail.bind fun w₂ vs vs' hle₁ hvs => beside_pure (.cons (hv.mono hle₁) hvs)
  | @tail v hv =>
    cases v with
    | nil => exact beside_pure .nil
    | pair => exact absurd rfl hv
    | _ => exact beside_throw _

theorem beside_arithmetic (ext : Embedding) (limit : Nat) (label : String) (op : Arithmetic)
    {vs vs' : List Value} (hvs : List.Forall₂ (P.Values w) vs vs') :
    P.Beside w P.Values (apply ext (limit + 1) (.native label (.arithmetic op)) vs)
      (apply ext (limit + 1) (.native label (.arithmetic op)) vs') := by
  intro σ σ' hσ
  have hsame : op.apply vs = op.apply vs' :=
    op.apply_congr (hvs.imp fun _ _ h => Value.Alike.sameOperand h)
  rw [apply, apply, EvalM.ofExcept_apply, EvalM.ofExcept_apply, hsame]
  cases hr : op.apply vs' with
  | error e => exact .some ⟨w, P.refl w, hσ, .error e⟩
  | ok v =>
    obtain ⟨x, rfl⟩ := Arithmetic.apply_eq_number hr
    exact .some ⟨w, P.refl w, hσ, .ok (.number x)⟩

/-- How two expressions that are evaluated in the scopes `ρ` and `ρ'` may look: their outcomes are
known without those of their parts, or they are of one form and have parts related by `C`. -/
inductive Forms (P : Pairing) (ext : Embedding) (w : P.World) (ρ ρ' : ScopeId)
    (C : Value → Value → Prop) : Value → Value → Prop
  | leaf {e e' : Value} (h : ∀ limit, P.Beside w P.Values (eval ext (limit + 1) ρ e)
      (eval ext (limit + 1) ρ' e')) : Forms P ext w ρ ρ' C e e'
  | conditional {head args args' : Value} {c c' : SpecialForm.ConditionalParts}
      (hhead : SpecialForm.ofHead? head = some .conditional)
      (hc : SpecialForm.conditionalParts args = .ok c)
      (hc' : SpecialForm.conditionalParts args' = .ok c')
      (hcondition : C c.condition c'.condition) (hconsequent : C c.consequent c'.consequent)
      (halternative : Option.Rel C c.alternative c'.alternative) :
      Forms P ext w ρ ρ' C (.pair head args) (.pair head args')
  | application {head head' args args' : Value} (hform : SpecialForm.ofHead? head = none)
      (hform' : SpecialForm.ofHead? head' = none) (hhead : C head head')
      (hargs : Chains C args args') :
      Forms P ext w ρ ρ' C (.pair head args) (.pair head' args')

end Pairing

structure Simulation (ext : Embedding) extends Pairing where
  /-- The expressions are to be evaluated beside each other in these two scopes. -/
  Code : World → ScopeId → ScopeId → Value → Value → Prop
  code_mono {w w₁ : World} (h : Le w w₁) {ρ ρ' : ScopeId} {e e' : Value} (he : Code w ρ ρ' e e') :
    Code w₁ ρ ρ' e e'
  form {w : World} {ρ ρ' : ScopeId} {e e' : Value} (he : Code w ρ ρ' e e') :
    toPairing.Forms ext w ρ ρ' (Code w ρ ρ') e e'
  enter {w : World} {σ σ' : Store} {params : List String} {body body' : Value}
    {scope scope' : ScopeId} {vs vs' : List Value} (hσ : Stores w σ σ')
    (hc : Closures w params body scope body' scope')
    (hvs : List.Forall₂ (toPairing.Values w) vs vs') (hn : vs.length = params.length) :
    ∃ w₁, Le w w₁ ∧
      Stores w₁ (σ.enter scope (params.zip vs)) (σ'.enter scope' (params.zip vs')) ∧
      Code w₁ σ.scopes.size σ'.scopes.size body body'
  native {w : World} {p : Procedure} (hp : Native p) (label : String) {limit : Nat}
    (ih : ∀ {w f f' vs vs'}, toPairing.Values w f f' → List.Forall₂ (toPairing.Values w) vs vs' →
      toPairing.Beside w toPairing.Values (apply ext limit f vs) (apply ext limit f' vs'))
    {vs vs' : List Value} (hvs : List.Forall₂ (toPairing.Values w) vs vs') :
    toPairing.Beside w toPairing.Values (apply ext (limit + 1) (.native label p) vs)
      (apply ext (limit + 1) (.native label p) vs')

namespace Simulation

open Pairing

variable {ext : Embedding} (S : Simulation ext)

/-- One step of the evaluator, by the form of the two expressions. -/
theorem eval_succ_beside {limit : Nat}
    (iheval : ∀ {w ρ ρ' e e'}, S.Code w ρ ρ' e e' →
      S.Beside w S.Values (eval ext limit ρ e) (eval ext limit ρ' e'))
    (ihapply : ∀ {w f f' vs vs'}, S.Values w f f' → List.Forall₂ (S.Values w) vs vs' →
      S.Beside w S.Values (apply ext limit f vs) (apply ext limit f' vs'))
    {w : S.World} {ρ ρ' : ScopeId} {e e' : Value} (he : S.Code w ρ ρ' e e') :
    S.Beside w S.Values (eval ext (limit + 1) ρ e) (eval ext (limit + 1) ρ' e') := by
  cases S.form he with
  | leaf h => exact h limit
  | @conditional head args args' c c' hhead hc hc' hcondition hconsequent halternative =>
    rw [eval_form ext limit ρ hhead, eval_form ext limit ρ' hhead, evalForm_conditional,
      evalForm_conditional, hc, hc']
    refine (iheval hcondition).bind fun w₁ v v' hle hv => ?_
    have hchosen : Option.Rel (S.Code w ρ ρ') (c.chosen v) (c'.chosen v') := by
      rw [SpecialForm.ConditionalParts.chosen, SpecialForm.ConditionalParts.chosen,
        Value.Alike.isTruthy hv]
      split
      · exact .some hconsequent
      · exact halternative
    generalize c.chosen v = branch, c'.chosen v' = branch' at hchosen
    cases hchosen with
    | some hbranch => exact iheval (S.code_mono hle hbranch)
    | none => exact beside_pure .nil
  | application hform hform' hhead hargs =>
    rw [eval_application ext limit ρ hform, eval_application ext limit ρ' hform']
    refine (iheval hhead).bind fun w₁ f f' hle hf => ?_
    have helements := hargs.beside_elements (P := S.toPairing) (w := w₁) fun e e' he w₂ hle₁ =>
      iheval (S.code_mono (S.trans hle hle₁) he)
    exact helements.bind fun w₂ vs vs' hle₁ hvs => ihapply (hf.mono hle₁) hvs

theorem apply_succ_beside {limit : Nat}
    (iheval : ∀ {w ρ ρ' e e'}, S.Code w ρ ρ' e e' →
      S.Beside w S.Values (eval ext limit ρ e) (eval ext limit ρ' e'))
    (ihapply : ∀ {w f f' vs vs'}, S.Values w f f' → List.Forall₂ (S.Values w) vs vs' →
      S.Beside w S.Values (apply ext limit f vs) (apply ext limit f' vs'))
    {w : S.World} {f f' : Value} {vs vs' : List Value} (hf : S.Values w f f')
    (hvs : List.Forall₂ (S.Values w) vs vs') :
    S.Beside w S.Values (apply ext (limit + 1) f vs) (apply ext (limit + 1) f' vs') := by
  cases hf with
  | @closure params body body' scope scope' hc id id' name =>
    intro σ σ' hσ
    by_cases hn : vs.length = params.length
    · rw [apply_closure ext limit id name body scope hn,
        apply_closure ext limit id' name body' scope' (hvs.length_eq ▸ hn)]
      obtain ⟨w₁, hle, hσ₁, hbody⟩ := S.enter hσ hc hvs hn
      exact (iheval hbody hσ₁).mono fun _ _ ⟨w₂, hle₁, h⟩ => ⟨w₂, S.trans hle hle₁, h⟩
    · rw [apply_closure_arity ext limit id name body scope hn,
        apply_closure_arity ext limit id' name body' scope' (hvs.length_eq ▸ hn), hvs.length_eq]
      exact .some ⟨w, S.refl w, hσ, .error _⟩
  | native hp label => exact S.native hp label ihapply hvs
  | @pair a b a' b' ha hb =>
    have htext : (Value.pair a b).text = (Value.pair a' b').text :=
      (Value.Alike.pair ha hb).text
    rw [apply_not_callable ext limit (by simp [Value.kind]) (by simp [Value.kind]),
      apply_not_callable ext limit (by simp [Value.kind]) (by simp [Value.kind]), htext]
    exact beside_throw _
  | _ => exact beside_throw _

/-- Related expressions and related callables have the same outcome at every limit, and leave stores
that belong together. -/
theorem eval_apply_beside (limit : Nat) :
    (∀ {w ρ ρ' e e'}, S.Code w ρ ρ' e e' →
      S.Beside w S.Values (eval ext limit ρ e) (eval ext limit ρ' e')) ∧
    ∀ {w f f' vs vs'}, S.Values w f f' → List.Forall₂ (S.Values w) vs vs' →
      S.Beside w S.Values (apply ext limit f vs) (apply ext limit f' vs') := by
  induction limit with
  | zero => exact ⟨fun _ _ _ _ => .none, fun _ _ _ _ _ => .none⟩
  | succ limit ih =>
    exact ⟨S.eval_succ_beside ih.1 ih.2, S.apply_succ_beside ih.1 ih.2⟩

end Simulation

end ScopedLisp
