import ScopedLisp.Proofs.Evaluation.Run
import ScopedLisp.Proofs.Procedure.Faults
import ScopedLisp.Proofs.Procedure.Operands
import ScopedLisp.Proofs.Scoping.Closed

namespace ScopedLisp

open Store SpecialForm

/-- The error is that a name is bound nowhere. -/
def EvalError.IsUnbound : EvalError → Prop
  | undefinedVariable _ => True
  | _ => False

/-- A run from the store `σ` that ends with `r` and the store `σ'`: that store is closed, no name
has been lost and none missed, and a value is as `P` says. -/
structure Sound {α : Type} (N : Procedure → Prop) (P : Store → α → Prop) (σ : Store)
    (r : Except EvalError α) (σ' : Store) : Prop where
  closed : σ'.Closed N
  keepsNames : σ.KeepsNames σ'
  bound : OnlyFails (¬ ·.IsUnbound) r
  value : ∀ a, r = .ok a → P σ' a

namespace EvalM

/-- Runs of the computation from closed stores that bind what `σ₀` binds are sound. -/
def Safe {α : Type} (N : Procedure → Prop) (P : Store → α → Prop) (σ₀ : Store) (m : EvalM α) :
    Prop :=
  ∀ ⦃σ r σ'⦄, m σ = some (r, σ') → σ.Closed N → σ₀.KeepsNames σ → Sound N P σ r σ'

variable {α β : Type} {N : Procedure → Prop} {P : Store → α → Prop} {Q : Store → β → Prop}
  {σ₀ σ₁ : Store} {ρ : ScopeId}

theorem Safe.later {m : EvalM α} (hm : Safe N P σ₀ m) (hk : σ₀.KeepsNames σ₁) : Safe N P σ₁ m :=
  fun _ _ _ h hσ hk' => hm h hσ (hk.trans hk')

theorem safe_pure {a : α} (ha : ∀ σ, σ₀.KeepsNames σ → P σ a) :
    Safe N P σ₀ (pure a) := by
  intro σ r σ' h hσ hk
  cases h
  refine ⟨hσ, .refl σ, onlyFails_ok a, fun b hb => ?_⟩
  cases hb
  exact ha σ hk

theorem safe_ofExcept {outcome : Except EvalError α}
    (he : OnlyFails (¬ ·.IsUnbound) outcome)
    (ha : ∀ a, outcome = .ok a → ∀ σ, σ₀.KeepsNames σ → P σ a) :
    Safe N P σ₀ (ofExcept outcome) := by
  intro σ r σ' h hσ hk
  rw [ofExcept_apply] at h
  cases h
  exact ⟨hσ, .refl σ, he, fun a heq => ha a heq σ hk⟩

theorem safe_throw {e : EvalError} (he : ¬ e.IsUnbound) :
    Safe N P σ₀ (throw e) :=
  safe_ofExcept (onlyFails_error he) nofun

theorem safe_bind {m : EvalM α} {f : α → EvalM β} (hm : Safe N P σ₀ m)
    (hf : ∀ σ a, σ₀.KeepsNames σ → P σ a → Safe N Q σ (f a)) : Safe N Q σ₀ (m >>= f) := by
  intro σ r σ' h hσ hk
  rcases bind_eq_some_iff.1 h with ⟨e, hrun, rfl⟩ | ⟨a, σ₁, hrun, hrest⟩
  · have hs := hm hrun hσ hk
    exact ⟨hs.closed, hs.keepsNames, onlyFails_error (hs.bound e rfl), nofun⟩
  · have hs := hm hrun hσ hk
    have hs' := hf σ₁ a (hk.trans hs.keepsNames) (hs.value a rfl) hrest hs.closed (.refl σ₁)
    exact ⟨hs'.closed, hs.keepsNames.trans hs'.keepsNames, hs'.bound, hs'.value⟩

theorem safe_parts_bind {form : SpecialForm} {outcome : Except ShapeFault α} {f : α → EvalM β}
    (hf : ∀ a, outcome = .ok a → Safe N Q σ₀ (f a)) : Safe N Q σ₀ (parts form outcome >>= f) := by
  cases outcome with
  | error fault => exact safe_throw not_false
  | ok a => exact hf a rfl

theorem safe_lookup {x : String} (hx : σ₀.exists? ρ x) :
    Safe N (Value.HoldsClosed N) σ₀ (lookup ρ x) := by
  intro σ r σ' h hσ hk
  obtain ⟨v, hv⟩ := Option.isSome_iff_exists.1 (hk hx)
  rw [lookup_apply, lookupResult, hv] at h
  cases h
  refine ⟨hσ, .refl σ, onlyFails_ok v, fun w hw => ?_⟩
  cases hw
  exact hσ.get? hv

/-- Arguments are values in the store that evaluating the last of them leaves. -/
theorem safe_elements {evaluate : Value → EvalM Value} {args : Value}
    (h : ∀ v ∈ args.unchain.1, Safe N (Value.HoldsClosed N) σ₀ (evaluate v)) :
    Safe N (fun σ vs => ∀ v ∈ vs, v.HoldsClosed N σ) σ₀ (elements evaluate args []) := by
  induction args generalizing σ₀ with
  | nil => exact safe_pure fun σ _ => nofun
  | pair head tail _ ih =>
    rw [elements_pair]
    refine safe_bind (h head List.mem_cons_self) fun σ v hk hv => ?_
    have htail := ih fun w hw => (h w (List.mem_cons_of_mem _ hw)).later hk
    refine safe_bind htail fun σ' vs hk' hvs => safe_pure fun σ'' hk'' => ?_
    exact List.forall_mem_cons.2 ⟨hv.mono (hk'.trans hk''), fun w hw => (hvs w hw).mono hk''⟩
  | _ => exact safe_throw not_false

theorem safe_newClosure {name : Option String} {l : LambdaParts}
    (hfree : ∀ x ∈ l.body.freeNames, x ∈ l.params ∨ σ₀.exists? ρ x)
    (hbody : l.body.HoldsClosed N σ₀) :
    Safe N (Value.HoldsClosed N) σ₀ (newClosure name l ρ) := by
  intro σ r σ' h hσ hk
  rw [newClosure_apply] at h
  cases h
  have hnew := hk.trans (keepsNames_newClosureId σ)
  refine ⟨hσ.newClosureId, keepsNames_newClosureId σ, onlyFails_ok _, fun v hv => ?_⟩
  cases hv
  exact ⟨fun x hx => (hfree x hx).imp_right fun h => hnew h, hbody.mono hnew⟩

/-- The body of a definition may look up the name that is defined: the closure is out of reach until
it has been bound to that name. -/
theorem safe_define {d : DefunParts}
    (hfree : ∀ x ∈ d.definition.body.freeNames,
      x = d.name ∨ x ∈ d.definition.params ∨ σ₀.exists? ρ x)
    (hbody : d.definition.body.HoldsClosed N σ₀) :
    Safe N (Value.HoldsClosed N) σ₀ (do
      let f ← newClosure (some d.name) d.definition ρ
      modify (·.bind ρ d.name f)
      return .symbol d.name) := by
  intro σ r σ' h hσ hk
  cases h
  have hbind := (keepsNames_newClosureId σ).trans (keepsNames_bind σ.newClosureId.2 ρ d.name
    (.closure σ.closures (some d.name) d.definition.params d.definition.body ρ))
  refine ⟨hσ.newClosureId.bind fun hρ => ⟨fun x hx => ?_, hbody.mono (hk.trans hbind)⟩, hbind,
    onlyFails_ok _, fun v hv => ?_⟩
  · rcases hfree x hx with rfl | hx | hx
    · exact .inr (exists?_bind_self hρ d.name _)
    · exact .inl hx
    · exact .inr (hbind (hk hx))
  · cases hv
    trivial

end EvalM

/-- Evaluating the expression in the scope `ρ` looks up no name in vain, and meets closed closures
only. -/
structure Value.Ready (N : Procedure → Prop) (σ : Store) (ρ : ScopeId) (e : Value) : Prop where
  closedIn : e.ClosedIn σ ρ
  holdsClosed : e.HoldsClosed N σ

namespace Value.Ready

variable {N : Procedure → Prop} {σ σ' : Store} {ρ : ScopeId}

theorem later {e : Value} (h : e.Ready N σ ρ) (hk : σ.KeepsNames σ') : e.Ready N σ' ρ :=
  ⟨fun x hx => hk (h.closedIn x hx), h.holdsClosed.mono hk⟩

theorem head {head args : Value} (h : (pair head args).Ready N σ ρ)
    (hhead : ofHead? head = none) : head.Ready N σ ρ :=
  ⟨fun x hx => h.closedIn x ((mem_freeNames_application hhead).2 (.inl hx)), h.holdsClosed.1⟩

theorem argument {head args v : Value} (h : (pair head args).Ready N σ ρ)
    (hhead : ofHead? head = none) (hv : v ∈ args.unchain.1) : v.Ready N σ ρ :=
  ⟨fun x hx => h.closedIn x ((mem_freeNames_application hhead).2 (.inr ⟨v, hv, hx⟩)),
    h.holdsClosed.2.part (partOf_of_mem_unchain hv)⟩

theorem branch {head args v : Value} {c : ConditionalParts} (h : (pair head args).Ready N σ ρ)
    (hhead : ofHead? head = some .conditional) (hc : conditionalParts args = .ok c)
    (hv : v ∈ c.expressions) : v.Ready N σ ρ :=
  ⟨fun x hx => h.closedIn x ((mem_freeNames_conditional hhead hc).2 ⟨v, hv, hx⟩),
    h.holdsClosed.2.part (expressions_partOf hc hv)⟩

end Value.Ready

namespace EvalM

variable {N : Procedure → Prop} {σ₀ : Store} {ρ : ScopeId}

theorem safe_evalForm {evaluate : Value → EvalM Value} {head args : Value} {form : SpecialForm}
    (hhead : ofHead? head = some form) (h : (Value.pair head args).Ready N σ₀ ρ)
    (heval : ∀ σ v, v.Ready N σ ρ → Safe N (Value.HoldsClosed N) σ (evaluate v)) :
    Safe N (Value.HoldsClosed N) σ₀ (evalForm evaluate ρ args form) := by
  have hargs : args.HoldsClosed N σ₀ := h.holdsClosed.2
  cases form with
  | quote =>
    have hquote : evalForm evaluate ρ args .quote = parts .quote (quotedPart args) >>= pure :=
      (bind_pure _).symm
    rw [hquote]
    refine safe_parts_bind fun v hv => safe_pure fun σ hk => ?_
    exact (hargs.part (quotedPart_partOf hv)).mono hk
  | conditional =>
    rw [evalForm_conditional]
    refine safe_parts_bind fun c hc => ?_
    have hready := fun {v} (hv : v ∈ c.expressions) => h.branch hhead hc hv
    refine safe_bind (heval σ₀ _ (hready c.condition_mem_expressions)) fun σ test hk _ => ?_
    split
    · next v hv =>
      exact heval σ v ((hready (ConditionalParts.chosen_mem_expressions hv)).later hk)
    · exact safe_pure fun _ _ => trivial
  | lambda =>
    rw [evalForm_lambda]
    refine safe_parts_bind fun l hl => ?_
    refine safe_newClosure (fun x hx => ?_) (hargs.part (lambdaParts_body_partOf hl))
    by_cases hparam : x ∈ l.params
    · exact .inl hparam
    · exact .inr (h.closedIn x ((Value.mem_freeNames_lambda hhead hl).2 ⟨hx, hparam⟩))
  | defun =>
    rw [evalForm_defun]
    refine safe_parts_bind fun d hd => ?_
    refine safe_define (fun x hx => ?_) (hargs.part (defunParts_body_partOf hd))
    by_cases hname : x = d.name
    · exact .inl hname
    by_cases hparam : x ∈ d.definition.params
    · exact .inr (.inl hparam)
    · have hfree := (Value.mem_freeNames_defun hhead hd).2 ⟨hx, hname, hparam⟩
      exact .inr (.inr (h.closedIn x hfree))

/-- The body of a call is evaluated in the frame of the call, where its free names are bound: they
are parameters, or bound around the closure. -/
theorem safe_apply {ext : Embedding} {limit : Nat} {f : Value} {args : List Value}
    (heval : ∀ σ ρ e, e.Ready Procedure.IsArithmetic σ ρ →
      Safe Procedure.IsArithmetic (Value.HoldsClosed Procedure.IsArithmetic) σ
        (eval ext limit ρ e))
    (hf : f.HoldsClosed Procedure.IsArithmetic σ₀)
    (hargs : ∀ v ∈ args, v.HoldsClosed Procedure.IsArithmetic σ₀) :
    Safe Procedure.IsArithmetic (Value.HoldsClosed Procedure.IsArithmetic) σ₀
      (apply ext (limit + 1) f args) := by
  cases f with
  | closure id name params body scope =>
    by_cases hn : args.length = params.length
    · intro σ r σ' h hσ hk
      rw [apply_closure ext limit id name body scope hn] at h
      have henter := (Keeps.enter σ scope (params.zip args)).keepsNames
      have hbody : body.Ready Procedure.IsArithmetic (σ.enter scope (params.zip args))
          σ.scopes.size := by
        refine ⟨fun x hx => ?_, hf.2.mono (hk.trans henter)⟩
        exact exists?_enter_frame hn ((hf.1 x hx).imp_right fun h => hk h)
      have hclosed := hσ.enter scope params fun v hv => (hargs v hv).mono hk
      have hs := heval _ _ body hbody h hclosed (.refl _)
      exact ⟨hs.closed, henter.trans hs.keepsNames, hs.bound, hs.value⟩
    · rw [apply, if_neg hn]
      exact safe_throw not_false
  | native label procedure =>
    obtain ⟨op, rfl⟩ : procedure.IsArithmetic := hf
    refine safe_ofExcept (fun e he => ?_) fun v hv σ _ => ?_
    · cases op.onlyFails_apply args e he <;> exact not_false
    · obtain ⟨x, rfl⟩ := Arithmetic.apply_eq_number hv
      trivial
  | _ => exact safe_throw not_false

end EvalM

open EvalM

/-- One induction for both: an evaluation applies what it has evaluated, an application evaluates a
body. -/
theorem eval_apply_safe (ext : Embedding) (limit : Nat) :
    (∀ σ₀ ρ e, e.Ready Procedure.IsArithmetic σ₀ ρ →
      Safe Procedure.IsArithmetic (Value.HoldsClosed Procedure.IsArithmetic) σ₀
        (eval ext limit ρ e)) ∧
    ∀ σ₀ f args, f.HoldsClosed Procedure.IsArithmetic σ₀ →
      (∀ v ∈ args, v.HoldsClosed Procedure.IsArithmetic σ₀) →
      Safe Procedure.IsArithmetic (Value.HoldsClosed Procedure.IsArithmetic) σ₀
        (apply ext limit f args) := by
  induction limit with
  | zero => exact ⟨fun _ _ _ _ => nofun, fun _ _ _ _ _ => nofun⟩
  | succ limit ih =>
    obtain ⟨ihe, iha⟩ := ih
    refine ⟨fun σ₀ ρ e he => ?_, fun σ₀ f args hf hargs => safe_apply ihe hf hargs⟩
    match e with
    | .symbol x => exact safe_lookup (he.closedIn x (List.mem_singleton_self x))
    | .pair head args =>
      cases hhead : ofHead? head with
      | some form =>
        rw [eval_form ext limit ρ hhead]
        exact safe_evalForm hhead he fun σ v hv => ihe σ ρ v hv
      | none =>
        rw [eval_application ext limit ρ hhead]
        refine safe_bind (ihe σ₀ ρ head (he.head hhead)) fun σ f hk hf => ?_
        have hargs := safe_elements fun v hv =>
          ihe σ ρ v ((he.argument hhead hv).later hk)
        exact safe_bind hargs fun σ' vs hk' hvs => iha σ' f vs (hf.mono hk') hvs
    | .number _ | .string _ | .boolean _ | .nil | .closure .. | .native .. =>
      exact safe_pure fun σ hk => he.holdsClosed.mono hk

/-- In a closed store whose native procedures are arithmetic, evaluating an expression that is
closed in a scope, and holds closed closures only, never fails because a name is bound nowhere. It
leaves a closed store, whether it has a value or an error, and its value holds closed closures. -/
theorem closed_code_misses_no_name (ext : Embedding) (limit : Nat) {σ : Store} {ρ : ScopeId}
    {e : Value} (hσ : σ.Closed Procedure.IsArithmetic) (he : e.ClosedIn σ ρ)
    (hclosures : e.HoldsClosed Procedure.IsArithmetic σ) {r : Except EvalError Value} {σ' : Store}
    (hrun : eval ext limit ρ e σ = some (r, σ')) :
    (∀ x, r ≠ .error (.undefinedVariable x)) ∧ σ'.Closed Procedure.IsArithmetic ∧
      ∀ v, r = .ok v → v.HoldsClosed Procedure.IsArithmetic σ' := by
  have hs := (eval_apply_safe ext limit).1 σ ρ e ⟨he, hclosures⟩ hrun hσ (.refl σ)
  exact ⟨fun x hr => hs.bound _ hr trivial, hs.closed, hs.value⟩

/-- `(if rest (last rest nil) x)` -/
private def lastBody : Value :=
  .list [.symbol "if", .symbol "rest", .list [.symbol "last", .symbol "rest", .nil], .symbol "x"]

/-- `(defun last (x rest) (if rest (last rest nil) x))` -/
private def definesLast : Value :=
  .list [.symbol "defun", .symbol "last", .list [.symbol "x", .symbol "rest"], lastBody]

private def withLast : Store :=
  empty.newGlobal.2.newClosureId.2.bind 0 "last"
    (.closure 0 (some "last") ["x", "rest"] lastBody 0)

/-- `((last 1 2))`, which calls the number that the inner call gives. -/
private def callsLast : Value := .list [.list [.symbol "last", .number 1, .number 2]]

/-- A definition that looks its own name up, and a call of it that fails after the recursion. -/
theorem recursive_definition_misses_no_name :
    eval .empty 1 0 definesLast empty.newGlobal.2 = some (.ok (.symbol "last"), withLast) ∧
      withLast.Closed Procedure.IsArithmetic ∧
      ∃ e σ, e = .notCallable "2" ∧ eval .empty 8 0 callsLast withLast = some (.error e, σ) ∧
        (∀ x, (Except.error e : Except EvalError Value) ≠ .error (.undefinedVariable x)) ∧
        σ.Closed Procedure.IsArithmetic := by
  have hdefine : eval .empty 1 0 definesLast empty.newGlobal.2 =
      some (.ok (.symbol "last"), withLast) := rfl
  have hdefined := closed_code_misses_no_name .empty 1
    (closed_empty Procedure.IsArithmetic).newGlobal (show definesLast.ClosedIn _ _ by nofun)
    (by simp [definesLast, lastBody, Value.HoldsClosed]) hdefine
  have hnames : callsLast.ClosedIn withLast 0 := by decide +kernel
  have hfails : (eval .empty 8 0 callsLast withLast).map Prod.fst =
      some (.error (.notCallable "2")) := by decide +kernel
  obtain ⟨⟨r, σ⟩, hcall, rfl⟩ := Option.map_eq_some_iff.1 hfails
  have hcalled := closed_code_misses_no_name .empty 8 hdefined.2.1 hnames
    (by simp [callsLast, Value.HoldsClosed]) hcall
  exact ⟨hdefine, hdefined.2.1, _, σ, rfl, hcall, hcalled.1, hcalled.2.1⟩

end ScopedLisp
