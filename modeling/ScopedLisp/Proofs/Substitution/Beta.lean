import ScopedLisp.Proofs.Evaluation.Limit
import ScopedLisp.Proofs.Substitution.Code

namespace ScopedLisp

open EvalM Pairing

namespace Redex

def pairing (b : Redex) : Pairing where
  World := List Mode
  Le := (· <+: ·)
  Stores := b.Stores
  Closures := b.Closures
  Native := Procedure.IsArithmetic
  refl := List.prefix_refl
  trans := List.IsPrefix.trans
  closures_mono h _ _ _ _ _ hc := Redex.Closures.mono hc h

/-- What is evaluated from the call on is old code in new frames. -/
def Code (b : Redex) (w : List Mode) (ρ ρ' : ScopeId) (e e' : Value) : Prop :=
  ∃ m, b.Linked w ρ ρ' m ∧ b.frame ≤ ρ ∧ b.IsOld e ∧ b.Corresponds m e e'

variable {b : Redex} {w : List Mode} {ρ ρ' : ScopeId} {m : Mode} {ext : Embedding} {limit : Nat}

theorem beside_old {v : Value} (hv : b.IsOld v) :
    b.pairing.Beside w b.pairing.Values (pure v) (pure v) :=
  beside_pure (P := b.pairing) (values_self hv)

theorem beside_lookup (h : b.Linked w ρ ρ' m) {x : String} (hx : m = .inside → x ≠ b.name) :
    b.pairing.Beside w b.pairing.Values (lookup ρ x) (lookup ρ' x) := by
  intro σ σ' hσ
  have hrel := (hσ.means h).others x hx
  rw [lookup_apply, lookup_apply, lookupResult, lookupResult]
  generalize σ.get? ρ x = v, σ'.get? ρ' x = v' at hrel
  cases hrel with
  | some hv => exact .some ⟨w, List.prefix_refl w, hσ, .ok hv⟩
  | none => exact .some ⟨w, List.prefix_refl w, hσ, .error _⟩

theorem beside_argument (h : b.Linked w ρ ρ' .inside) :
    b.pairing.Beside w b.pairing.Values (lookup ρ b.name) (pure b.argument) := by
  intro σ σ' hσ
  rw [lookup_apply, lookupResult, (hσ.means h).argument rfl]
  exact .some ⟨w, List.prefix_refl w, hσ, .ok (values_self b.within)⟩

theorem beside_newClosure (h : b.Linked w ρ ρ' m) (name : Option String)
    {l l' : SpecialForm.LambdaParts} (hparams : l'.params = l.params) (hbody : b.IsOld l.body)
    (hcode : b.Corresponds (b.inner m l.params) l.body l'.body) :
    b.pairing.Beside w b.pairing.Values (newClosure name l ρ) (newClosure name l' ρ') := by
  intro σ σ' hσ
  rw [newClosure_apply, newClosure_apply, hparams]
  exact .some ⟨w, List.prefix_refl w, hσ.newClosureId,
    .ok (.closure ⟨m, h, hbody, hcode⟩ _ _ name)⟩

theorem beside_quote (args : Value) (hargs : b.IsOld args) :
    b.pairing.Beside w b.pairing.Values (evalForm (eval ext limit ρ) ρ args .quote)
      (evalForm (eval ext limit ρ') ρ' args .quote) := by
  have hquote : ∀ ρ, evalForm (eval ext limit ρ) ρ args .quote =
      parts .quote (SpecialForm.quotedPart args) >>= pure := fun _ => (bind_pure _).symm
  rw [hquote, hquote]
  exact beside_parts_bind fun v hv => beside_old (hargs.part (SpecialForm.quotedPart_partOf hv))

/-- A definition is evaluated in a frame of a later call only, and outside. -/
theorem beside_defun (h : b.Linked w ρ ρ' .outside) (hnew : b.frame ≤ ρ) {args : Value}
    (hargs : b.IsOld args) :
    b.pairing.Beside w b.pairing.Values (evalForm (eval ext limit ρ) ρ args .defun)
      (evalForm (eval ext limit ρ') ρ' args .defun) := by
  rw [evalForm_defun, evalForm_defun]
  refine beside_parts_bind fun d hd => ?_
  have hbody := hargs.part (SpecialForm.defunParts_body_partOf hd)
  have hclosure := beside_newClosure h (some d.name) rfl hbody (corresponds_inner_outside _ _)
  refine hclosure.bind fun w₁ f f' hw hf => ?_
  cases h with
  | old hρ => exact absurd (b.region.size hρ) (Nat.not_lt_of_le hnew)
  | later hi =>
    intro σ σ' hσ
    obtain ⟨more, rfl⟩ := hw
    rw [← List.getElem?_append_left (List.getElem?_eq_some_iff.1 hi).1] at hi
    exact .some ⟨_, List.prefix_refl _, hσ.bind hi d.name hf, .ok (.symbol d.name)⟩

theorem Code.forms {e e' : Value} (h : b.Code w ρ ρ' e e') :
    b.pairing.Forms ext w ρ ρ' (b.Code w ρ ρ') e e' := by
  obtain ⟨m, hlinked, hnew, he, hcode⟩ := h
  have hpart : ∀ {part part'}, part.PartOf e → b.Corresponds m part part' →
      b.Code w ρ ρ' part part' := fun hpart h => ⟨m, hlinked, hnew, he.part hpart, h⟩
  cases e with
  | symbol x =>
    refine .leaf fun limit => ?_
    rcases corresponds_symbol hcode with ⟨rfl, hx⟩ | ⟨rfl, rfl, rfl⟩
    · exact beside_lookup hlinked hx
    · exact beside_argument hlinked
  | pair head args =>
    have hargs : b.IsOld args := he.part (.tail .self head)
    cases hform : SpecialForm.ofHead? head with
    | none =>
      obtain ⟨head', args', rfl, hform', hhead, hchains⟩ := corresponds_application hform hcode
      refine .application hform hform' (hpart (.head .self args) hhead) ?_
      exact hchains.mono_mem fun part part' hmem hpart' =>
        hpart (.tail (Value.partOf_of_mem_unchain hmem) head) hpart'
    | some form =>
      cases form with
      | quote =>
        rw [corresponds_quote hform hcode]
        refine .leaf fun limit => ?_
        rw [eval_form ext limit ρ hform, eval_form ext limit ρ' hform]
        exact beside_quote args hargs
      | conditional =>
        cases hc : SpecialForm.conditionalParts args with
        | ok c =>
          obtain ⟨args', c', rfl, hc', hcondition, hconsequent, halternative⟩ :=
            corresponds_conditional hform hc hcode
          have hmem : ∀ {part}, part ∈ c.expressions → part.PartOf (.pair head args) :=
            fun h => .tail (SpecialForm.expressions_partOf hc h) head
          refine .conditional hform hc hc' (hpart (hmem c.condition_mem_expressions) hcondition)
            (hpart (hmem c.consequent_mem_expressions) hconsequent) ?_
          have hrest : ∀ {part}, c.alternative = some part → part.PartOf (.pair head args) :=
            fun h => hmem (SpecialForm.ConditionalParts.alternative_mem_expressions h)
          generalize c.alternative = alternative, c'.alternative = alternative' at *
          cases halternative with
          | none => exact .none
          | some h => exact .some (hpart (hrest rfl) h)
        | error fault =>
          rw [corresponds_malformed_conditional hform hc hcode]
          refine .leaf fun limit => ?_
          rw [eval_form ext limit ρ hform, eval_form ext limit ρ' hform, evalForm_conditional,
            evalForm_conditional, hc]
          exact beside_throw _
      | lambda =>
        cases hl : SpecialForm.lambdaParts args with
        | ok l =>
          obtain ⟨args', l', rfl, hl', hparams, hbody⟩ := corresponds_lambda hform hl hcode
          refine .leaf fun limit => ?_
          rw [eval_form ext limit ρ hform, eval_form ext limit ρ' hform, evalForm_lambda,
            evalForm_lambda, hl, hl']
          exact beside_newClosure hlinked none hparams
            (hargs.part (SpecialForm.lambdaParts_body_partOf hl)) hbody
        | error fault =>
          rw [corresponds_malformed_lambda hform hl hcode]
          refine .leaf fun limit => ?_
          rw [eval_form ext limit ρ hform, eval_form ext limit ρ' hform, evalForm_lambda,
            evalForm_lambda, hl]
          exact beside_throw _
      | defun =>
        obtain ⟨rfl, rfl⟩ := corresponds_defun hform hcode
        refine .leaf fun limit => ?_
        rw [eval_form ext limit ρ hform, eval_form ext limit ρ' hform]
        exact beside_defun hlinked hnew hargs
  | _ =>
    have hsame := corresponds_atom (by simp [Value.kind]) (by simp [Value.kind]) hcode
    rw [hsame]
    exact .leaf fun limit => beside_old he

theorem Code.mono {w₁ : List Mode} {e e' : Value} (h : b.Code w ρ ρ' e e') (hw : w <+: w₁) :
    b.Code w₁ ρ ρ' e e' := by
  obtain ⟨m, hlinked, hnew, he, hcode⟩ := h
  exact ⟨m, hlinked.mono hw, hnew, he, hcode⟩

/-- The frame of a call in which the bodies belong together. -/
theorem Stores.code_enter {σ σ' : Store} {params : List String} {body body' : Value}
    {scope scope' : ScopeId} (hσ : b.Stores w σ σ')
    (hc : b.Closures w params body scope body' scope') :
    ∃ m, b.Linked w scope scope' m ∧
      b.Code (w ++ [b.inner m params]) σ.scopes.size σ'.scopes.size body body' := by
  obtain ⟨m, hlinked, hbody, hcode⟩ := hc
  refine ⟨m, hlinked, b.inner m params, ?_, ?_, hbody, hcode⟩
  · rw [hσ.size, hσ.size']
    exact .later (by simp)
  · rw [hσ.size]
    omega

def simulation (b : Redex) (ext : Embedding) : Simulation ext where
  toPairing := b.pairing
  Code := b.Code
  code_mono hw _ _ _ _ h := h.mono hw
  form := Code.forms
  enter hσ hc hvs hn := by
    obtain ⟨m, hlinked, hcode⟩ := hσ.code_enter hc
    exact ⟨_, List.prefix_append _ _, hσ.enter hlinked hvs hn, hcode⟩
  native hp label _ _ _ _ hvs := by
    obtain ⟨op, rfl⟩ := hp
    exact beside_arithmetic ext _ label op hvs

/-- The two runs start with the frame of the call and no later one. -/
theorem stores_enter (b : Redex) :
    b.Stores [] (b.store.newClosureId.2.enter b.scope [(b.name, b.argument)]) b.store := by
  have hk : b.store.Keeps b.store.newClosureId.2 := fun _ _ => rfl
  refine ⟨by simp [Store.newClosureId, frame], rfl, hk.trans (Store.Keeps.enter _ _ _),
    fun _ _ => rfl, fun x => ?_, Store.parent?_enter_frame _ _ _, nofun⟩
  refine (Store.local?_enter_frame b.store.newClosureId.2 b.scope _ x).trans ?_
  by_cases hx : x = b.name
  · simp [hx]
  · simp [List.lookup_cons, beq_false_of_ne hx, hx]

end Redex

namespace Value

/-- The call of a lambda that has the parameter `x` and the body `body` with `v`. -/
def redex (x : String) (body v : Value) : Value :=
  .list [.list [.symbol SpecialForm.lambda.name, .list [.symbol x], body], quotation v]

/-- The same value but for the ids, the bodies and the scopes of closures. -/
def Resembles : Value → Value → Prop := Alike (fun _ _ _ _ _ => True) fun _ => True

end Value

theorem eval_redex (ext : Embedding) (limit : Nat) (ρ : ScopeId) (x : String) (body v : Value)
    (σ : Store) :
    eval ext (limit + 2) ρ (.redex x body v) σ =
      eval ext limit σ.scopes.size body (σ.newClosureId.2.enter ρ [(x, v)]) :=
  rfl

/-- The outcomes of a call of a lambda and of its body with the argument put in place of the
parameter are the same, at limits that differ by the two evaluations around the body. -/
theorem Redex.outcomes_rel (b : Redex) (ext : Embedding) {body : Value} (hbody : b.IsOld body)
    (hdefun : ¬ (Value.symbol SpecialForm.defun.name).PartOf body) (limit : Nat) :
    Option.Rel (fun outcome outcome' => Agree Value.Resembles outcome.1 outcome'.1)
      (eval ext (limit + 2) b.scope (.redex b.name body b.argument) b.store)
      (eval ext limit b.scope (.substitute b.name (.quotation b.argument) body) b.store) := by
  have hcode : b.Code [] b.frame b.scope body
      (.substitute b.name (.quotation b.argument) body) :=
    ⟨.inside, .frame, Nat.le_refl _, hbody, hdefun, rfl⟩
  rw [eval_redex]
  refine Option.Rel.mono (((b.simulation ext).eval_apply_beside limit).1 hcode b.stores_enter) ?_
  intro outcome outcome' h
  obtain ⟨w, -, -, hagree⟩ := h
  refine hagree.mono fun v v' hv => ?_
  exact Value.Alike.mono hv (fun _ _ _ _ _ _ => trivial) fun _ _ => trivial

/-- In a scope that reaches no native procedures but the arithmetic ones, calling a lambda with a
value comes to evaluating its body with the quoted value in place of the parameter, wherever that is
free and evaluated: one ends if the other does, with the same error or with values that differ in
what closures hold only. -/
theorem call_is_substitution (ext : Embedding) {σ : Store} {R : ScopeId → Prop}
    (hregion : σ.Region R Procedure.IsArithmetic) {ρ : ScopeId} (hρ : R ρ) (x : String)
    {v body : Value} (hv : v.Within R Procedure.IsArithmetic)
    (hbody : body.Within R Procedure.IsArithmetic)
    (hdefun : ¬ (Value.symbol SpecialForm.defun.name).PartOf body) :
    (∀ r σ₁, Evaluates ext ρ (.redex x body v) σ r σ₁ →
      ∃ r' σ₁', Evaluates ext ρ (.substitute x (.quotation v) body) σ r' σ₁' ∧
        Agree Value.Resembles r r') ∧
    ∀ r' σ₁', Evaluates ext ρ (.substitute x (.quotation v) body) σ r' σ₁' →
      ∃ r σ₁, Evaluates ext ρ (.redex x body v) σ r σ₁ ∧ Agree Value.Resembles r r' := by
  let b : Redex := ⟨σ, R, ρ, x, v, hregion, hρ, hv⟩
  have hrel := b.outcomes_rel ext hbody hdefun
  constructor
  · intro r σ₁ h
    obtain ⟨limit, hrun⟩ := h
    have hmore : eval ext (limit + 2) ρ (.redex x body v) σ = some (r, σ₁) :=
      eval_of_le (Nat.le_add_right limit 2) ρ _ hrun
    have h := hrel limit
    rw [show eval ext (limit + 2) b.scope (.redex b.name body b.argument) b.store =
      some (r, σ₁) from hmore] at h
    generalize hrun' : eval ext limit b.scope _ b.store = outcome' at h
    cases h with
    | some hagree => exact ⟨_, _, ⟨limit, hrun'⟩, hagree⟩
  · intro r' σ₁' h
    obtain ⟨limit, hrun⟩ := h
    have h := hrel limit
    rw [show eval ext limit b.scope (.substitute b.name (.quotation b.argument) body) b.store =
      some (r', σ₁') from hrun] at h
    generalize hrun' : eval ext (limit + 2) b.scope _ b.store = outcome at h
    cases h with
    | some hagree => exact ⟨_, _, ⟨limit + 2, hrun'⟩, hagree⟩

/-- `(if x (lambda (y) x) (lambda (x) x))`, of which the last lambda binds the name anew. -/
private def boundAnew : Value :=
  .list [.symbol "if", .symbol "x", .list [.symbol "lambda", .list [.symbol "y"], .symbol "x"],
    .list [.symbol "lambda", .list [.symbol "x"], .symbol "x"]]

theorem call_is_substitution_under_lambda :
    ∃ v v' σ σ',
      Evaluates .empty 0 (.redex "x" boundAnew (.number 1)) Store.empty.newGlobal.2 (.ok v) σ ∧
      Evaluates .empty 0
        (.list [.symbol "if", .quotation (.number 1),
          .list [.symbol "lambda", .list [.symbol "y"], .quotation (.number 1)],
          .list [.symbol "lambda", .list [.symbol "x"], .symbol "x"]])
        Store.empty.newGlobal.2 (.ok v') σ' ∧ v.Resembles v' := by
  have hbody : boundAnew.Within (· = Store.empty.newGlobal.1) Procedure.IsArithmetic := by
    simp [boundAnew, Value.Within]
  have hbeta := call_is_substitution .empty (Store.region_newGlobal .empty) rfl "x"
    (show (Value.number 1).Within _ _ from trivial) hbody (by decide)
  obtain ⟨v', σ', hrun⟩ : ∃ v' σ', Evaluates .empty 0
      (.list [.symbol "if", .quotation (.number 1),
        .list [.symbol "lambda", .list [.symbol "y"], .quotation (.number 1)],
        .list [.symbol "lambda", .list [.symbol "x"], .symbol "x"]])
      Store.empty.newGlobal.2 (.ok v') σ' := ⟨_, _, 2, rfl⟩
  obtain ⟨r, σ, hcall, hagree⟩ := hbeta.2 _ _ hrun
  cases hagree with
  | ok hv => exact ⟨_, v', σ, σ', hcall, hrun, hv⟩

end ScopedLisp
