import ScopedLisp.Proofs.Evaluation.Invariant
import ScopedLisp.Proofs.Store.Lookup

namespace ScopedLisp

open EvalM

/-- The first expression stands in an evaluated position of the second. -/
inductive EvaluatedIn : Value → Value → Prop
  | self (v : Value) : EvaluatedIn v v
  | branch {part head args v : Value} {c : SpecialForm.ConditionalParts}
      (hhead : SpecialForm.ofHead? head = some .conditional)
      (hparts : SpecialForm.conditionalParts args = .ok c) (hv : v ∈ c.expressions)
      (hpart : EvaluatedIn part v) : EvaluatedIn part (.pair head args)
  | head {part head args : Value} (hhead : SpecialForm.ofHead? head = none)
      (hpart : EvaluatedIn part head) : EvaluatedIn part (.pair head args)
  | argument {part head args v : Value} (hhead : SpecialForm.ofHead? head = none)
      (hv : v ∈ args.unchain.1) (hpart : EvaluatedIn part v) : EvaluatedIn part (.pair head args)

/-- A definition of the right shape stands in an evaluated position of the expression. -/
def Value.Defines (v : Value) (d : SpecialForm.DefunParts) : Prop :=
  ∃ head args, SpecialForm.ofHead? head = some .defun ∧
    SpecialForm.defunParts args = .ok d ∧ EvaluatedIn (.pair head args) v

/-- Some definition in the expression `e` gives the name `x` the value `v` when it is evaluated in
the scope `ρ`. -/
def Value.Gives (e : Value) (ρ : ScopeId) (x : String) (v : Value) : Prop :=
  ∃ d id, e.Defines d ∧ d.name = x ∧
    v = .closure id (some x) d.definition.params d.definition.body ρ

theorem Value.Gives.mono {part e : Value} {ρ : ScopeId}
    (h : ∀ p, EvaluatedIn p part → EvaluatedIn p e) {x : String} {v : Value}
    (hv : part.Gives ρ x v) : e.Gives ρ x v := by
  obtain ⟨d, id, ⟨head, args, hhead, hparts, hin⟩, hx, rfl⟩ := hv
  exact ⟨d, id, ⟨head, args, hhead, hparts, h _ hin⟩, hx, rfl⟩

namespace Store

/-- Every scope of the first store but `ρ` is in the second one as it was, and in `ρ` names may have
been bound to values as `P` says. -/
structure GrowsAt (σ : Store) (ρ : ScopeId) (P : String → Value → Prop) (σ' : Store) : Prop where
  size_le : σ.scopes.size ≤ σ'.scopes.size
  others : ∀ i < σ.scopes.size, i ≠ ρ → σ'.scopes[i]? = σ.scopes[i]?
  parent : ρ < σ.scopes.size → σ'.parent? ρ = σ.parent? ρ
  own : ρ < σ.scopes.size → ∀ x,
    σ'.local? ρ x = σ.local? ρ x ∨ ∃ v, σ'.local? ρ x = some v ∧ P x v

variable {σ₀ σ σ' : Store} {ρ : ScopeId} {P : String → Value → Prop}

theorem GrowsAt.refl (σ : Store) (ρ : ScopeId) (P : String → Value → Prop) :
    σ.GrowsAt ρ P σ :=
  ⟨Nat.le_refl _, fun _ _ _ => rfl, fun _ => rfl, fun _ _ => .inl rfl⟩

theorem GrowsAt.bind (h : σ₀.GrowsAt ρ P σ) {x : String} {v : Value} (hv : P x v) :
    σ₀.GrowsAt ρ P (σ.bind ρ x v) where
  size_le := by simpa using h.size_le
  others i hi hne := (getElem?_bind_ne σ x v hne).trans (h.others i hi hne)
  parent hρ := (parent?_bind σ ρ ρ x v).trans (h.parent hρ)
  own hρ y := by
    rw [local?_bind_self (Nat.lt_of_lt_of_le hρ h.size_le)]
    by_cases hy : y = x
    · subst hy
      exact .inr ⟨v, if_pos rfl, hv⟩
    · rw [if_neg hy]
      exact h.own hρ y

theorem GrowsAt.keeps (h : σ₀.GrowsAt ρ P σ) (hk : σ.Keeps σ') : σ₀.GrowsAt ρ P σ' where
  size_le := Nat.le_trans h.size_le hk.size_le
  others i hi hne := (hk i (Nat.lt_of_lt_of_le hi h.size_le)).trans (h.others i hi hne)
  parent hρ := (hk.parent? (Nat.lt_of_lt_of_le hρ h.size_le)).trans (h.parent hρ)
  own hρ x := by
    rw [hk.local? (Nat.lt_of_lt_of_le hρ h.size_le)]
    exact h.own hρ x

theorem GrowsAt.newClosureId (h : σ₀.GrowsAt ρ P σ) : σ₀.GrowsAt ρ P σ.newClosureId.2 :=
  ⟨h.size_le, h.others, h.parent, h.own⟩

end Store

open Store

/-- One induction for both: a call is no more than an evaluation in a scope that is new. -/
theorem eval_grows_apply_keeps (ext : Embedding) (limit : Nat) :
    (∀ ρ e (P : String → Value → Prop), (∀ x v, e.Gives ρ x v → P x v) →
      ∀ σ₀, Preserves (GrowsAt σ₀ ρ P) (eval ext limit ρ e)) ∧
    ∀ f args σ₀, Preserves (Keeps σ₀) (apply ext limit f args) := by
  induction limit with
  | zero => exact ⟨fun _ _ _ _ _ => preserves_beyondLimit, fun _ _ _ => preserves_beyondLimit⟩
  | succ limit ih =>
    obtain ⟨ihe, iha⟩ := ih
    constructor
    · intro ρ e P hP σ₀
      match e with
      | .symbol x => exact preserves_lookup ρ x
      | .pair head args =>
        cases hhead : SpecialForm.ofHead? head with
        | some form =>
          rw [eval_form ext limit ρ hhead]
          refine preserves_evalForm (fun σ hσ => hσ.newClosureId) ?_ ?_
          · intro heq c hc v hv
            subst heq
            exact ihe ρ v P (fun x w hw => hP x w (hw.mono fun p hp =>
              .branch hhead hc hv hp)) σ₀
          · intro heq d hd σ id hσ
            subst heq
            exact hσ.bind (hP _ _ ⟨d, id, ⟨head, args, hhead, hd, .self _⟩, rfl, rfl⟩)
        | none =>
          rw [eval_application ext limit ρ hhead]
          refine preserves_bind ?_ fun f => preserves_bind ?_ fun vs => ?_
          · exact ihe ρ head P (fun x w hw => hP x w (hw.mono fun p hp => .head hhead hp)) σ₀
          · refine preserves_elements (fun v hv => ?_) []
            exact ihe ρ v P (fun x w hw => hP x w (hw.mono fun p hp =>
              .argument hhead hv hp)) σ₀
          · intro σ r σ' h hσ
            exact hσ.keeps (iha f vs σ h fun _ _ => rfl)
      | .number _ | .string _ | .boolean _ | .nil | .closure .. | .native .. =>
        exact preserves_pure _
    · intro f args σ₀
      match f with
      | .closure id name params body scope =>
        intro σ r σ' h hσ
        by_cases hn : args.length = params.length
        · rw [apply_closure ext limit id name body scope hn] at h
          have hgrows := ihe σ.scopes.size body _ (fun _ _ hw => hw) _ h (GrowsAt.refl _ _ _)
          have hcall : σ.Keeps σ' := by
            intro i hi
            rw [hgrows.others i (by simpa using Nat.lt_succ_of_lt hi) (Nat.ne_of_lt hi)]
            exact Keeps.enter σ scope _ i hi
          exact hσ.trans hcall
        · rw [apply_closure_arity ext limit id name body scope hn] at h
          cases h
          exact hσ
      | .native label (.arithmetic op) => exact preserves_ofExcept _
      | .native label (.foreign name) =>
        rw [apply]
        split
        · exact preserves_native (fun g vs => iha g vs σ₀) _
        · exact preserves_throw _
      | .number _ | .string _ | .boolean _ | .symbol _ | .nil | .pair _ _ =>
        exact preserves_throw _

/-- The second store is reached from the first while nothing is evaluated or bound in the scope `ρ`
itself. -/
inductive RunsBeside (ext : Embedding) (ρ : ScopeId) : Store → Store → Prop
  | refl (σ : Store) : RunsBeside ext ρ σ σ
  | eval {σ σ₁ σ₂ : Store} {limit : Nat} {ρ' : ScopeId} {e : Value} {r : Except EvalError Value}
      (h : RunsBeside ext ρ σ σ₁) (hne : ρ' ≠ ρ)
      (hrun : eval ext limit ρ' e σ₁ = some (r, σ₂)) : RunsBeside ext ρ σ σ₂
  | apply {σ σ₁ σ₂ : Store} {limit : Nat} {f : Value} {args : List Value}
      {r : Except EvalError Value} (h : RunsBeside ext ρ σ σ₁)
      (hrun : apply ext limit f args σ₁ = some (r, σ₂)) : RunsBeside ext ρ σ σ₂
  | bind {σ σ₁ : Store} {ρ' : ScopeId} (h : RunsBeside ext ρ σ σ₁) (hne : ρ' ≠ ρ) (x : String)
      (v : Value) : RunsBeside ext ρ σ (σ₁.bind ρ' x v)
  | newScope {σ σ₁ : Store} (h : RunsBeside ext ρ σ σ₁) (parent : Option ScopeId) :
      RunsBeside ext ρ σ (σ₁.newScope parent).2

theorem RunsBeside.keeps_scope {ext : Embedding} {ρ : ScopeId} {σ σ' : Store}
    (h : RunsBeside ext ρ σ σ') (hρ : ρ < σ.scopes.size) :
    ρ < σ'.scopes.size ∧ σ'.scopes[ρ]? = σ.scopes[ρ]? := by
  induction h with
  | refl => exact ⟨hρ, rfl⟩
  | @eval σ₁ σ₂ limit ρ' e r _ hne hrun ih =>
    have hgrows := (eval_grows_apply_keeps ext limit).1 ρ' e _ (fun _ _ hv => hv) σ₁ hrun
      (GrowsAt.refl _ _ _)
    exact ⟨Nat.lt_of_lt_of_le ih.1 hgrows.size_le,
      (hgrows.others ρ ih.1 (Ne.symm hne)).trans ih.2⟩
  | @apply σ₁ σ₂ limit f args r _ hrun ih =>
    have hkeeps : σ₁.Keeps σ₂ :=
      (eval_grows_apply_keeps ext limit).2 f args σ₁ hrun fun _ _ => rfl
    exact ⟨Nat.lt_of_lt_of_le ih.1 hkeeps.size_le, (hkeeps ρ ih.1).trans ih.2⟩
  | bind _ hne x v ih =>
    exact ⟨by simpa using ih.1, (getElem?_bind_ne _ x v (Ne.symm hne)).trans ih.2⟩
  | newScope _ parent ih =>
    exact ⟨by simpa using Nat.lt_succ_of_lt ih.1, (getElem?_newScope ih.1).trans ih.2⟩

/-- An evaluation that finishes leaves every scope but its own as it was; in its own it removes no
name, and a name that has changed is that of a definition in the expression and now bound to its
closure in that very scope. An application leaves all scopes as they were. The frame of a call that
has finished stays as it is, whatever runs in other scopes afterwards. -/
theorem evaluation_changes_own_scope_only (ext : Embedding) (limit : Nat) :
    (∀ ρ e σ r σ', eval ext limit ρ e σ = some (r, σ') →
      (∀ i < σ.scopes.size, i ≠ ρ → σ'.scopes[i]? = σ.scopes[i]?) ∧
      (ρ < σ.scopes.size → σ'.parent? ρ = σ.parent? ρ ∧
        (∀ x, (σ.local? ρ x).isSome → (σ'.local? ρ x).isSome) ∧
        ∀ x, σ'.local? ρ x ≠ σ.local? ρ x → ∃ d id, e.Defines d ∧ d.name = x ∧
          σ'.local? ρ x =
            some (.closure id (some x) d.definition.params d.definition.body ρ))) ∧
    (∀ f args σ r σ', apply ext limit f args σ = some (r, σ') →
      ∀ i < σ.scopes.size, σ'.scopes[i]? = σ.scopes[i]?) ∧
    ∀ id name params body scope args σ r σ₁ σ₂, args.length = params.length →
      apply ext limit (.closure id name params body scope) args σ = some (r, σ₁) →
      RunsBeside ext σ.scopes.size σ₁ σ₂ →
      σ.scopes.size < σ₁.scopes.size ∧
        σ₂.scopes[σ.scopes.size]? = σ₁.scopes[σ.scopes.size]? := by
  refine ⟨?_, ?_, ?_⟩
  · intro ρ e σ r σ' hrun
    have hgrows := (eval_grows_apply_keeps ext limit).1 ρ e _ (fun _ _ hv => hv) σ hrun
      (GrowsAt.refl _ _ _)
    refine ⟨hgrows.others, fun hρ => ⟨hgrows.parent hρ, fun x hx => ?_, fun x hx => ?_⟩⟩
    · rcases hgrows.own hρ x with hsame | ⟨v, hv, -⟩
      · rwa [hsame]
      · rw [hv]
        rfl
    · rcases hgrows.own hρ x with hsame | ⟨v, hv, d, id, hd, hname, rfl⟩
      · exact absurd hsame hx
      · exact ⟨d, id, hd, hname, hv⟩
  · intro f args σ r σ' hrun
    exact (eval_grows_apply_keeps ext limit).2 f args σ hrun fun _ _ => rfl
  · intro id name params body scope args σ r σ₁ σ₂ hn hrun hlater
    have hframe : σ.scopes.size < σ₁.scopes.size := by
      match limit with
      | 0 => cases hrun
      | limit + 1 =>
        rw [apply_closure ext limit id name body scope hn] at hrun
        have hgrows := (eval_grows_apply_keeps ext limit).1 σ.scopes.size body _
          (fun _ _ hv => hv) _ hrun (GrowsAt.refl _ _ _)
        exact Nat.lt_of_lt_of_le (by simp) hgrows.size_le
    exact ⟨hframe, (hlater.keeps_scope hframe).2⟩

/-- `(defun g () x)` -/
private def definesLocally : Value :=
  .list [.symbol "defun", .symbol "g", .nil, .symbol "x"]

/-- `(if (defun f () nil) ((lambda (x) (defun g () x)) 4))` -/
private def definesInAndOutOfFrame : Value :=
  .list [.symbol "if", .list [.symbol "defun", .symbol "f", .nil, .nil],
    .list [.list [.symbol "lambda", .list [.symbol "x"], definesLocally], .number 4]]

/-- A definition inside a call does not show in the scope of the call, and the frame of a call that
is over stays as it is when the same name is defined again outside. -/
theorem definition_in_frame_stays_there :
    ∃ r σ, eval .empty 6 0 definesInAndOutOfFrame Store.empty.newGlobal.2 = some (r, σ) ∧
      (∀ x, σ.local? 0 x ≠ Store.empty.newGlobal.2.local? 0 x →
        ∃ d id, definesInAndOutOfFrame.Defines d ∧ d.name = x ∧
          σ.local? 0 x = some (.closure id (some x) d.definition.params d.definition.body 0)) ∧
      ∃ r₁ σ₁, apply .empty 4 (.closure 7 none ["x"] definesLocally 0) [.number 4] σ =
            some (r₁, σ₁) ∧
        (∀ i < σ.scopes.size, σ₁.scopes[i]? = σ.scopes[i]?) ∧
        ∃ r₂ σ₂, eval .empty 2 0 definesLocally σ₁ = some (r₂, σ₂) ∧
          σ₂.scopes[σ.scopes.size]? = σ₁.scopes[σ.scopes.size]? := by
  obtain ⟨r, σ, hrun, hsize⟩ : ∃ r σ,
      eval .empty 6 0 definesInAndOutOfFrame Store.empty.newGlobal.2 = some (r, σ) ∧
        0 < σ.scopes.size := ⟨_, _, rfl, by decide⟩
  obtain ⟨r₁, σ₁, hcall⟩ : ∃ r₁ σ₁, apply .empty 4
      (.closure 7 none ["x"] definesLocally 0) [.number 4] σ = some (r₁, σ₁) := ⟨_, _, rfl⟩
  obtain ⟨r₂, σ₂, hlater⟩ : ∃ r₂ σ₂,
      eval .empty 2 0 definesLocally σ₁ = some (r₂, σ₂) := ⟨_, _, rfl⟩
  have hown := ((evaluation_changes_own_scope_only .empty 6).1 _ _ _ _ _ hrun).2 (by decide)
  have hcalled := evaluation_changes_own_scope_only .empty 4
  exact ⟨r, σ, hrun, hown.2.2, r₁, σ₁, hcall, hcalled.2.1 _ _ _ _ _ hcall, r₂, σ₂, hlater,
    (hcalled.2.2 _ _ _ _ _ _ _ _ _ _ rfl hcall
      (.eval (.refl _) (Nat.ne_of_lt hsize) hlater)).2⟩

end ScopedLisp
