import ScopedLisp.Proofs.Evaluation.Run

namespace ScopedLisp

open EvalM

namespace SpecialForm

/-- A quotation has one argument, a conditional two or three, a lambda a list of symbols and a body,
and a definition a symbol in front of these. Nothing else is asked of the arguments. -/
inductive HasShape : SpecialForm → Value → Prop
  | quote (v : Value) : HasShape .quote (.list [v])
  | ifThen (condition consequent : Value) : HasShape .conditional (.list [condition, consequent])
  | ifThenElse (condition consequent alternative : Value) :
      HasShape .conditional (.list [condition, consequent, alternative])
  | lambda (params : List String) (body : Value) :
      HasShape .lambda (.list [.list (params.map .symbol), body])
  | defun (name : String) (params : List String) (body : Value) :
      HasShape .defun (.list [.symbol name, .list (params.map .symbol), body])

variable {args : Value}

theorem quotedPart_eq_ok_iff {v : Value} : quotedPart args = .ok v ↔ args = .list [v] := by
  constructor
  · intro h
    unfold quotedPart at h
    split at h
    · cases h
      rfl
    · cases h
  · intro h
    rw [h]
    rfl

/-- A conditional of the right shape is the list of its expressions. -/
theorem conditionalParts_eq_ok_iff {c : ConditionalParts} :
    conditionalParts args = .ok c ↔ args = .list c.expressions := by
  constructor
  · intro h
    unfold conditionalParts at h
    split at h <;> cases h <;> rfl
  · intro h
    obtain ⟨condition, consequent, alternative⟩ := c
    rw [h]
    cases alternative <;> rfl

theorem parameters_list (params : List String) :
    parameters (.list (params.map .symbol)) = .ok params := by
  induction params with
  | nil => rfl
  | cons x params ih =>
    change (x :: ·) <$> parameters (.list (params.map .symbol)) = .ok (x :: params)
    rw [ih]
    rfl

/-- Parameters are a proper list, and all of them are symbols. -/
theorem parameters_eq_ok_iff {v : Value} {params : List String} :
    parameters v = .ok params ↔ v = .list (params.map .symbol) := by
  constructor
  · intro h
    induction v generalizing params with
    | nil =>
      cases h
      rfl
    | pair head tail _ ih =>
      match head, h with
      | .symbol x, h =>
        cases htail : parameters tail with
        | error fault =>
          rw [parameters, htail] at h
          cases h
        | ok names =>
          rw [parameters, htail] at h
          cases h
          rw [ih htail]
          rfl
    | _ => cases h
  · intro h
    rw [h]
    exact parameters_list params

theorem lambdaParts_eq_ok_iff_eq_list {l : LambdaParts} :
    lambdaParts args = .ok l ↔ args = .list [.list (l.params.map .symbol), l.body] := by
  rw [lambdaParts_eq_ok_iff]
  constructor
  · intro h
    obtain ⟨params, rfl, hparams⟩ := h
    rw [parameters_eq_ok_iff.1 hparams]
    rfl
  · intro h
    exact ⟨_, h, parameters_list l.params⟩

theorem defunParts_eq_ok_iff_eq_list {d : DefunParts} :
    defunParts args = .ok d ↔ args =
      .list [.symbol d.name, .list (d.definition.params.map .symbol), d.definition.body] := by
  rw [defunParts_eq_ok_iff]
  constructor
  · intro h
    obtain ⟨rest, rfl, hrest⟩ := h
    rw [lambdaParts_eq_ok_iff_eq_list.1 hrest]
    rfl
  · intro h
    exact ⟨_, h, lambdaParts_eq_ok_iff_eq_list.2 rfl⟩

def faultOf {α : Type} : Except ShapeFault α → Option ShapeFault
  | .ok _ => none
  | .error fault => some fault

/-- What is wrong with the shape of the arguments, if anything is. -/
def fault? (args : Value) : SpecialForm → Option ShapeFault
  | quote => faultOf (quotedPart args)
  | conditional => faultOf (conditionalParts args)
  | lambda => faultOf (lambdaParts args)
  | defun => faultOf (defunParts args)

theorem faultOf_eq_none_iff {α : Type} {result : Except ShapeFault α} :
    faultOf result = none ↔ ∃ a, result = .ok a := by
  cases result <;> simp [faultOf]

/-- The checks of the four forms, each spread over its parts, find fault with just those arguments
that have not the shape. -/
theorem fault?_eq_none_iff {form : SpecialForm} : form.fault? args = none ↔ form.HasShape args := by
  constructor
  · intro h
    cases form with
    | quote =>
      obtain ⟨v, hv⟩ := faultOf_eq_none_iff.1 h
      rw [quotedPart_eq_ok_iff.1 hv]
      exact .quote v
    | conditional =>
      obtain ⟨⟨condition, consequent, alternative⟩, hc⟩ := faultOf_eq_none_iff.1 h
      rw [conditionalParts_eq_ok_iff.1 hc]
      cases alternative with
      | none => exact .ifThen condition consequent
      | some alternative => exact .ifThenElse condition consequent alternative
    | lambda =>
      obtain ⟨l, hl⟩ := faultOf_eq_none_iff.1 h
      rw [lambdaParts_eq_ok_iff_eq_list.1 hl]
      exact .lambda l.params l.body
    | defun =>
      obtain ⟨d, hd⟩ := faultOf_eq_none_iff.1 h
      rw [defunParts_eq_ok_iff_eq_list.1 hd]
      exact .defun d.name d.definition.params d.definition.body
  · intro h
    cases h with
    | quote | ifThen | ifThenElse => rfl
    | lambda params body =>
      exact faultOf_eq_none_iff.2 ⟨⟨params, body⟩, lambdaParts_eq_ok_iff_eq_list.2 rfl⟩
    | defun name params body =>
      exact faultOf_eq_none_iff.2 ⟨⟨name, params, body⟩, defunParts_eq_ok_iff_eq_list.2 rfl⟩

instance (form : SpecialForm) (args : Value) : Decidable (form.HasShape args) :=
  decidable_of_iff _ fault?_eq_none_iff

example : ¬ lambda.HasShape (.list [.pair (.symbol "x") (.symbol "y"), .symbol "x"]) := by decide

end SpecialForm

open SpecialForm

variable {evaluate : Value → EvalM Value} {ρ : ScopeId} {args : Value} {form : SpecialForm}

theorem parts_bind_of_fault {α β : Type} {result : Except ShapeFault α} {fault : ShapeFault}
    (h : faultOf result = some fault) (form : SpecialForm) (f : α → EvalM β) (σ : Store) :
    (parts form result >>= f) σ = some (.error (.malformedForm form fault), σ) := by
  cases result with
  | error fault' =>
    cases h
    rfl
  | ok => cases h

/-- The check comes first: whatever evaluates the parts of the form has no say in its failure. -/
theorem evalForm_of_fault {fault : ShapeFault} (h : form.fault? args = some fault) (σ : Store) :
    evalForm evaluate ρ args form σ = some (.error (.malformedForm form fault), σ) := by
  cases form with
  | quote =>
    rw [evalForm_quote]
    exact parts_bind_of_fault h .quote _ σ
  | conditional => exact parts_bind_of_fault h .conditional _ σ
  | lambda => exact parts_bind_of_fault h .lambda _ σ
  | defun => exact parts_bind_of_fault h .defun _ σ

/-- Only a conditional evaluates parts of itself, so that no other form of the right shape fails. -/
theorem evalForm_of_hasShape (h : form.HasShape args) (hform : form ≠ .conditional) (σ : Store) :
    ∃ v σ', evalForm evaluate ρ args form σ = some (.ok v, σ') := by
  cases h with
  | quote v => exact ⟨v, σ, rfl⟩
  | ifThen | ifThenElse => exact absurd rfl hform
  | lambda params body =>
    rw [evalForm_lambda, (lambdaParts_eq_ok_iff_eq_list (l := ⟨params, body⟩)).2 rfl]
    exact ⟨_, _, rfl⟩
  | defun name params body =>
    rw [evalForm_defun, (defunParts_eq_ok_iff_eq_list (d := ⟨name, params, body⟩)).2 rfl]
    exact ⟨_, _, rfl⟩

/-- A quotation, a lambda and a definition fail because of their shape if and only if the arguments
have not the shape that the form asks for, and a conditional of another shape does so as well. The
error then names the form at the head, it comes whatever evaluates the parts of the form, so that
none of them is evaluated, and the store is left as it was. A definition that fails in any way
leaves the store as it was. -/
theorem special_form_is_checked_first (ext : Embedding) (limit : Nat) (ρ : ScopeId)
    (form : SpecialForm) (args : Value) (σ : Store) :
    (form ≠ .conditional →
      ((∃ form' fault σ', eval ext (limit + 1) ρ (.pair (.symbol form.name) args) σ =
        some (.error (.malformedForm form' fault), σ')) ↔ ¬ form.HasShape args)) ∧
    (¬ form.HasShape args → ∃ fault,
      eval ext (limit + 1) ρ (.pair (.symbol form.name) args) σ =
        some (.error (.malformedForm form fault), σ) ∧
      ∀ evaluate, evalForm evaluate ρ args form σ =
        some (.error (.malformedForm form fault), σ)) ∧
    (form = .defun → ∀ e σ', eval ext (limit + 1) ρ (.pair (.symbol form.name) args) σ =
      some (.error e, σ') → σ' = σ) := by
  have heval : eval ext (limit + 1) ρ (.pair (.symbol form.name) args) =
      evalForm (eval ext limit ρ) ρ args form :=
    eval_form ext limit ρ (ofHead?_eq_some_iff.2 rfl) args
  have hfault (h : ¬ form.HasShape args) : ∃ fault, form.fault? args = some fault :=
    Option.ne_none_iff_exists'.1 fun hnone => h (fault?_eq_none_iff.1 hnone)
  rw [heval]
  refine ⟨fun hform => ⟨?_, ?_⟩, fun h => ?_, ?_⟩
  · intro hfails hshape
    obtain ⟨form', fault, σ', hrun⟩ := hfails
    obtain ⟨v, σ'', hok⟩ := evalForm_of_hasShape hshape hform σ
    rw [hok] at hrun
    cases hrun
  · intro h
    obtain ⟨fault, hfault⟩ := hfault h
    exact ⟨form, fault, σ, evalForm_of_fault hfault σ⟩
  · obtain ⟨fault, hfault⟩ := hfault h
    exact ⟨fault, evalForm_of_fault hfault σ, fun _ => evalForm_of_fault hfault σ⟩
  · intro hdefun e σ' hrun
    subst hdefun
    by_cases hshape : SpecialForm.defun.HasShape args
    · obtain ⟨v, σ'', hok⟩ := evalForm_of_hasShape hshape nofun σ
      rw [hok] at hrun
      cases hrun
    · obtain ⟨fault, hfault⟩ := hfault hshape
      rw [evalForm_of_fault hfault] at hrun
      cases hrun
      rfl

/-- The arguments of `(defun f (x) (g) . t)`, which no text spells. -/
private def dotted : Value :=
  .chain [.symbol "f", .list [.symbol "x"], .list [.symbol "g"]] (.boolean true)

/-- A definition that is right up to what its chain of arguments ends in. -/
theorem dotted_definition_binds_nothing :
    ¬ SpecialForm.defun.HasShape dotted ∧ ∃ fault,
      eval .empty 1 0 (.pair (.symbol "defun") dotted) Store.empty.newGlobal.2 =
        some (.error (.malformedForm .defun fault), Store.empty.newGlobal.2) ∧
      (∀ evaluate, evalForm evaluate 0 dotted .defun Store.empty.newGlobal.2 =
        some (.error (.malformedForm .defun fault), Store.empty.newGlobal.2)) ∧
      ∀ limit e σ', eval .empty (limit + 1) 0 (.pair (.symbol "defun") dotted)
        Store.empty.newGlobal.2 = some (.error e, σ') → σ' = Store.empty.newGlobal.2 := by
  have hchecked (limit : Nat) :=
    special_form_is_checked_first .empty limit 0 .defun dotted Store.empty.newGlobal.2
  have hshape : ¬ SpecialForm.defun.HasShape dotted :=
    ((hchecked 0).1 nofun).1 ⟨.defun, .severalBodies, _, rfl⟩
  obtain ⟨fault, heval, hany⟩ := (hchecked 0).2.1 hshape
  exact ⟨hshape, fault, heval, hany, fun limit => (hchecked limit).2.2 rfl⟩

end ScopedLisp
