import ScopedLisp.Proofs.SpecialForm.Parts

namespace ScopedLisp.Value

open SpecialForm

mutual

/-- A definition binds its name and its parameters in its body, a lambda its parameters. -/
def freeNames : Value → List String
  | symbol x => [x]
  | pair head args =>
    match ofHead? head with
    | none => freeNames head ++ freeNamesFrom 0 args
    | some .quote => []
    | some .conditional => if (conditionalParts args).isOk then freeNamesFrom 0 args else []
    | some .lambda =>
      match lambdaParts args with
      | .ok l => (freeNamesFrom 1 args).filter (· ∉ l.params)
      | .error _ => []
    | some .defun =>
      match defunParts args with
      | .ok d => (freeNamesFrom 2 args).filter (· ∉ d.name :: d.definition.params)
      | .error _ => []
  | _ => []
termination_by structural e => e

/-- The free names of the elements of a chain, without the first `n` elements. -/
def freeNamesFrom : Nat → Value → List String
  | 0, pair head tail => freeNames head ++ freeNamesFrom 0 tail
  | n + 1, pair _ tail => freeNamesFrom n tail
  | _, _ => []
termination_by structural _ e => e

end

variable {x : String} {head args : Value}

theorem mem_freeNamesFrom_zero :
    x ∈ freeNamesFrom 0 args ↔ ∃ v ∈ args.unchain.1, x ∈ v.freeNames := by
  induction args with
  | pair head tail _ ih => simp [freeNamesFrom, unchain, ih]
  | _ => simp [freeNamesFrom, unchain]

theorem mem_freeNames_application (h : ofHead? head = none) :
    x ∈ (pair head args).freeNames ↔
      x ∈ head.freeNames ∨ ∃ v ∈ args.unchain.1, x ∈ v.freeNames := by
  rw [freeNames, h, ← mem_freeNamesFrom_zero]
  exact List.mem_append

theorem mem_freeNames_conditional {c : ConditionalParts} (h : ofHead? head = some .conditional)
    (hc : conditionalParts args = .ok c) :
    x ∈ (pair head args).freeNames ↔ ∃ v ∈ c.expressions, x ∈ v.freeNames := by
  rw [freeNames, h, ← unchain_of_conditionalParts hc, ← mem_freeNamesFrom_zero, hc]
  exact Iff.rfl

theorem mem_freeNames_lambda {l : LambdaParts} (h : ofHead? head = some .lambda)
    (hl : lambdaParts args = .ok l) :
    x ∈ (pair head args).freeNames ↔ x ∈ l.body.freeNames ∧ x ∉ l.params := by
  rw [freeNames, h]
  obtain ⟨params, rfl, -⟩ := lambdaParts_eq_ok_iff.1 hl
  simp [hl, freeNamesFrom]

theorem mem_freeNames_defun {d : DefunParts} (h : ofHead? head = some .defun)
    (hd : defunParts args = .ok d) :
    x ∈ (pair head args).freeNames ↔
      x ∈ d.definition.body.freeNames ∧ x ≠ d.name ∧ x ∉ d.definition.params := by
  rw [freeNames, h]
  obtain ⟨rest, rfl, hl⟩ := defunParts_eq_ok_iff.1 hd
  obtain ⟨params, rfl, -⟩ := lambdaParts_eq_ok_iff.1 hl
  simp [hd, freeNamesFrom]

end ScopedLisp.Value
