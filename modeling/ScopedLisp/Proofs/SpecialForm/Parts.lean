import ScopedLisp.Proofs.Value.Part
import ScopedLisp.SpecialForm.Shape

namespace ScopedLisp.SpecialForm

namespace ConditionalParts

/-- The expressions of a conditional, in the order in which they are written. -/
def expressions (c : ConditionalParts) : List Value :=
  c.condition :: c.consequent :: c.alternative.toList

/-- The expression that the value of the condition selects, if there is one. -/
def chosen (c : ConditionalParts) (test : Value) : Option Value :=
  if test.isTruthy then some c.consequent else c.alternative

def map (f : Value → Value) (c : ConditionalParts) : ConditionalParts :=
  ⟨f c.condition, f c.consequent, c.alternative.map f⟩

theorem condition_mem_expressions (c : ConditionalParts) : c.condition ∈ c.expressions :=
  List.mem_cons_self

theorem consequent_mem_expressions (c : ConditionalParts) : c.consequent ∈ c.expressions :=
  List.mem_cons_of_mem _ List.mem_cons_self

theorem alternative_mem_expressions {c : ConditionalParts} {v : Value}
    (h : c.alternative = some v) : v ∈ c.expressions := by
  simp [expressions, h]

theorem chosen_mem_expressions {c : ConditionalParts} {test v : Value}
    (h : c.chosen test = some v) : v ∈ c.expressions := by
  unfold chosen at h
  split at h
  · cases h
    exact c.consequent_mem_expressions
  · exact alternative_mem_expressions h

end ConditionalParts

theorem ofHead?_eq_some_iff {head : Value} {form : SpecialForm} :
    ofHead? head = some form ↔ head = .symbol form.name := by
  constructor
  · intro h
    match head with
    | .symbol x => exact congrArg Value.symbol (ofName?_eq_some_iff.1 h)
  · intro heq
    subst heq
    exact ofName?_name form

theorem quotedPart_partOf {args v : Value} (h : quotedPart args = .ok v) : v.PartOf args := by
  unfold quotedPart at h
  split at h
  · cases h
    exact .head .self _
  · cases h

/-- A conditional of the right shape is no more than its expressions. -/
theorem unchain_of_conditionalParts {args : Value} {c : ConditionalParts}
    (h : conditionalParts args = .ok c) : args.unchain.1 = c.expressions := by
  unfold conditionalParts at h
  split at h <;> cases h <;> rfl

theorem conditionalParts_ne_improperArguments {args : Value} (h : args.unchain.2 = .nil) :
    conditionalParts args ≠ .error .improperArguments := by
  unfold conditionalParts
  split <;> simp_all [Value.unchain]

theorem expressions_partOf {args v : Value} {c : ConditionalParts}
    (h : conditionalParts args = .ok c) (hv : v ∈ c.expressions) : v.PartOf args := by
  rw [← unchain_of_conditionalParts h] at hv
  exact Value.partOf_of_mem_unchain hv

/-- A lambda of the right shape is a parameter list and one body. -/
theorem lambdaParts_eq_ok_iff {args : Value} {l : LambdaParts} :
    lambdaParts args = .ok l ↔
      ∃ params, args = .pair params (.pair l.body .nil) ∧ parameters params = .ok l.params := by
  constructor
  · intro h
    unfold lambdaParts at h
    split at h
    · next params rest =>
      cases hp : parameters params with
      | error fault =>
        rw [hp] at h
        cases h
      | ok names =>
        rw [hp] at h
        match rest, h with
        | .pair body .nil, h =>
          cases h
          exact ⟨params, rfl, hp⟩
    · cases h
  · intro h
    obtain ⟨params, rfl, hp⟩ := h
    rw [lambdaParts, hp]
    rfl

theorem lambdaParts_body_partOf {args : Value} {l : LambdaParts} (h : lambdaParts args = .ok l) :
    l.body.PartOf args := by
  obtain ⟨params, rfl, -⟩ := lambdaParts_eq_ok_iff.1 h
  exact .tail (.head .self _) _

/-- A definition of the right shape is a symbol and what a lambda would have. -/
theorem defunParts_eq_ok_iff {args : Value} {d : DefunParts} :
    defunParts args = .ok d ↔
      ∃ rest, args = .pair (.symbol d.name) rest ∧ lambdaParts rest = .ok d.definition := by
  constructor
  · intro h
    unfold defunParts at h
    split at h
    · next head rest =>
      match head, h with
      | .symbol name, h =>
        cases hl : lambdaParts rest with
        | error fault =>
          rw [hl] at h
          cases h
        | ok l =>
          rw [hl] at h
          cases h
          exact ⟨rest, rfl, hl⟩
    · cases h
  · intro h
    obtain ⟨rest, rfl, hl⟩ := h
    rw [defunParts, hl]
    rfl

theorem defunParts_body_partOf {args : Value} {d : DefunParts} (h : defunParts args = .ok d) :
    d.definition.body.PartOf args := by
  obtain ⟨rest, rfl, hl⟩ := defunParts_eq_ok_iff.1 h
  exact .tail (lambdaParts_body_partOf hl) _

end ScopedLisp.SpecialForm
