import ScopedLisp.Proofs.SpecialForm.Parts

namespace ScopedLisp

namespace Value

/-- The expression that evaluates to `v` everywhere. -/
def quotation (v : Value) : Value := .list [.symbol SpecialForm.quote.name, v]

/-- Whether a lambda with these arguments has the right shape and leaves the name to its body. -/
def leavesFree (x : String) (args : Value) : Bool :=
  match SpecialForm.lambdaParts args with
  | .ok l => x ∉ l.params
  | .error _ => false

mutual

def substitute (x : String) (r : Value) : Value → Value
  | symbol y => if y = x then r else symbol y
  | pair head args =>
    match SpecialForm.ofHead? head with
    | none => pair (substitute x r head) (substituteAll x r args)
    | some .conditional =>
      pair head (if (SpecialForm.conditionalParts args).isOk then substituteAll x r args else args)
    | some .lambda => pair head (if leavesFree x args then substituteBody x r args else args)
    | some _ => pair head args
  | v => v
termination_by structural e => e

/-- Substitutes in each element of a chain. -/
def substituteAll (x : String) (r : Value) : Value → Value
  | pair head tail => pair (substitute x r head) (substituteAll x r tail)
  | v => v
termination_by structural e => e

/-- Substitutes in each element of a chain but the first, which is a parameter list. -/
def substituteBody (x : String) (r : Value) : Value → Value
  | pair params rest => pair params (substituteAll x r rest)
  | v => v
termination_by structural e => e

end

variable {x : String} {r head args : Value}

open SpecialForm

theorem substitute_symbol_self (x : String) (r : Value) : substitute x r (symbol x) = r :=
  if_pos rfl

theorem substitute_symbol_ne {y : String} (h : y ≠ x) (r : Value) :
    substitute x r (symbol y) = symbol y :=
  if_neg h

theorem substitute_application (h : ofHead? head = none) (args : Value) :
    substitute x r (pair head args) = pair (substitute x r head) (substituteAll x r args) := by
  rw [substitute, h]

theorem substitute_quote (h : ofHead? head = some .quote) (args : Value) :
    substitute x r (pair head args) = pair head args := by
  rw [substitute, h]

theorem substitute_conditional (h : ofHead? head = some .conditional) (args : Value) :
    substitute x r (pair head args) =
      pair head (if (conditionalParts args).isOk then substituteAll x r args else args) := by
  rw [substitute, h]

theorem substitute_lambda (h : ofHead? head = some .lambda) (args : Value) :
    substitute x r (pair head args) =
      pair head (if leavesFree x args then substituteBody x r args else args) := by
  rw [substitute, h]

/-- No head becomes the name of a special form. -/
theorem ofHead?_substitute (h : ofHead? head = none) (v : Value) :
    ofHead? (substitute x (quotation v) head) = none := by
  cases head with
  | symbol y =>
    by_cases hy : y = x
    · rw [hy, substitute_symbol_self]
      rfl
    · rwa [substitute_symbol_ne hy]
  | pair a b =>
    rw [substitute]
    split <;> rfl
  | _ => rfl

theorem conditionalParts_substituteAll {c : ConditionalParts}
    (hc : conditionalParts args = .ok c) (x : String) (r : Value) :
    conditionalParts (substituteAll x r args) = .ok (c.map (substitute x r)) := by
  unfold conditionalParts at hc
  split at hc <;> cases hc <;> rfl

theorem lambdaParts_substituteBody {l : LambdaParts} (hl : lambdaParts args = .ok l) (x : String)
    (r : Value) :
    lambdaParts (substituteBody x r args) = .ok ⟨l.params, substitute x r l.body⟩ := by
  obtain ⟨params, rfl, hp⟩ := lambdaParts_eq_ok_iff.1 hl
  exact lambdaParts_eq_ok_iff.2 ⟨params, rfl, hp⟩

end Value

end ScopedLisp
