import ScopedLisp.Proofs.Evaluation.Contract

namespace ScopedLisp.Value

open SpecialForm

mutual

def nesting : Value → Nat
  | pair head args =>
    match ofHead? head with
    | none => max (nesting head) (nestingFrom 0 args)
    | some .quote => 0
    | some .conditional => if (conditionalParts args).isOk then nestingFrom 0 args else 0
    | some .lambda => if (lambdaParts args).isOk then nestingFrom 1 args + 1 else 0
    | some .defun => if (defunParts args).isOk then nestingFrom 2 args + 1 else 0
  | _ => 0
termination_by structural e => e

/-- The greatest nesting among the elements of a chain, without the first `n` elements. -/
def nestingFrom : Nat → Value → Nat
  | 0, pair head tail => max (nesting head) (nestingFrom 0 tail)
  | n + 1, pair _ tail => nestingFrom n tail
  | _, _ => 0
termination_by structural _ e => e

end

/-- The greatest nesting among the expressions. -/
def deepest (es : List Value) : Nat := es.foldr (fun e n => max e.nesting n) 0

variable {head args v e : Value}

theorem nesting_le_nestingFrom (hv : v ∈ args.unchain.1) : v.nesting ≤ nestingFrom 0 args := by
  induction args with
  | pair head tail _ ih =>
    rw [nestingFrom]
    rcases List.mem_cons.1 hv with rfl | hv
    · exact Nat.le_max_left _ _
    · exact Nat.le_trans (ih hv) (Nat.le_max_right _ _)
  | _ => cases hv

theorem nesting_head_le (h : ofHead? head = none) : head.nesting ≤ (pair head args).nesting := by
  rw [nesting, h]
  exact Nat.le_max_left _ _

theorem nesting_argument_le (h : ofHead? head = none) (hv : v ∈ args.unchain.1) :
    v.nesting ≤ (pair head args).nesting := by
  rw [nesting, h]
  exact Nat.le_trans (nesting_le_nestingFrom hv) (Nat.le_max_right _ _)

theorem nesting_branch_le {c : ConditionalParts} (h : ofHead? head = some .conditional)
    (hc : conditionalParts args = .ok c) (hv : v ∈ c.expressions) :
    v.nesting ≤ (pair head args).nesting := by
  rw [← unchain_of_conditionalParts hc] at hv
  rw [nesting, h, hc]
  exact nesting_le_nestingFrom hv

theorem nestingFrom_lambdaParts {l : LambdaParts} (hl : lambdaParts args = .ok l) :
    nestingFrom 1 args = l.body.nesting := by
  obtain ⟨params, rfl, -⟩ := lambdaParts_eq_ok_iff.1 hl
  simp [nestingFrom]

/-- What makes a closure is nested once more than the body. -/
theorem Makes.nesting_eq {l : LambdaParts} (h : e.Makes l) : e.nesting = l.body.nesting + 1 := by
  cases h with
  | lambda hhead hl =>
    rw [nesting, hhead, hl, ← nestingFrom_lambdaParts hl]
    rfl
  | defun hhead hd heq =>
    rw [nesting, hhead, hd]
    obtain ⟨rest, rfl, hl⟩ := defunParts_eq_ok_iff.1 hd
    rw [heq] at hl
    rw [← nestingFrom_lambdaParts hl]
    rfl

variable {es : List Value}

theorem nesting_le_deepest (he : e ∈ es) : e.nesting ≤ deepest es := by
  induction es with
  | nil => cases he
  | cons e' es ih =>
    rcases List.mem_cons.1 he with rfl | he
    · exact Nat.le_max_left _ _
    · exact Nat.le_trans (ih he) (Nat.le_max_right _ _)

theorem deepest_le_append (es more : List Value) : deepest es ≤ deepest (es ++ more) := by
  induction es with
  | nil => exact Nat.zero_le _
  | cons e es ih =>
    change max e.nesting (deepest es) ≤ max e.nesting (deepest (es ++ more))
    omega

end ScopedLisp.Value
