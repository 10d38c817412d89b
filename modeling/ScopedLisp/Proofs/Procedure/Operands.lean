import Mathlib.Data.List.Forall2
import ScopedLisp.Procedure.Arithmetic

namespace ScopedLisp.Arithmetic

/-- The two values are the same number, or no numbers but of one kind. -/
def SameOperand (v w : Value) : Prop := v.number? = w.number? ∧ v.kind = w.kind

variable {op : Arithmetic} {vs ws : List Value}

theorem operand_congr {v w : Value} (h : SameOperand v w) : op.operand v = op.operand w := by
  rw [operand, operand, h.1, h.2]

theorem divisor_congr {v w : Value} (h : SameOperand v w) : divisor v = divisor w := by
  rw [divisor, divisor, operand_congr h]

theorem operands_congr (h : List.Forall₂ SameOperand vs ws) : op.operands vs = op.operands ws := by
  unfold operands
  induction h with
  | nil => rfl
  | cons hv _ ih => rw [List.mapM_cons, List.mapM_cons, operand_congr hv, ih]

theorem divisions_congr (h : List.Forall₂ SameOperand vs ws) (x : Float) :
    vs.foldlM (fun x v => return x / (← divisor v)) x =
      ws.foldlM (fun x v => return x / (← divisor v)) x := by
  induction h generalizing x with
  | nil => rfl
  | cons hv _ ih =>
    rw [List.foldlM_cons, List.foldlM_cons, divisor_congr hv]
    exact congrArg _ (funext ih)

theorem quotient_congr (h : List.Forall₂ SameOperand vs ws) : quotient vs = quotient ws := by
  match h with
  | .nil => rfl
  | .cons hv .nil => rw [quotient, quotient, divisor_congr hv]
  | .cons hv (.cons hw hrest) =>
    simp only [quotient, operand_congr hv, divisions_congr (.cons hw hrest)]

/-- Operands that arithmetic cannot tell apart have the same outcome. -/
theorem apply_congr (op : Arithmetic) (h : List.Forall₂ SameOperand vs ws) :
    op.apply vs = op.apply ws := by
  cases op with
  | add | subtract | multiply => rw [apply, apply]; simp only [operands_congr h]
  | divide => rw [apply, apply]; simp only [quotient_congr h]

theorem apply_eq_number {v : Value} (h : op.apply vs = .ok v) : ∃ x, v = .number x := by
  have hnumber : ∀ {result : Except EvalError Float}, Value.number <$> result = .ok v →
      ∃ x, v = .number x := by
    intro result h
    cases result with
    | error e => cases h
    | ok x =>
      cases h
      exact ⟨x, rfl⟩
  exact hnumber h

end ScopedLisp.Arithmetic
