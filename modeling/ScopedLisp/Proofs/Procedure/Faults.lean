import ScopedLisp.Procedure.Arithmetic

namespace ScopedLisp

/-- If the outcome is an error, it is one as `P` says. -/
def OnlyFails {α : Type} (P : EvalError → Prop) (outcome : Except EvalError α) : Prop :=
  ∀ e, outcome = .error e → P e

variable {α β : Type} {P : EvalError → Prop}

theorem onlyFails_ok (a : α) : OnlyFails P (.ok a) := nofun

theorem onlyFails_error {e : EvalError} (h : P e) :
    OnlyFails P (.error e : Except EvalError α) := by
  intro e' heq
  cases heq
  exact h

theorem OnlyFails.bind {outcome : Except EvalError α} {f : α → Except EvalError β}
    (h : OnlyFails P outcome) (hf : ∀ a, OnlyFails P (f a)) : OnlyFails P (outcome >>= f) := by
  cases outcome with
  | error e => exact onlyFails_error (h e rfl)
  | ok a => exact hf a

theorem OnlyFails.map {outcome : Except EvalError α} (h : OnlyFails P outcome) (f : α → β) :
    OnlyFails P (f <$> outcome) := by
  rw [map_eq_pure_bind]
  exact h.bind fun a => onlyFails_ok (f a)

theorem onlyFails_mapM {f : α → Except EvalError β} (h : ∀ a, OnlyFails P (f a)) (as : List α) :
    OnlyFails P (as.mapM f) := by
  induction as with
  | nil => exact onlyFails_ok []
  | cons a as ih =>
    rw [List.mapM_cons]
    exact (h a).bind fun b => ih.bind fun bs => onlyFails_ok (b :: bs)

theorem onlyFails_foldlM {f : β → α → Except EvalError β} (h : ∀ b a, OnlyFails P (f b a))
    (as : List α) (b : β) : OnlyFails P (as.foldlM f b) := by
  induction as generalizing b with
  | nil => exact onlyFails_ok b
  | cons a as ih =>
    rw [List.foldlM_cons]
    exact (h b a).bind ih

namespace Arithmetic

/-- What is wrong with operands: one is no number, none is there, or one divides and is zero. -/
inductive Fault (op : Arithmetic) : EvalError → Prop
  | noNumber (kind : Kind) : Fault op (.typeMismatch op.symbol "number" kind)
  | noOperand : Fault op op.noOperand
  | zeroDivisor : Fault op .divisionByZero

theorem onlyFails_operand (op : Arithmetic) (v : Value) : OnlyFails op.Fault (op.operand v) := by
  unfold operand
  split
  · exact onlyFails_ok _
  · exact onlyFails_error (.noNumber _)

theorem onlyFails_operands (op : Arithmetic) (vs : List Value) :
    OnlyFails op.Fault (op.operands vs) := onlyFails_mapM op.onlyFails_operand vs

theorem onlyFails_divisor (v : Value) : OnlyFails divide.Fault (divisor v) := by
  refine (divide.onlyFails_operand v).bind fun x => ?_
  split
  · exact onlyFails_error .zeroDivisor
  · exact onlyFails_ok x

theorem onlyFails_difference (xs : List Float) : OnlyFails subtract.Fault (difference xs) := by
  unfold difference
  split
  · exact onlyFails_error .noOperand
  · exact onlyFails_ok _
  · exact onlyFails_ok _

theorem onlyFails_quotient (vs : List Value) : OnlyFails divide.Fault (quotient vs) := by
  unfold quotient
  split
  · exact onlyFails_error .noOperand
  · exact (onlyFails_divisor _).bind fun x => onlyFails_ok _
  · refine (divide.onlyFails_operand _).bind fun x => onlyFails_foldlM (fun x v => ?_) _ x
    exact (onlyFails_divisor v).bind fun y => onlyFails_ok _

theorem onlyFails_apply (op : Arithmetic) (vs : List Value) : OnlyFails op.Fault (op.apply vs) := by
  refine OnlyFails.map ?_ Value.number
  cases op with
  | add => exact (onlyFails_operands add vs).map sum
  | subtract => exact (onlyFails_operands subtract vs).bind onlyFails_difference
  | multiply => exact (onlyFails_operands multiply vs).map product
  | divide => exact onlyFails_quotient vs

end Arithmetic

end ScopedLisp
