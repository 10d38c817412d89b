import ScopedLisp.Value

namespace ScopedLisp

def Procedure.IsArithmetic (p : Procedure) : Prop := ∃ op, p = .arithmetic op

namespace Value

/-- Heads and tails of pairs lead from the second value to the first. -/
inductive PartOf (part : Value) : Value → Prop
  | self : PartOf part part
  | head {head : Value} (h : PartOf part head) (tail : Value) : PartOf part (pair head tail)
  | tail {tail : Value} (h : PartOf part tail) (head : Value) : PartOf part (pair head tail)

theorem partOf_pair {part head tail : Value} :
    part.PartOf (pair head tail) ↔ part = pair head tail ∨ part.PartOf head ∨ part.PartOf tail := by
  constructor
  · intro h
    rcases h with _ | h | h
    · exact .inl rfl
    · exact .inr (.inl h)
    · exact .inr (.inr h)
  · intro h
    rcases h with rfl | h | h
    · exact .self
    · exact .head h tail
    · exact .tail h head

theorem partOf_atom {part v : Value} (hv : v.kind ≠ .pair) : part.PartOf v ↔ part = v := by
  constructor
  · intro h
    rcases h with _ | _ | _
    · rfl
    · exact absurd rfl hv
    · exact absurd rfl hv
  · intro heq
    subst heq
    exact .self

def decidePartOf (part : Value) : (v : Value) → Decidable (part.PartOf v)
  | pair head tail =>
    have := decidePartOf part head
    have := decidePartOf part tail
    decidable_of_iff _ partOf_pair.symm
  | number _ | string _ | boolean _ | symbol _ | nil | closure .. | native .. =>
    decidable_of_iff _ (partOf_atom (by simp [kind])).symm

instance (part v : Value) : Decidable (part.PartOf v) := decidePartOf part v

theorem PartOf.trans {u v w : Value} (huv : u.PartOf v) (hvw : v.PartOf w) : u.PartOf w := by
  induction hvw with
  | self => exact huv
  | head _ tail ih => exact .head ih tail
  | tail _ head ih => exact .tail ih head

/-- What goes over from pairs to their heads and tails goes over to all parts. -/
theorem PartOf.inherits {P : Value → Prop} {part v : Value} (h : part.PartOf v) (hv : P v)
    (hhead : ∀ {head tail}, P (pair head tail) → P head)
    (htail : ∀ {head tail}, P (pair head tail) → P tail) : P part := by
  induction h with
  | self => exact hv
  | head _ _ ih => exact ih (hhead hv)
  | tail _ _ ih => exact ih (htail hv)

theorem unchain_chain (items : List Value) (tail : Value) :
    (chain items tail).unchain = (items ++ tail.unchain.1, tail.unchain.2) := by
  induction items with
  | nil => rfl
  | cons v items ih => simp [unchain, ih]

@[simp] theorem unchain_list (items : List Value) : (list items).unchain = (items, nil) := by
  rw [list, unchain_chain]
  simp [unchain]

theorem partOf_of_mem_unchain {v w : Value} (h : v ∈ w.unchain.1) : v.PartOf w := by
  induction w with
  | pair head tail _ ih =>
    rcases List.mem_cons.1 h with rfl | htail
    · exact .head .self tail
    · exact .tail (ih htail) head
  | _ => cases h

/-- Closures in the value, or in the body of one, have scopes in `R`, and native procedures are as
`N` says. -/
def Within (R : ScopeId → Prop) (N : Procedure → Prop) : Value → Prop
  | pair head tail => Within R N head ∧ Within R N tail
  | closure _ _ _ body scope => R scope ∧ Within R N body
  | native _ procedure => N procedure
  | _ => True

theorem Within.part {R : ScopeId → Prop} {N : Procedure → Prop} {part v : Value}
    (hv : v.Within R N) (h : part.PartOf v) : part.Within R N :=
  h.inherits hv (fun hpair => hpair.1) fun hpair => hpair.2

end Value

end ScopedLisp
