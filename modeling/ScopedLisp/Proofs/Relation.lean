import Mathlib.Data.List.Forall2
import ScopedLisp.Error

namespace Option.Rel

variable {α β : Type} {R S : α → β → Prop} {a a₁ : Option α} {b b₁ : Option β}

theorem mono (h : Rel R a b) (hRS : ∀ u v, R u v → S u v) : Rel S a b := by
  cases h with
  | some huv => exact .some (hRS _ _ huv)
  | none => exact .none

theorem or (h : Rel R a b) (h₁ : Rel R a₁ b₁) : Rel R (a.or a₁) (b.or b₁) := by
  cases h with
  | some huv => exact .some huv
  | none => exact h₁

end Option.Rel

namespace ScopedLisp

variable {α β : Type} {R S : α → β → Prop}

inductive Agree (R : α → β → Prop) : Except EvalError α → Except EvalError β → Prop
  | ok {a : α} {b : β} (h : R a b) : Agree R (.ok a) (.ok b)
  | error (e : EvalError) : Agree R (.error e) (.error e)

theorem Agree.mono {r : Except EvalError α} {r' : Except EvalError β} (h : Agree R r r')
    (hRS : ∀ a b, R a b → S a b) : Agree S r r' := by
  cases h with
  | ok hab => exact .ok (hRS _ _ hab)
  | error e => exact .error e

/-- Related arguments give each parameter related values. -/
theorem lookup_zip_rel {as : List α} {bs : List β} (h : List.Forall₂ R as bs)
    (params : List String) (x : String) :
    Option.Rel R ((params.zip as).reverse.lookup x) ((params.zip bs).reverse.lookup x) := by
  induction h generalizing params with
  | nil => simp
  | @cons a b as bs hab _ ih =>
    cases params with
    | nil => exact .none
    | cons y params =>
      simp only [List.zip_cons_cons, List.reverse_cons, List.lookup_append]
      refine (ih params).or ?_
      by_cases hx : x = y
      · simpa [List.lookup_cons, hx] using hab
      · simp [List.lookup_cons, beq_false_of_ne hx]

/-- Exactly the parameters are bound if there is an argument for each. -/
theorem lookup_zip_isSome_iff {as : List α} {params : List String}
    (hn : as.length = params.length) (x : String) :
    ((params.zip as).reverse.lookup x).isSome ↔ x ∈ params := by
  have hnames : (params.zip as).map Prod.fst = params :=
    List.map_fst_zip (Nat.le_of_eq hn.symm)
  rw [List.lookup_isSome_iff]
  constructor
  · intro h
    obtain ⟨p, hp, hx⟩ := h
    rw [← hnames, eq_of_beq hx]
    exact List.mem_map_of_mem (List.mem_reverse.1 hp)
  · intro hx
    rw [← hnames] at hx
    obtain ⟨p, hp, rfl⟩ := List.mem_map.1 hx
    exact ⟨p, List.mem_reverse.2 hp, beq_self_eq_true _⟩

end ScopedLisp
