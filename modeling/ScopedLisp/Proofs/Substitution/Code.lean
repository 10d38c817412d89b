import ScopedLisp.Proofs.Evaluation.Simulation
import ScopedLisp.Proofs.Substitution.Frames

namespace ScopedLisp.Redex

open Pairing SpecialForm

variable {b : Redex} {m : Mode} {head args e e' : Value}

theorem corresponds_outside (e : Value) : b.Corresponds .outside e e := rfl

theorem corresponds_inner_outside (params : List String) (e : Value) :
    b.Corresponds (b.inner .outside params) e e := by
  rw [inner_outside]
  exact corresponds_outside e

theorem corresponds_symbol {x : String} (h : b.Corresponds m (.symbol x) e') :
    (e' = .symbol x ∧ (m = .inside → x ≠ b.name)) ∨
      (m = .inside ∧ x = b.name ∧ e' = .quotation b.argument) := by
  cases m with
  | outside => exact .inl ⟨h, nofun⟩
  | inside =>
    obtain ⟨-, rfl⟩ := h
    by_cases hx : x = b.name
    · rw [hx, Value.substitute_symbol_self]
      exact .inr ⟨rfl, rfl, rfl⟩
    · rw [Value.substitute_symbol_ne hx]
      exact .inl ⟨rfl, fun _ => hx⟩

/-- The elements of a chain in which no definition stands. -/
theorem chains_substituteAll {args : Value}
    (hdefun : ¬ (Value.symbol SpecialForm.defun.name).PartOf args) :
    Chains (b.Corresponds .inside) args (.substituteAll b.name (.quotation b.argument) args) := by
  induction args with
  | pair head tail _ ih =>
    exact .pair ⟨fun h => hdefun (.head h tail), rfl⟩ (ih fun h => hdefun (.tail h head))
  | _ => exact .tail (by simp [Value.kind])

theorem corresponds_application (hform : ofHead? head = none)
    (h : b.Corresponds m (.pair head args) e') :
    ∃ head' args', e' = .pair head' args' ∧ ofHead? head' = none ∧
      b.Corresponds m head head' ∧ Chains (b.Corresponds m) args args' := by
  cases m with
  | outside => exact ⟨head, args, h, hform, rfl, chains_self fun _ _ => rfl⟩
  | inside =>
    obtain ⟨hdefun, rfl⟩ := h
    exact ⟨_, _, Value.substitute_application hform args, Value.ofHead?_substitute hform _,
      ⟨fun h => hdefun (.head h args), rfl⟩,
      chains_substituteAll fun h => hdefun (.tail h head)⟩

theorem corresponds_quote (hform : ofHead? head = some .quote)
    (h : b.Corresponds m (.pair head args) e') : e' = .pair head args := by
  cases m with
  | outside => exact h
  | inside =>
    obtain ⟨-, rfl⟩ := h
    exact Value.substitute_quote hform args

theorem corresponds_malformed_conditional (hform : ofHead? head = some .conditional)
    {fault : ShapeFault} (hc : conditionalParts args = .error fault)
    (h : b.Corresponds m (.pair head args) e') : e' = .pair head args := by
  cases m with
  | outside => exact h
  | inside =>
    obtain ⟨-, rfl⟩ := h
    rw [Value.substitute_conditional hform, hc]
    rfl

theorem corresponds_conditional (hform : ofHead? head = some .conditional)
    {c : ConditionalParts} (hc : conditionalParts args = .ok c)
    (h : b.Corresponds m (.pair head args) e') :
    ∃ args' c', e' = .pair head args' ∧ conditionalParts args' = .ok c' ∧
      b.Corresponds m c.condition c'.condition ∧ b.Corresponds m c.consequent c'.consequent ∧
      Option.Rel (b.Corresponds m) c.alternative c'.alternative := by
  cases m with
  | outside =>
    refine ⟨args, c, h, hc, rfl, rfl, ?_⟩
    cases c.alternative with
    | none => exact .none
    | some alternative => exact .some rfl
  | inside =>
    obtain ⟨hdefun, rfl⟩ := h
    have hpart : ∀ part ∈ c.expressions, b.Corresponds .inside part
        (.substitute b.name (.quotation b.argument) part) := fun part hmem =>
      ⟨fun h => hdefun (.tail (h.trans (expressions_partOf hc hmem)) head), rfl⟩
    rw [Value.substitute_conditional hform, hc]
    refine ⟨_, _, rfl, Value.conditionalParts_substituteAll hc b.name _,
      hpart _ c.condition_mem_expressions, hpart _ c.consequent_mem_expressions, ?_⟩
    cases ha : c.alternative with
    | none =>
      simp only [ConditionalParts.map, ha, Option.map_none]
      exact .none
    | some alternative =>
      simp only [ConditionalParts.map, ha, Option.map_some]
      exact .some (hpart _ (c.alternative_mem_expressions ha))

theorem corresponds_malformed_lambda (hform : ofHead? head = some .lambda)
    {fault : ShapeFault} (hl : lambdaParts args = .error fault)
    (h : b.Corresponds m (.pair head args) e') : e' = .pair head args := by
  cases m with
  | outside => exact h
  | inside =>
    obtain ⟨-, rfl⟩ := h
    rw [Value.substitute_lambda hform, Value.leavesFree, hl]
    rfl

/-- The body of a lambda is to be evaluated in the mode of its frames. -/
theorem corresponds_lambda (hform : ofHead? head = some .lambda) {l : LambdaParts}
    (hl : lambdaParts args = .ok l) (h : b.Corresponds m (.pair head args) e') :
    ∃ args' l', e' = .pair head args' ∧ lambdaParts args' = .ok l' ∧ l'.params = l.params ∧
      b.Corresponds (b.inner m l.params) l.body l'.body := by
  cases m with
  | outside => exact ⟨args, l, h, hl, rfl, corresponds_inner_outside _ _⟩
  | inside =>
    obtain ⟨hdefun, rfl⟩ := h
    rw [Value.substitute_lambda hform, Value.leavesFree, hl]
    by_cases hx : b.name ∈ l.params
    · refine ⟨args, l, by simp [hx], hl, rfl, ?_⟩
      rw [inner, if_pos hx]
      exact corresponds_outside _
    · refine ⟨.substituteBody b.name (.quotation b.argument) args, _, by simp [hx],
        Value.lambdaParts_substituteBody hl _ _, rfl, ?_⟩
      rw [inner, if_neg hx]
      exact ⟨fun h => hdefun (.tail (h.trans (lambdaParts_body_partOf hl)) head), rfl⟩

/-- Definitions do not stand inside. -/
theorem corresponds_defun (hform : ofHead? head = some .defun)
    (h : b.Corresponds m (.pair head args) e') : m = .outside ∧ e' = .pair head args := by
  cases m with
  | outside => exact ⟨rfl, h⟩
  | inside => exact absurd (.head (ofHead?_eq_some_iff.1 hform ▸ .self) args) h.1

theorem corresponds_atom (hsymbol : e.kind ≠ .symbol) (hpair : e.kind ≠ .pair)
    (h : b.Corresponds m e e') : e' = e := by
  cases m with
  | outside => exact h
  | inside =>
    obtain ⟨-, rfl⟩ := h
    cases e with
    | symbol => exact absurd rfl hsymbol
    | pair => exact absurd rfl hpair
    | _ => rfl

end ScopedLisp.Redex
