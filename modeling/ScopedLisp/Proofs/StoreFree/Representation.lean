import ScopedLisp.Proofs.Procedure.Operands
import ScopedLisp.Proofs.Relation
import ScopedLisp.Proofs.Store.Lookup
import ScopedLisp.Proofs.StoreFree.Interpreter

namespace ScopedLisp

/-- Data without closures, and without native procedures but the arithmetic ones. All that is read
from a text is such. -/
def Value.IsSource (v : Value) : Prop :=
  v.Within (fun _ => False) Procedure.IsArithmetic

namespace StoreFree

/-- Data in which the symbol `defun` does not occur. -/
structure IsProgram (e : Value) : Prop where
  source : e.IsSource
  noDefinition : ¬ (Value.symbol SpecialForm.defun.name).PartOf e

theorem IsProgram.part {e part : Value} (he : IsProgram e) (h : part.PartOf e) :
    IsProgram part :=
  ⟨he.source.part h, fun hdefun => he.noDefinition (hdefun.trans h)⟩

theorem IsProgram.head {head args : Value} (he : IsProgram (.pair head args)) : IsProgram head :=
  he.part (.head .self args)

theorem IsProgram.tail {head args : Value} (he : IsProgram (.pair head args)) : IsProgram args :=
  he.part (.tail .self head)

/-- The value of a store and the value of an environment are the same data, or closures that differ
in nothing but that the environment of the second one says what a name means around the first. -/
inductive Represents (σ : Store) : Value → Val → Prop
  | datum {v : Value} (hv : v.IsSource) : Represents σ v (.datum v)
  | closure {scope : ScopeId} {body : Value} {env : Env} (hscope : scope < σ.scopes.size)
      (hbody : IsProgram body) (hnone : ∀ x, σ.get? scope x = none ↔ env.lookup x = none)
      (hsome : ∀ x v p, σ.get? scope x = some v → env.lookup x = some p → Represents σ v p)
      (id : ClosureId) (name : Option String) (params : List String) :
      Represents σ (.closure id name params body scope) (.closure name params body env)

/-- A name means in the scope what it means in the environment. -/
structure Models (σ : Store) (ρ : ScopeId) (env : Env) : Prop where
  scope : ρ < σ.scopes.size
  names : ∀ x, Option.Rel (Represents σ) (σ.get? ρ x) (env.lookup x)

variable {σ σ' : Store} {ρ : ScopeId} {env : Env}

theorem Models.closure {body : Value} (h : Models σ ρ env) (hbody : IsProgram body)
    (id : ClosureId) (name : Option String) (params : List String) :
    Represents σ (.closure id name params body ρ) (.closure name params body env) := by
  refine .closure h.scope hbody (fun x => ?_) (fun x v p hv hp => ?_) id name params
  · generalize σ.get? ρ x = v, env.lookup x = p, h.names x = hx
    cases hx <;> simp
  · have hx := h.names x
    rw [hv, hp] at hx
    cases hx with
    | some hvp => exact hvp

theorem Represents.models {id : ClosureId} {name name' : Option String}
    {params params' : List String} {body body' : Value}
    (h : Represents σ (.closure id name params body ρ) (.closure name' params' body' env)) :
    Models σ ρ env := by
  cases h with
  | closure hscope hbody hnone hsome =>
    refine ⟨hscope, fun x => ?_⟩
    cases hv : σ.get? ρ x with
    | none =>
      rw [(hnone x).1 hv]
      exact .none
    | some v =>
      cases hp : env.lookup x with
      | none =>
        rw [(hnone x).2 hp] at hv
        cases hv
      | some p => exact .some (hsome x v p hv hp)

theorem Represents.keeps {v : Value} {p : Val} (h : Represents σ v p) (hk : σ.Keeps σ') :
    Represents σ' v p := by
  induction h with
  | datum hv => exact .datum hv
  | closure hscope hbody hnone hsome id name params ih =>
    refine .closure (Nat.lt_of_lt_of_le hscope hk.size_le) hbody (fun x => ?_)
      (fun x v p hv hp => ?_) id name params
    · rw [hk.get? hscope]
      exact hnone x
    · rw [hk.get? hscope] at hv
      exact ih x v p hv hp

theorem Models.keeps (h : Models σ ρ env) (hk : σ.Keeps σ') : Models σ' ρ env := by
  refine ⟨Nat.lt_of_lt_of_le h.scope hk.size_le, fun x => ?_⟩
  rw [hk.get? h.scope]
  exact (h.names x).mono fun _ _ hvp => hvp.keeps hk

/-- Procedures do not tell a value from its representation. -/
theorem Represents.sameOperand {v : Value} {p : Val} (h : Represents σ v p) :
    Arithmetic.SameOperand v p.shown := by
  cases h <;> exact ⟨rfl, rfl⟩

theorem Represents.isTruthy {v : Value} {p : Val} (h : Represents σ v p) :
    v.isTruthy = p.shown.isTruthy := by
  cases h <;> rfl

/-- The frame of a call is represented by the arguments in front of the closure's environment. -/
theorem Models.enter (h : Models σ ρ env) (params : List String) {vs : List Value}
    {ps : List Val} (hvs : List.Forall₂ (Represents σ) vs ps) :
    Models (σ.enter ρ (params.zip vs)) σ.scopes.size ((params.zip ps).reverse ++ env) := by
  have hk := Store.Keeps.enter σ ρ (params.zip vs)
  refine ⟨by simp, fun x => ?_⟩
  rw [Store.get?_enter_frame h.scope, List.lookup_append]
  exact ((lookup_zip_rel hvs params x).or (h.names x)).mono fun _ _ hvp => hvp.keeps hk

end StoreFree

end ScopedLisp
