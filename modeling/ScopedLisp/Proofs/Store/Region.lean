import ScopedLisp.Proofs.Store.Lookup
import ScopedLisp.Proofs.Value.Part

namespace ScopedLisp.Store

/-- Parents of the scopes in `R`, and the scopes of closures in what they bind, are in `R`; native
procedures in what they bind are as `N` says. -/
structure Region (σ : Store) (R : ScopeId → Prop) (N : Procedure → Prop) : Prop where
  size {ρ : ScopeId} (hρ : R ρ) : ρ < σ.scopes.size
  parents {ρ p : ScopeId} (hρ : R ρ) (hp : σ.parent? ρ = some p) : R p
  values {ρ : ScopeId} {x : String} {v : Value} (hρ : R ρ) (hv : σ.local? ρ x = some v) :
    v.Within R N

theorem Region.get? {σ : Store} {R : ScopeId → Prop} {N : Procedure → Prop} (h : σ.Region R N)
    {ρ : ScopeId} {x : String} {v : Value} (hρ : R ρ) (hv : σ.get? ρ x = some v) :
    v.Within R N :=
  get?_through h.parents h.values hρ hv

/-- A new global scope reaches nothing but itself. -/
theorem region_newGlobal (σ : Store) :
    σ.newGlobal.2.Region (· = σ.newGlobal.1) Procedure.IsArithmetic where
  size := by
    intro ρ heq
    subst heq
    simp [newGlobal, newScope]
  parents := by
    intro ρ p heq hp
    subst heq
    rw [parent?_newGlobal] at hp
    cases hp
  values := by
    intro ρ x v heq hv
    subst heq
    rw [local?_newGlobal] at hv
    generalize Arithmetic.all = ops at hv
    induction ops with
    | nil => cases hv
    | cons op ops ih =>
      rw [List.map_cons, List.lookup_cons] at hv
      split at hv
      · cases hv
        exact ⟨op, rfl⟩
      · exact ih hv

end ScopedLisp.Store
