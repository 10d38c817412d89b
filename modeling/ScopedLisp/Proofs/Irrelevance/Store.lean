import ScopedLisp.Proofs.Irrelevance.Reach

namespace ScopedLisp

namespace Store

/-- The second store is the first one, but that the scope `s` binds `n` to `v`. -/
structure AlsoBinds (s : ScopeId) (n : String) (v : Value) (σ σ' : Store) : Prop where
  size : σ'.scopes.size = σ.scopes.size
  closures : σ'.closures = σ.closures
  parent? (i : ScopeId) : σ'.parent? i = σ.parent? i
  local? (i : ScopeId) (x : String) :
    σ'.local? i x = if i = s ∧ x = n then some v else σ.local? i x

variable {σ σ' : Store} {s ρ scope : ScopeId} {n x : String} {v w : Value}

theorem alsoBinds_bind (hs : s < σ.scopes.size) (n : String) (v : Value) :
    σ.AlsoBinds s n v (σ.bind s n v) where
  size := by simp
  closures := rfl
  parent? := by simp
  local? i x := by simp [local?_bind, hs]

namespace AlsoBinds

variable (h : σ.AlsoBinds s n v σ')

include h

theorem get? (hx : x ≠ n) (ρ : ScopeId) : σ'.get? ρ x = σ.get? ρ x :=
  get?_congr (fun i _ => h.parent? i) fun i _ => by rw [h.local?, if_neg fun hc => hx hc.2]

theorem newClosureId : σ.newClosureId.2.AlsoBinds s n v σ'.newClosureId.2 where
  size := h.size
  closures := congrArg (· + 1) h.closures
  parent? := h.parent?
  local? := h.local?

theorem bind (hx : x ≠ n) (ρ : ScopeId) (w : Value) :
    (σ.bind ρ x w).AlsoBinds s n v (σ'.bind ρ x w) where
  size := by simp [h.size]
  closures := h.closures
  parent? := by simp [h.parent?]
  local? i y := by
    rw [local?_bind, local?_bind, h.size, h.local?]
    by_cases hy : i = ρ ∧ y = x ∧ ρ < σ.scopes.size
    · simp [hy, hx]
    · simp [hy]

/-- The frame of a call is another scope than `s`. -/
theorem enter (hs : s < σ.scopes.size) (scope : ScopeId) (bs : List (String × Value)) :
    (σ.enter scope bs).AlsoBinds s n v (σ'.enter scope bs) where
  size := by simp [h.size]
  closures := by simp [h.closures]
  parent? i := by rw [parent?_enter, parent?_enter, h.size, h.parent?]
  local? i y := by
    rw [local?_enter, local?_enter, h.size, h.local?]
    by_cases hi : i = σ.scopes.size
    · simp [hi, Nat.ne_of_gt hs]
    · simp [hi]

end AlsoBinds

/-- The scopes in `R` stand in scopes in `R`, and the closures that they bind are as `K` says. -/
structure Confined (σ : Store) (R : ScopeId → Prop) (K : Value → ScopeId → Prop) : Prop where
  parents {i p : ScopeId} (hi : R i) (hp : σ.parent? i = some p) : R p
  values {i : ScopeId} {x : String} {v : Value} (hi : R i) (hv : σ.local? i x = some v) :
    v.ClosuresAre K

namespace Confined

variable {R : ScopeId → Prop} {K : Value → ScopeId → Prop} (h : σ.Confined R K)

include h

theorem get? (hρ : R ρ) (hv : σ.get? ρ x = some v) : v.ClosuresAre K :=
  get?_through h.parents h.values hρ hv

theorem newClosureId : σ.newClosureId.2.Confined R K := ⟨h.parents, h.values⟩

theorem bind (hv : v.ClosuresAre K) (ρ : ScopeId) (x : String) : (σ.bind ρ x v).Confined R K where
  parents hi hp := h.parents hi ((parent?_bind ..).symm.trans hp)
  values hi hw := by
    rw [local?_bind] at hw
    split at hw
    · cases hw
      exact hv
    · exact h.values hi hw

theorem enter (hscope : R scope) {bs : List (String × Value)}
    (hbs : ∀ b ∈ bs, b.2.ClosuresAre K) : (σ.enter scope bs).Confined R K where
  parents hi hp := by
    rw [parent?_enter] at hp
    split at hp
    · cases hp
      exact hscope
    · exact h.parents hi hp
  values hi hv := by
    rw [local?_enter] at hv
    split at hv
    · obtain ⟨before, after, heq, -⟩ := List.lookup_eq_some_iff.1 hv
      have hmem : (_, _) ∈ bs.reverse := heq ▸ List.mem_append_right before List.mem_cons_self
      exact hbs _ (List.mem_reverse.1 hmem)
    · exact h.values hi hv

end Confined

end Store

end ScopedLisp
