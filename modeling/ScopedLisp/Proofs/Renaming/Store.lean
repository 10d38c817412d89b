import ScopedLisp.Proofs.Relation
import ScopedLisp.Proofs.Renaming.Value
import ScopedLisp.Proofs.Store.Lookup

namespace ScopedLisp.Store

/-- The scopes of the first store are in the second one under the ids that `r` gives them, and the
ids that the two stores give out next correspond. -/
structure Renames (r : Renaming) (σ σ' : Store) : Prop where
  nextScope (n : Nat) : r.scope (σ.scopes.size + n) = σ'.scopes.size + n
  nextClosure (n : Nat) : r.closure (σ.closures + n) = σ'.closures + n
  parents {i : ScopeId} (hi : i < σ.scopes.size) :
    σ'.parent? (r.scope i) = (σ.parent? i).map r.scope
  names {i : ScopeId} (hi : i < σ.scopes.size) (x : String) :
    σ'.local? (r.scope i) x = (σ.local? i x).map (Value.rename r)

namespace Renames

variable {r : Renaming} {σ σ' : Store} {i : ScopeId}

theorem newest (h : σ.Renames r σ') : r.scope σ.scopes.size = σ'.scopes.size := h.nextScope 0

theorem newestClosure (h : σ.Renames r σ') : r.closure σ.closures = σ'.closures := h.nextClosure 0

theorem lt_size_iff (h : σ.Renames r σ') : r.scope i < σ'.scopes.size ↔ i < σ.scopes.size := by
  rw [← h.newest, r.scope_strictMono.lt_iff_lt]

theorem parent? (h : σ.Renames r σ') (i : ScopeId) :
    σ'.parent? (r.scope i) = (σ.parent? i).map r.scope := by
  by_cases hi : i < σ.scopes.size
  · exact h.parents hi
  · have hi' : ¬ r.scope i < σ'.scopes.size := fun hlt => hi (h.lt_size_iff.1 hlt)
    simp [Store.parent?, Array.getElem?_eq_none (Nat.le_of_not_lt hi),
      Array.getElem?_eq_none (Nat.le_of_not_lt hi')]

theorem local? (h : σ.Renames r σ') (i : ScopeId) (x : String) :
    σ'.local? (r.scope i) x = (σ.local? i x).map (Value.rename r) := by
  by_cases hi : i < σ.scopes.size
  · exact h.names hi x
  · have hi' : ¬ r.scope i < σ'.scopes.size := fun hlt => hi (h.lt_size_iff.1 hlt)
    simp [Store.local?, Array.getElem?_eq_none (Nat.le_of_not_lt hi),
      Array.getElem?_eq_none (Nat.le_of_not_lt hi')]

/-- A name means in a renamed scope what it means in the scope, renamed. -/
theorem get? (h : σ.Renames r σ') (ρ : ScopeId) (x : String) :
    σ'.get? (r.scope ρ) x = (σ.get? ρ x).map (Value.rename r) := by
  induction ρ using Nat.strongRecOn with
  | _ ρ ih =>
    rw [get?_eq, get?_eq, h.local?, h.parent?, Option.map_or]
    congr 1
    cases σ.parent? ρ with
    | none => rfl
    | some p =>
      by_cases hp : p < ρ
      · have hp' : r.scope p < r.scope ρ := r.scope_strictMono hp
        simp [hp, hp', ih p hp]
      · have hp' : ¬ r.scope p < r.scope ρ := fun hlt => hp (r.scope_strictMono.lt_iff_lt.1 hlt)
        simp [hp, hp']

theorem newClosureId (h : σ.Renames r σ') :
    σ.newClosureId.2.Renames r σ'.newClosureId.2 where
  nextScope := h.nextScope
  nextClosure n := by
    have hnext := h.nextClosure (n + 1)
    simp only [Store.newClosureId]
    rw [Nat.add_assoc, Nat.add_assoc, Nat.add_comm 1 n]
    exact hnext
  parents := h.parents
  names := h.names

theorem bind (h : σ.Renames r σ') (ρ : ScopeId) (x : String) (v : Value) :
    (σ.bind ρ x v).Renames r (σ'.bind (r.scope ρ) x (v.rename r)) where
  nextScope n := by simpa using h.nextScope n
  nextClosure := h.nextClosure
  parents {i} hi := by
    rw [parent?_bind, parent?_bind]
    exact h.parent? i
  names {i} hi y := by
    simp only [local?_bind, h.local?, r.scope_strictMono.injective.eq_iff, h.lt_size_iff]
    split <;> rfl

/-- Calls in corresponding scopes with corresponding arguments get corresponding frames. -/
theorem enter (h : σ.Renames r σ') (scope : ScopeId) (params : List String) (vs : List Value) :
    (σ.enter scope (params.zip vs)).Renames r
      (σ'.enter (r.scope scope) (params.zip (vs.map (Value.rename r)))) where
  nextScope n := by
    have hnext := h.nextScope (1 + n)
    rw [size_enter, size_enter, Nat.add_assoc, Nat.add_assoc]
    exact hnext
  nextClosure n := by simpa using h.nextClosure n
  parents {i} hi := by
    rw [size_enter] at hi
    rcases Nat.lt_succ_iff_lt_or_eq.1 hi with hi | rfl
    · rw [(Keeps.enter σ scope _).parent? hi, (Keeps.enter σ' _ _).parent? (h.lt_size_iff.2 hi)]
      exact h.parents hi
    · rw [h.newest, parent?_enter_frame, parent?_enter_frame]
      rfl
  names {i} hi x := by
    rw [size_enter] at hi
    rcases Nat.lt_succ_iff_lt_or_eq.1 hi with hi | rfl
    · rw [(Keeps.enter σ scope _).local? hi, (Keeps.enter σ' _ _).local? (h.lt_size_iff.2 hi)]
      exact h.names hi x
    · rw [h.newest, local?_enter_frame, local?_enter_frame]
      have hvs : List.Forall₂ (fun v v' => v' = v.rename r) vs (vs.map (Value.rename r)) :=
        List.forall₂_map_right_iff.2 (List.forall₂_same.2 fun v _ => rfl)
      have hx := lookup_zip_rel hvs params x
      generalize (params.zip vs).reverse.lookup x = v,
        (params.zip (vs.map (Value.rename r))).reverse.lookup x = v' at hx
      cases hx with
      | none => rfl
      | some hv => exact congrArg some hv

end Renames

end ScopedLisp.Store
