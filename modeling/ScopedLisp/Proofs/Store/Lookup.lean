import ScopedLisp.Proofs.Store.Call

namespace ScopedLisp.Store

/-- The innermost binding is the scope's own or else what the name means around it. -/
theorem get?_eq (σ : Store) (ρ : ScopeId) (x : String) :
    σ.get? ρ x = (σ.local? ρ x).or
      ((σ.parent? ρ).bind fun p => if p < ρ then σ.get? p x else none) := by
  rw [get?, chain]
  cases hp : σ.parent? ρ with
  | none => cases h : σ.local? ρ x <;> simp [h]
  | some p =>
    by_cases hlt : p < ρ
    · cases h : σ.local? ρ x <;> simp [h, hlt, get?]
    · cases h : σ.local? ρ x <;> simp [h, hlt]

/-- What scopes bind on the way through `R` has `P`, if `R` is closed under parents. -/
theorem get?_through {σ : Store} {R : ScopeId → Prop} {P : Value → Prop} {ρ : ScopeId} {x : String}
    {v : Value} (hparents : ∀ {i p}, R i → σ.parent? i = some p → R p)
    (hvalues : ∀ {i v}, R i → σ.local? i x = some v → P v) (hρ : R ρ) (hv : σ.get? ρ x = some v) :
    P v := by
  induction ρ using Nat.strongRecOn with
  | _ ρ ih =>
    rw [get?_eq, Option.or_eq_some_iff] at hv
    rcases hv with hv | ⟨-, hv⟩
    · exact hvalues hρ hv
    · obtain ⟨p, hp, hv⟩ := Option.bind_eq_some_iff.1 hv
      split at hv
      · next hlt => exact ih p hlt (hparents hρ hp) hv
      · cases hv

theorem get?_congr {σ σ' : Store} {ρ : ScopeId} {x : String}
    (hparent : ∀ i ≤ ρ, σ'.parent? i = σ.parent? i)
    (hlocal : ∀ i ≤ ρ, σ'.local? i x = σ.local? i x) : σ'.get? ρ x = σ.get? ρ x := by
  induction ρ using Nat.strongRecOn with
  | _ ρ ih =>
    rw [get?_eq, get?_eq, hlocal ρ (Nat.le_refl ρ), hparent ρ (Nat.le_refl ρ)]
    congr 1
    cases σ.parent? ρ with
    | none => rfl
    | some p =>
      by_cases hp : p < ρ
      · have hle {i : ScopeId} (hi : i ≤ p) : i ≤ ρ := Nat.le_trans hi (Nat.le_of_lt hp)
        simp [hp, ih p hp (fun i hi => hparent i (hle hi)) fun i hi => hlocal i (hle hi)]
      · simp [hp]

/-- Every scope of the first store is in the second one as it was. -/
def Keeps (σ σ' : Store) : Prop := ∀ i < σ.scopes.size, σ'.scopes[i]? = σ.scopes[i]?

variable {σ₀ σ σ' : Store} {ρ : ScopeId}

theorem Keeps.size_le (h : σ.Keeps σ') : σ.scopes.size ≤ σ'.scopes.size := by
  refine Nat.le_of_not_lt fun hlt => ?_
  have hlost := h σ'.scopes.size hlt
  rw [Array.getElem?_eq_none (Nat.le_refl _), Array.getElem?_eq_getElem hlt] at hlost
  cases hlost

theorem Keeps.trans (h₀ : σ₀.Keeps σ) (h : σ.Keeps σ') : σ₀.Keeps σ' := fun i hi =>
  (h i (Nat.lt_of_lt_of_le hi h₀.size_le)).trans (h₀ i hi)

theorem Keeps.enter (σ : Store) (scope : ScopeId) (bs : List (String × Value)) :
    σ.Keeps (σ.enter scope bs) := fun _ hi => getElem?_enter hi scope bs

theorem Keeps.parent? (h : σ.Keeps σ') (hρ : ρ < σ.scopes.size) :
    σ'.parent? ρ = σ.parent? ρ := by
  rw [Store.parent?, Store.parent?, h ρ hρ]

theorem Keeps.local? (h : σ.Keeps σ') (hρ : ρ < σ.scopes.size) (x : String) :
    σ'.local? ρ x = σ.local? ρ x := by
  rw [Store.local?, Store.local?, h ρ hρ]

theorem Keeps.get? (h : σ.Keeps σ') (hρ : ρ < σ.scopes.size) (x : String) :
    σ'.get? ρ x = σ.get? ρ x :=
  get?_congr (fun _ hi => h.parent? (Nat.lt_of_le_of_lt hi hρ)) fun _ hi =>
    h.local? (Nat.lt_of_le_of_lt hi hρ) x

/-- In the frame of a call the parameters come before the names of the scope that it stands in. -/
theorem get?_enter_frame {scope : ScopeId} (hs : scope < σ.scopes.size)
    (bs : List (String × Value)) (x : String) :
    (σ.enter scope bs).get? σ.scopes.size x = (bs.reverse.lookup x).or (σ.get? scope x) := by
  rw [get?_eq, local?_enter_frame, parent?_enter_frame]
  simp [hs, (Keeps.enter σ scope bs).get? hs]

theorem Keeps.newGlobal (σ : Store) : σ.Keeps σ.newGlobal.2 := fun _ hi =>
  (getElem?_bindAll_ne _ _ (Nat.ne_of_lt hi)).trans (getElem?_newScope hi)

theorem parent?_newGlobal (σ : Store) : σ.newGlobal.2.parent? σ.newGlobal.1 = none := by
  rw [newGlobal, parent?_bindAll]
  simp [parent?, newScope]

theorem local?_newGlobal (σ : Store) (x : String) :
    σ.newGlobal.2.local? σ.newGlobal.1 x =
      (Arithmetic.all.map fun op =>
        (op.symbol, Value.native op.symbol (.arithmetic op))).lookup x := by
  rw [newGlobal, local?_bindAll (by simp [newScope])]
  by_cases hx : ∃ op : Arithmetic, x = op.symbol
  · obtain ⟨op, rfl⟩ := hx
    cases op <;> rfl
  · have hne : ∀ op : Arithmetic, x ≠ op.symbol := fun op h => hx ⟨op, h⟩
    simp [Arithmetic.all, List.lookup_cons, beq_false_of_ne (hne _), local?, newScope]

/-- In a new global scope the arithmetic procedures have their symbols. -/
theorem get?_newGlobal (σ : Store) (x : String) :
    σ.newGlobal.2.get? σ.newGlobal.1 x =
      (Arithmetic.all.map fun op =>
        (op.symbol, Value.native op.symbol (.arithmetic op))).lookup x := by
  rw [get?_eq, local?_newGlobal, parent?_newGlobal, Option.bind_none, Option.or_none]

end ScopedLisp.Store
