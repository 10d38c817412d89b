import ScopedLisp.Proofs.Store.Lookup

namespace ScopedLisp.Store

/-- The second store may come after the first one. Nothing is said of what the scopes bind. -/
structure LeadsTo (σ σ' : Store) : Prop where
  size_le : σ.scopes.size ≤ σ'.scopes.size
  closures_le : σ.closures ≤ σ'.closures
  parent? {i : ScopeId} (hi : i < σ.scopes.size) : σ'.parent? i = σ.parent? i

variable {σ σ' σ'' : Store} {i ρ scope : ScopeId} {x : String} {v : Value}

namespace LeadsTo

theorem refl (σ : Store) : σ.LeadsTo σ := ⟨Nat.le_refl _, Nat.le_refl _, fun _ => rfl⟩

theorem trans (h : σ.LeadsTo σ') (h' : σ'.LeadsTo σ'') : σ.LeadsTo σ'' where
  size_le := Nat.le_trans h.size_le h'.size_le
  closures_le := Nat.le_trans h.closures_le h'.closures_le
  parent? hi := (h'.parent? (Nat.lt_of_lt_of_le hi h.size_le)).trans (h.parent? hi)

theorem newClosureId (σ : Store) : σ.LeadsTo σ.newClosureId.2 :=
  ⟨Nat.le_refl _, Nat.le_succ _, fun _ => rfl⟩

theorem bind (σ : Store) (ρ : ScopeId) (x : String) (v : Value) : σ.LeadsTo (σ.bind ρ x v) :=
  ⟨by simp, Nat.le_refl _, fun _ => parent?_bind σ ρ _ x v⟩

theorem enter (σ : Store) (scope : ScopeId) (bs : List (String × Value)) :
    σ.LeadsTo (σ.enter scope bs) :=
  ⟨by simp, by simp, fun hi => (Keeps.enter σ scope bs).parent? hi⟩

end LeadsTo

theorem lt_size_of_parent? {p : ScopeId} (h : σ.parent? i = some p) : i < σ.scopes.size := by
  refine Nat.lt_of_not_le fun hle => ?_
  simp [Store.parent?, Array.getElem?_eq_none hle] at h

theorem lt_size_of_local? (h : σ.local? i x = some v) : i < σ.scopes.size := by
  refine Nat.lt_of_not_le fun hle => ?_
  simp [Store.local?, Array.getElem?_eq_none hle] at h

theorem parent?_newScope (σ : Store) (parent : Option ScopeId) (i : ScopeId) :
    (σ.newScope parent).2.parent? i = if i = σ.scopes.size then parent else σ.parent? i := by
  by_cases hi : i = σ.scopes.size <;> simp [Store.parent?, newScope, Array.getElem?_push, hi]

theorem LeadsTo.newScope (σ : Store) (parent : Option ScopeId) :
    σ.LeadsTo (σ.newScope parent).2 := by
  refine ⟨by simp, Nat.le_refl _, fun hi => ?_⟩
  rw [parent?_newScope, if_neg (Nat.ne_of_lt hi)]

theorem parent?_enter (σ : Store) (scope : ScopeId) (bs : List (String × Value)) (i : ScopeId) :
    (σ.enter scope bs).parent? i = if i = σ.scopes.size then some scope else σ.parent? i := by
  rw [Store.enter, parent?_bindAll, parent?_newScope]

/-- A new global scope stands in no other one. -/
theorem parent?_newGlobal_eq (σ : Store) (i : ScopeId) :
    σ.newGlobal.2.parent? i = σ.parent? i := by
  rw [Store.newGlobal, parent?_bindAll, parent?_newScope]
  split
  · next hi => simp [Store.parent?, hi]
  · rfl

theorem LeadsTo.newGlobal (σ : Store) : σ.LeadsTo σ.newGlobal.2 := by
  refine ⟨?_, ?_, fun _ => parent?_newGlobal_eq σ _⟩
  · simp [Store.newGlobal]
  · simp [Store.newGlobal, Store.newScope]

theorem depth_eq (σ : Store) (ρ : ScopeId) :
    σ.depth ρ = match σ.parent? ρ with
      | none => 1
      | some p => if p < ρ then σ.depth p + 1 else 1 := by
  rw [depth, chain]
  cases σ.parent? ρ with
  | none => rfl
  | some p =>
    dsimp only
    split <;> rfl

/-- A scope stays as deep as it is. -/
theorem LeadsTo.depth (h : σ.LeadsTo σ') (hi : i < σ.scopes.size) : σ'.depth i = σ.depth i := by
  induction i using Nat.strongRecOn with
  | _ i ih =>
    rw [depth_eq, depth_eq, h.parent? hi]
    cases σ.parent? i with
    | none => rfl
    | some p =>
      by_cases hp : p < i
      · simp [hp, ih p hp (Nat.lt_trans hp hi)]
      · simp [hp]

/-- The frame of a call is one deeper than the scope of the closure. -/
theorem depth_enter_frame (hscope : scope < σ.scopes.size) (bs : List (String × Value)) :
    (σ.enter scope bs).depth σ.scopes.size = σ.depth scope + 1 := by
  rw [depth_eq, parent?_enter_frame]
  simp [hscope, (LeadsTo.enter σ scope bs).depth hscope]

/-- What is bound in any scope is as `P` says. -/
def Binds (σ : Store) (P : Value → Prop) : Prop := ∀ ⦃i x v⦄, σ.local? i x = some v → P v

variable {P Q : Value → Prop}

theorem binds_empty (P : Value → Prop) : empty.Binds P := by
  intro i x v h
  simp [local?, empty] at h

namespace Binds

theorem imp (hσ : σ.Binds P) (hPQ : ∀ v, P v → Q v) : σ.Binds Q := fun _ _ _ h => hPQ _ (hσ h)

theorem get? (hσ : σ.Binds P) (h : σ.get? ρ x = some v) : P v := by
  obtain ⟨i, -, hi⟩ := List.exists_of_findSome?_eq_some h
  exact hσ hi

theorem bind (hσ : σ.Binds P) (hv : P v) (ρ : ScopeId) (x : String) :
    (σ.bind ρ x v).Binds P := by
  intro i y w hw
  rw [local?_bind] at hw
  split at hw
  · cases hw
    exact hv
  · exact hσ hw

theorem bindAll (hσ : σ.Binds P) {bs : List (String × Value)} (hbs : ∀ b ∈ bs, P b.2) :
    (σ.bindAll ρ bs).Binds P := by
  induction bs generalizing σ with
  | nil => exact hσ
  | cons b bs ih =>
    exact ih (hσ.bind (hbs b List.mem_cons_self) ρ b.1) fun b' h =>
      hbs b' (List.mem_cons_of_mem _ h)

theorem newScope (hσ : σ.Binds P) (parent : Option ScopeId) : (σ.newScope parent).2.Binds P := by
  intro i x v h
  rw [local?_newScope] at h
  exact hσ h

theorem enter (hσ : σ.Binds P) (scope : ScopeId) {bs : List (String × Value)}
    (hbs : ∀ b ∈ bs, P b.2) : (σ.enter scope bs).Binds P := (hσ.newScope _).bindAll hbs

theorem newGlobal (hσ : σ.Binds P)
    (hop : ∀ op : Arithmetic, P (.native op.symbol (.arithmetic op))) :
    σ.newGlobal.2.Binds P := by
  refine (hσ.newScope none).bindAll fun b hb => ?_
  obtain ⟨op, -, rfl⟩ := List.mem_map.1 hb
  exact hop op

end Binds

end ScopedLisp.Store
