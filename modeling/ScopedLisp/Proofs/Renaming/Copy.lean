import ScopedLisp.Proofs.Renaming.Store
import ScopedLisp.Proofs.Store.Growth

namespace ScopedLisp

/-- The ids of closures in the value and of their scopes, also in the bodies of closures, are ids
that the store has given out. -/
def Value.KnownIn (σ : Store) : Value → Prop
  | pair head tail => KnownIn σ head ∧ KnownIn σ tail
  | closure id _ _ body scope => id < σ.closures ∧ scope < σ.scopes.size ∧ KnownIn σ body
  | _ => True

/-- The scopes stand in scopes of the store and bind values that are known in it. -/
structure Store.SelfContained (σ : Store) : Prop where
  parents {i p : ScopeId} (h : σ.parent? i = some p) : p < σ.scopes.size
  values : σ.Binds (Value.KnownIn σ)

/-- The two renamings agree on the ids that the store has given out. -/
structure Renaming.AgreesOn (σ : Store) (r r' : Renaming) : Prop where
  scope {i : ScopeId} (hi : i < σ.scopes.size) : r'.scope i = r.scope i
  closure {i : ClosureId} (hi : i < σ.closures) : r'.closure i = r.closure i

namespace Value

variable {σ σ' : Store} {v : Value}

theorem KnownIn.later (hv : v.KnownIn σ) (h : σ.LeadsTo σ') : v.KnownIn σ' := by
  induction v with
  | pair head tail ihhead ihtail => exact ⟨ihhead hv.1, ihtail hv.2⟩
  | closure id name params body scope ih =>
    exact ⟨Nat.lt_of_lt_of_le hv.1 h.closures_le, Nat.lt_of_lt_of_le hv.2.1 h.size_le, ih hv.2.2⟩
  | _ => trivial

theorem rename_congr {r r' : Renaming} (hv : v.KnownIn σ) (h : r.AgreesOn σ r') :
    v.rename r' = v.rename r := by
  induction v with
  | pair head tail ihhead ihtail => rw [rename, rename, ihhead hv.1, ihtail hv.2]
  | closure id name params body scope ih =>
    rw [rename, rename, h.closure hv.1, h.scope hv.2.1, ih hv.2.2]
  | _ => rfl

end Value

namespace Renaming

def refl : Renaming := ⟨id, id, strictMono_id, strictMono_id⟩

theorem rename_refl (v : Value) : v.rename refl = v := by
  induction v with
  | pair head tail ihhead ihtail => rw [Value.rename, ihhead, ihtail]
  | closure id name params body scope ih =>
    rw [Value.rename, ih]
    rfl
  | _ => rfl

theorem strictMono_ite {f : Nat → Nat} (hf : StrictMono f) {n n' : Nat} (h : ∀ i < n, f i < n') :
    StrictMono fun i => if i < n then f i else n' + (i - n) := by
  intro i j hij
  by_cases hj : j < n
  · have hi : i < n := Nat.lt_trans hij hj
    simpa [hi, hj] using hf hij
  · by_cases hi : i < n
    · have hlt := h i hi
      simp only [hi, hj, if_true, if_false]
      omega
    · simp only [hi, hj, if_false]
      omega

end Renaming

namespace Store

namespace SelfContained

variable {σ : Store}

theorem empty : Store.empty.SelfContained where
  parents h := absurd (lt_size_of_parent? h) (Nat.not_lt_zero _)
  values := binds_empty _

theorem newClosureId (hσ : σ.SelfContained) : σ.newClosureId.2.SelfContained where
  parents := hσ.parents
  values := hσ.values.imp fun _ hv => hv.later (.newClosureId σ)

theorem bind (hσ : σ.SelfContained) (ρ : ScopeId) (x : String) {v : Value} (hv : v.KnownIn σ) :
    (σ.bind ρ x v).SelfContained where
  parents {i p} h := by
    rw [parent?_bind] at h
    rw [size_bind]
    exact hσ.parents h
  values := (hσ.values.bind hv ρ x).imp fun _ hv => hv.later (.bind σ ρ x v)

theorem enter (hσ : σ.SelfContained) {scope : ScopeId} (hscope : scope < σ.scopes.size)
    {bs : List (String × Value)} (hbs : ∀ b ∈ bs, b.2.KnownIn σ) :
    (σ.enter scope bs).SelfContained where
  parents {i p} h := by
    have hp : p < σ.scopes.size := by
      rw [parent?_enter] at h
      split at h
      · cases h
        exact hscope
      · exact hσ.parents h
    exact Nat.lt_of_lt_of_le hp (LeadsTo.enter σ scope bs).size_le
  values := (hσ.values.enter scope hbs).imp fun _ hv => hv.later (.enter σ scope bs)

theorem newGlobal (hσ : σ.SelfContained) : σ.newGlobal.2.SelfContained where
  parents {i p} h := by
    rw [parent?_newGlobal_eq] at h
    exact Nat.lt_of_lt_of_le (hσ.parents h) (LeadsTo.newGlobal σ).size_le
  values := (hσ.values.imp fun _ hv => hv.later (.newGlobal σ)).newGlobal fun _ => trivial

end SelfContained

/-- The second store has the scopes of the first one under the ids that `r` gives them. Nothing is
said of ids that are not given out yet. -/
structure CopiedBy (r : Renaming) (σ σ' : Store) : Prop where
  scope_lt {i : ScopeId} (hi : i < σ.scopes.size) : r.scope i < σ'.scopes.size
  closure_lt {i : ClosureId} (hi : i < σ.closures) : r.closure i < σ'.closures
  parents {i : ScopeId} (hi : i < σ.scopes.size) :
    σ'.parent? (r.scope i) = (σ.parent? i).map r.scope
  names {i : ScopeId} (hi : i < σ.scopes.size) (x : String) :
    σ'.local? (r.scope i) x = (σ.local? i x).map (Value.rename r)

variable {r : Renaming} {σ σ' : Store}

theorem Renames.copiedBy (h : σ.Renames r σ') : σ.CopiedBy r σ' where
  scope_lt hi := h.lt_size_iff.2 hi
  closure_lt {i} hi := by
    rw [← h.newestClosure]
    exact r.closure_strictMono hi
  parents := h.parents
  names := h.names

/-- A copy lasts while the scopes that it consists of stay as they are. -/
theorem CopiedBy.of_kept {σ₁ : Store} (h : σ.CopiedBy r σ') (hleads : σ'.LeadsTo σ₁)
    (hkept : ∀ i < σ.scopes.size, σ₁.scopes[r.scope i]? = σ'.scopes[r.scope i]?) :
    σ.CopiedBy r σ₁ where
  scope_lt hi := Nat.lt_of_lt_of_le (h.scope_lt hi) hleads.size_le
  closure_lt hi := Nat.lt_of_lt_of_le (h.closure_lt hi) hleads.closures_le
  parents {i} hi := (hleads.parent? (h.scope_lt hi)).trans (h.parents hi)
  names {i} hi x := by
    rw [← h.names hi, local?, local?, hkept i hi]

/-- A copy becomes a copy for good when the ids to come are paired off. -/
theorem CopiedBy.exists_renames (h : σ.CopiedBy r σ') (hσ : σ.SelfContained) :
    ∃ r', r.AgreesOn σ r' ∧ σ.Renames r' σ' := by
  -- The ids that `σ` gives out from now on go, in order, to those that `σ'` gives out.
  let r' : Renaming := {
    scope := fun i => if i < σ.scopes.size then r.scope i else σ'.scopes.size + (i - σ.scopes.size)
    closure := fun i => if i < σ.closures then r.closure i else σ'.closures + (i - σ.closures)
    scope_strictMono := Renaming.strictMono_ite r.scope_strictMono fun _ => h.scope_lt
    closure_strictMono := Renaming.strictMono_ite r.closure_strictMono fun _ => h.closure_lt }
  have hagrees : r.AgreesOn σ r' := ⟨fun hi => if_pos hi, fun hi => if_pos hi⟩
  refine ⟨r', hagrees, fun n => ?_, fun n => ?_, fun {i} hi => ?_, fun {i} hi x => ?_⟩
  · simp [r']
  · simp [r']
  · rw [hagrees.scope hi, h.parents hi]
    cases hp : σ.parent? i with
    | none => rfl
    | some p => exact congrArg some (hagrees.scope (hσ.parents hp)).symm
  · rw [hagrees.scope hi, h.names hi]
    cases hv : σ.local? i x with
    | none => rfl
    | some v => exact congrArg some (Value.rename_congr (hσ.values hv) hagrees).symm

/-- A store that keeps the scopes of another one is a copy of it. -/
theorem Keeps.copiedBy (h : σ.Keeps σ') (hclosures : σ.closures ≤ σ'.closures) :
    σ.CopiedBy .refl σ' where
  scope_lt hi := Nat.lt_of_lt_of_le hi h.size_le
  closure_lt hi := Nat.lt_of_lt_of_le hi hclosures
  parents {i} hi := by
    rw [show Renaming.refl.scope i = i from rfl, h.parent? hi]
    cases σ.parent? i <;> rfl
  names {i} hi x := by
    rw [show Renaming.refl.scope i = i from rfl, h.local? hi]
    cases σ.local? i x with
    | none => rfl
    | some v => exact congrArg some (Renaming.rename_refl v).symm

end Store

end ScopedLisp
