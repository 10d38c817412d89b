import ScopedLisp.Proofs.Relation
import ScopedLisp.Proofs.Scoping.FreeNames
import ScopedLisp.Proofs.Store.Lookup

namespace ScopedLisp

namespace Store

variable {σ σ' σ'' : Store} {ρ : ScopeId}

theorem exists?_iff {x : String} :
    σ.exists? ρ x ↔ (σ.local? ρ x).isSome ∨
      ∃ p, σ.parent? ρ = some p ∧ p < ρ ∧ σ.exists? p x := by
  rw [exists?, get?_eq, Option.isSome_or, Bool.or_eq_true]
  refine or_congr Iff.rfl ?_
  cases σ.parent? ρ with
  | none => simp
  | some p => by_cases hp : p < ρ <;> simp [hp, exists?]

/-- Nothing is bound where there is no scope. -/
theorem lt_size_of_exists? {x : String} (h : σ.exists? ρ x) : ρ < σ.scopes.size := by
  refine Nat.lt_of_not_le fun hle => ?_
  have hnone : σ.scopes[ρ]? = none := Array.getElem?_eq_none hle
  rcases exists?_iff.1 h with hlocal | ⟨p, hp, -⟩
  · simp [local?, hnone] at hlocal
  · simp [parent?, hnone] at hp

/-- A name that is bound in a scope of the first store or around it is so in the second one. -/
def KeepsNames (σ σ' : Store) : Prop := ∀ ⦃ρ x⦄, σ.exists? ρ x → σ'.exists? ρ x

theorem KeepsNames.refl (σ : Store) : σ.KeepsNames σ := fun _ _ h => h

theorem KeepsNames.trans (h : σ.KeepsNames σ') (h' : σ'.KeepsNames σ'') : σ.KeepsNames σ'' :=
  fun _ _ hx => h' (h hx)

theorem Keeps.keepsNames (h : σ.Keeps σ') : σ.KeepsNames σ' := by
  intro ρ x hx
  rwa [exists?, h.get? (lt_size_of_exists? hx)]

theorem keepsNames_newScope (σ : Store) (parent : Option ScopeId) :
    σ.KeepsNames (σ.newScope parent).2 := Keeps.keepsNames fun _ hi => getElem?_newScope hi

theorem keepsNames_newClosureId (σ : Store) : σ.KeepsNames σ.newClosureId.2 :=
  Keeps.keepsNames fun _ _ => rfl

theorem keepsNames_bind (σ : Store) (ρ : ScopeId) (x : String) (v : Value) :
    σ.KeepsNames (σ.bind ρ x v) := by
  intro i y hy
  induction i using Nat.strongRecOn with
  | _ i ih =>
    rw [exists?_iff, parent?_bind]
    rcases exists?_iff.1 hy with hlocal | ⟨p, hp, hlt, hp'⟩
    · left
      rw [local?_bind]
      split
      · rfl
      · exact hlocal
    · exact .inr ⟨p, hp, hlt, ih p hlt hp'⟩

theorem exists?_bind_self (hρ : ρ < σ.scopes.size) (x : String) (v : Value) :
    (σ.bind ρ x v).exists? ρ x :=
  exists?_iff.2 (.inl (by rw [local?_bind_self hρ, if_pos rfl]; rfl))

/-- In the frame of a call the parameters are bound, and what is bound around it. -/
theorem exists?_enter_frame {scope : ScopeId} {params : List String} {args : List Value}
    (hn : args.length = params.length) {x : String} (hx : x ∈ params ∨ σ.exists? scope x) :
    (σ.enter scope (params.zip args)).exists? σ.scopes.size x := by
  rw [exists?_iff, local?_enter_frame, parent?_enter_frame]
  rcases hx with hx | hx
  · exact .inl ((lookup_zip_isSome_iff hn x).2 hx)
  · exact .inr ⟨scope, rfl, lt_size_of_exists? hx, (Keeps.enter σ scope _).keepsNames hx⟩

end Store

namespace Value

/-- Every free name of the expression is bound in the scope `ρ` or around it. -/
def ClosedIn (σ : Store) (ρ : ScopeId) (e : Value) : Prop := ∀ x ∈ e.freeNames, σ.exists? ρ x

instance (σ : Store) (ρ : ScopeId) (e : Value) : Decidable (e.ClosedIn σ ρ) :=
  inferInstanceAs (Decidable (∀ x ∈ e.freeNames, σ.exists? ρ x))

/-- Of each closure in the value, or in the body of one, the body is closed in the scope of the
closure but for its parameters, and native procedures are as `N` says. -/
def HoldsClosed (N : Procedure → Prop) (σ : Store) : Value → Prop
  | pair head tail => HoldsClosed N σ head ∧ HoldsClosed N σ tail
  | closure _ _ params body scope =>
    (∀ x ∈ body.freeNames, x ∈ params ∨ σ.exists? scope x) ∧ HoldsClosed N σ body
  | native _ procedure => N procedure
  | _ => True

variable {σ σ' : Store} {N : Procedure → Prop} {v : Value}

theorem HoldsClosed.mono (h : v.HoldsClosed N σ) (hk : σ.KeepsNames σ') : v.HoldsClosed N σ' := by
  induction v with
  | pair _ _ ihhead ihtail => exact ⟨ihhead h.1, ihtail h.2⟩
  | closure id name params body scope ih =>
    exact ⟨fun x hx => (h.1 x hx).imp_right fun hbound => hk hbound, ih h.2⟩
  | native => exact h
  | _ => trivial

theorem HoldsClosed.part {part : Value} (hv : v.HoldsClosed N σ) (h : part.PartOf v) :
    part.HoldsClosed N σ :=
  h.inherits hv (fun hpair => hpair.1) fun hpair => hpair.2

end Value

namespace Store

/-- What the scopes bind holds closed closures only, and native procedures as `N` says. -/
def Closed (σ : Store) (N : Procedure → Prop) : Prop :=
  ∀ ⦃ρ x v⦄, σ.local? ρ x = some v → v.HoldsClosed N σ

variable {σ : Store} {N : Procedure → Prop} {ρ : ScopeId} {x : String} {v : Value}

theorem closed_empty (N : Procedure → Prop) : empty.Closed N := by
  intro ρ x v h
  simp [local?, empty] at h

theorem Closed.get? (hσ : σ.Closed N) (h : σ.get? ρ x = some v) : v.HoldsClosed N σ := by
  obtain ⟨i, -, hi⟩ := List.exists_of_findSome?_eq_some h
  exact hσ hi

theorem Closed.newClosureId (hσ : σ.Closed N) : σ.newClosureId.2.Closed N :=
  fun _ _ _ h => (hσ h).mono (keepsNames_newClosureId σ)

/-- A closure may be bound that looks up the very name it is bound to. -/
theorem Closed.bind (hσ : σ.Closed N)
    (hv : ρ < σ.scopes.size → v.HoldsClosed N (σ.bind ρ x v)) : (σ.bind ρ x v).Closed N := by
  intro i y w hw
  rw [local?_bind] at hw
  split at hw
  · next h =>
    cases hw
    exact hv h.2.2
  · exact (hσ hw).mono (keepsNames_bind σ ρ x v)

theorem Closed.bindAll (hσ : σ.Closed N) {bs : List (String × Value)}
    (hbs : ∀ b ∈ bs, b.2.HoldsClosed N σ) : (σ.bindAll ρ bs).Closed N := by
  induction bs generalizing σ with
  | nil => exact hσ
  | cons b bs ih =>
    have hk := keepsNames_bind σ ρ b.1 b.2
    refine ih (hσ.bind fun _ => (hbs b List.mem_cons_self).mono hk) fun b' hb' => ?_
    exact (hbs b' (List.mem_cons_of_mem _ hb')).mono hk

theorem Closed.newScope (hσ : σ.Closed N) (parent : Option ScopeId) :
    (σ.newScope parent).2.Closed N := by
  intro i x v h
  rw [local?_newScope] at h
  exact (hσ h).mono (keepsNames_newScope σ _)

theorem Closed.enter (hσ : σ.Closed N) (scope : ScopeId) (params : List String)
    {args : List Value} (hargs : ∀ v ∈ args, v.HoldsClosed N σ) :
    (σ.enter scope (params.zip args)).Closed N := by
  refine (hσ.newScope (some scope)).bindAll fun b hb => ?_
  exact (hargs b.2 (List.of_mem_zip hb).2).mono (keepsNames_newScope σ _)

/-- A global scope binds no closures. -/
theorem Closed.newGlobal (hσ : σ.Closed Procedure.IsArithmetic) :
    σ.newGlobal.2.Closed Procedure.IsArithmetic := by
  refine (hσ.newScope none).bindAll fun b hb => ?_
  obtain ⟨op, -, rfl⟩ := List.mem_map.1 hb
  exact ⟨op, rfl⟩

end Store

end ScopedLisp
