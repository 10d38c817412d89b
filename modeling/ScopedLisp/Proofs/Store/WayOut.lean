import ScopedLisp.Proofs.Store.Growth

namespace ScopedLisp.Store

/-- The scopes from `ρ` outwards, each the parent of the one before, the last without a parent. -/
inductive WayOut (σ : Store) : ScopeId → List ScopeId → Prop
  | outermost {ρ : ScopeId} (h : σ.parent? ρ = none) : WayOut σ ρ [ρ]
  | inside {ρ p : ScopeId} {way : List ScopeId} (h : σ.parent? ρ = some p) (hway : WayOut σ p way) :
      WayOut σ ρ (ρ :: way)

/-- Every scope was made after the one it stands in. -/
def ParentsOlder (σ : Store) : Prop := ∀ ⦃i p⦄, σ.parent? i = some p → p < i

variable {σ σ' : Store} {ρ : ScopeId} {way way' : List ScopeId} {x : String}

theorem WayOut.unique (h : σ.WayOut ρ way) (h' : σ.WayOut ρ way') : way = way' := by
  induction h generalizing way' with
  | outermost hp =>
    cases h' with
    | outermost => rfl
    | inside hp' => rw [hp] at hp'; cases hp'
  | inside hp _ ih =>
    cases h' with
    | outermost hp' => rw [hp] at hp'; cases hp'
    | inside hp' hway =>
      rw [hp] at hp'
      cases hp'
      rw [ih hway]

namespace ParentsOlder

variable (h : σ.ParentsOlder)

include h

/-- The chain goes all the way: it never stops at a parent that is not older. -/
theorem wayOut_chain (ρ : ScopeId) : σ.WayOut ρ (σ.chain ρ) := by
  fun_induction chain σ ρ with
  | case1 ρ hp => exact .outermost hp
  | case2 ρ p hp _ ih => exact .inside hp ih
  | case3 ρ p hp hlt => exact absurd (h hp) hlt

theorem le_of_mem_wayOut (hway : σ.WayOut ρ way) : ∀ i ∈ way, i ≤ ρ := by
  induction hway with
  | outermost => simp
  | inside hp _ ih =>
    intro i hi
    rcases List.mem_cons.1 hi with rfl | hi
    · exact Nat.le_refl _
    · exact Nat.le_trans (ih i hi) (Nat.le_of_lt (h hp))

/-- The way out goes back in time, so that no scope comes up again. -/
theorem wayOut_decreasing (hway : σ.WayOut ρ way) : way.Pairwise (· > ·) := by
  induction hway with
  | outermost => simp
  | inside hp hway ih =>
    exact List.pairwise_cons.2
      ⟨fun i hi => Nat.lt_of_le_of_lt (h.le_of_mem_wayOut hway i hi) (h hp), ih⟩

theorem nodup_wayOut (hway : σ.WayOut ρ way) : way.Nodup :=
  (h.wayOut_decreasing hway).imp fun hlt => Nat.ne_of_gt hlt

theorem get?_eq_findSome? (hway : σ.WayOut ρ way) (x : String) :
    σ.get? ρ x = way.findSome? fun i => σ.local? i x := by
  rw [get?, (h.wayOut_chain ρ).unique hway]

/-- What a name means is up to what the scopes on the way out bind to it. -/
theorem get?_congr (h' : σ'.ParentsOlder) (hway : σ.WayOut ρ way) (hway' : σ'.WayOut ρ way)
    (hsame : ∀ i ∈ way, σ'.local? i x = σ.local? i x) : σ'.get? ρ x = σ.get? ρ x := by
  rw [h.get?_eq_findSome? hway, h'.get?_eq_findSome? hway']
  clear hway hway'
  induction way with
  | nil => rfl
  | cons i way ih =>
    rw [List.findSome?_cons, List.findSome?_cons, hsame i List.mem_cons_self,
      ih fun j hj => hsame j (List.mem_cons_of_mem i hj)]

/-- Scopes that are made later do not change the way out. -/
theorem wayOut_later (hlater : σ.LeadsTo σ') (hρ : ρ < σ.scopes.size) (hway : σ.WayOut ρ way) :
    σ'.WayOut ρ way := by
  induction hway with
  | outermost hp => exact .outermost ((hlater.parent? hρ).trans hp)
  | inside hp _ ih =>
    exact .inside ((hlater.parent? hρ).trans hp) (ih (Nat.lt_trans (h hp) hρ))

theorem newScope {outer : Option ScopeId} (houter : ∀ p ∈ outer, p < σ.scopes.size) :
    (σ.newScope outer).2.ParentsOlder := by
  intro i p hp
  rw [parent?_newScope] at hp
  split at hp
  · next hi => exact hi ▸ houter p hp
  · exact h hp

theorem newGlobal : σ.newGlobal.2.ParentsOlder := by
  intro i p hp
  rw [parent?_newGlobal_eq] at hp
  exact h hp

theorem bind (ρ : ScopeId) (x : String) (v : Value) : (σ.bind ρ x v).ParentsOlder := by
  intro i p hp
  rw [parent?_bind] at hp
  exact h hp

end ParentsOlder

/-- No name comes twice, and the names are in the order of their characters' codes. -/
theorem localNames_increasing (σ : Store) (ρ : ScopeId) : (σ.localNames ρ).Pairwise (· < ·) := by
  unfold localNames
  split
  · next s _ =>
    have hkeys : s.bindings.keys.Pairwise fun a b => compare a b = .lt := Std.TreeMap.ordered_keys
    exact hkeys.imp fun hlt => compareOfLessAndEq_eq_lt.1 hlt
  · exact List.Pairwise.nil

theorem mem_localNames_iff : x ∈ σ.localNames ρ ↔ ∃ v, σ.local? ρ x = some v := by
  unfold localNames local?
  cases σ.scopes[ρ]? with
  | none => simp
  | some s =>
    rw [Std.TreeMap.mem_keys, Std.TreeMap.mem_iff_isSome_getElem?, Option.isSome_iff_exists]
    rfl

end ScopedLisp.Store
