import ScopedLisp.Proofs.Store.Call

namespace ScopedLisp

/-- A value that was set in a scope under a name. -/
structure Write where
  scope : ScopeId
  name : String
  value : Value

/-- Sets of values, the latest first. -/
abbrev History := List Write

namespace History

def WasSet (history : History) (i : ScopeId) (x : String) : Prop :=
  ∃ w ∈ history, w.scope = i ∧ w.name = x

/-- Under the name `x` the value `v` was set in the scope `i`, and nothing later. -/
def LastSet (history : History) (i : ScopeId) (x : String) (v : Value) : Prop :=
  ∃ later earlier : History, history = later ++ ⟨i, x, v⟩ :: earlier ∧ ¬later.WasSet i x

variable {history : History} {i : ScopeId} {x : String} {v : Value} {w : Write}

@[simp] theorem not_wasSet_nil : ¬WasSet [] i x := by
  simp [WasSet]

@[simp] theorem wasSet_cons :
    WasSet (w :: history) i x ↔ w.scope = i ∧ w.name = x ∨ history.WasSet i x := by
  simp [WasSet]

theorem not_lastSet_nil : ¬LastSet [] i x v := by
  rintro ⟨later, earlier, heq, -⟩
  cases later <;> cases heq

theorem lastSet_cons_self (history : History) (i : ScopeId) (x : String) (v u : Value) :
    LastSet (⟨i, x, v⟩ :: history) i x u ↔ u = v := by
  constructor
  · rintro ⟨later, earlier, heq, hlater⟩
    cases later with
    | nil => cases heq; rfl
    | cons w later =>
      cases heq
      exact absurd (wasSet_cons.2 (.inl ⟨rfl, rfl⟩)) hlater
  · rintro rfl
    exact ⟨[], history, rfl, not_wasSet_nil⟩

theorem lastSet_cons_other (hw : ¬(w.scope = i ∧ w.name = x)) :
    LastSet (w :: history) i x v ↔ history.LastSet i x v := by
  constructor
  · rintro ⟨later, earlier, heq, hlater⟩
    cases later with
    | nil => cases heq; exact absurd ⟨rfl, rfl⟩ hw
    | cons w' later =>
      cases heq
      exact ⟨later, earlier, rfl, fun h => hlater (wasSet_cons.2 (.inr h))⟩
  · rintro ⟨later, earlier, rfl, hlater⟩
    refine ⟨w :: later, earlier, rfl, fun h => ?_⟩
    exact (wasSet_cons.1 h).elim hw hlater

theorem wasSet_iff_lastSet : history.WasSet i x ↔ ∃ v, history.LastSet i x v := by
  induction history with
  | nil => simp [not_lastSet_nil]
  | cons w history ih =>
    by_cases hw : w.scope = i ∧ w.name = x
    · obtain ⟨rfl, rfl⟩ := hw
      exact ⟨fun _ => ⟨_, (lastSet_cons_self history ..).2 rfl⟩, fun _ => by simp⟩
    · simp [lastSet_cons_other hw, hw, ih]

end History

namespace Store

/-- Every scope binds the names that were set in it, each to the value that was set last. -/
def Records (σ : Store) (history : History) : Prop :=
  ∀ i x v, σ.local? i x = some v ↔ history.LastSet i x v

namespace Records

variable {σ : Store} {history : History} (h : σ.Records history)

include h

theorem wasSet_iff {i : ScopeId} {x : String} :
    history.WasSet i x ↔ ∃ v, σ.local? i x = some v := by
  rw [History.wasSet_iff_lastSet]
  exact exists_congr fun v => (h i x v).symm

theorem not_wasSet_iff {i : ScopeId} {x : String} :
    ¬history.WasSet i x ↔ σ.local? i x = none := by
  rw [h.wasSet_iff, Option.eq_none_iff_forall_ne_some, not_exists]

theorem bind {ρ : ScopeId} (hρ : ρ < σ.scopes.size) (x : String) (v : Value) :
    (σ.bind ρ x v).Records (⟨ρ, x, v⟩ :: history) := by
  intro i y u
  rw [local?_bind]
  by_cases hset : ρ = i ∧ x = y
  · obtain ⟨rfl, rfl⟩ := hset
    rw [if_pos ⟨rfl, rfl, hρ⟩, History.lastSet_cons_self, Option.some.injEq, eq_comm]
  · rw [if_neg fun hc => hset ⟨hc.1.symm, hc.2.1.symm⟩, History.lastSet_cons_other hset, h]

theorem bindAll {ρ : ScopeId} (hρ : ρ < σ.scopes.size) (bs : List (String × Value)) :
    (σ.bindAll ρ bs).Records ((bs.map fun b => ⟨ρ, b.1, b.2⟩).reverse ++ history) := by
  induction bs generalizing σ history with
  | nil => exact h
  | cons b bs ih =>
    rw [bindAll_cons, List.map_cons, List.reverse_cons, List.append_assoc]
    exact ih (h.bind hρ b.1 b.2) (by simpa using hρ)

theorem newScope (parent : Option ScopeId) : (σ.newScope parent).2.Records history := by
  intro i x v
  rw [local?_newScope]
  exact h i x v

end Records

end Store

end ScopedLisp
