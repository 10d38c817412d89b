import ScopedLisp.Store

namespace ScopedLisp.Store

@[simp] theorem size_newScope (σ : Store) (parent : Option ScopeId) :
    (σ.newScope parent).2.scopes.size = σ.scopes.size + 1 := by
  simp [newScope]

theorem getElem?_newScope {σ : Store} {parent : Option ScopeId} {i : ScopeId}
    (hi : i < σ.scopes.size) : (σ.newScope parent).2.scopes[i]? = σ.scopes[i]? := by
  simp only [newScope, Array.getElem?_push]
  rw [if_neg (Nat.ne_of_lt hi)]

theorem local?_newScope (σ : Store) (parent : Option ScopeId) (i : ScopeId) (x : String) :
    (σ.newScope parent).2.local? i x = σ.local? i x := by
  simp only [local?, newScope, Array.getElem?_push]
  split
  · next h => simp [h]
  · rfl

theorem getElem?_bind_ne (σ : Store) {ρ i : ScopeId} (x : String) (v : Value) (hi : i ≠ ρ) :
    (σ.bind ρ x v).scopes[i]? = σ.scopes[i]? := by
  simp only [bind, Array.getElem?_modify, if_neg (Ne.symm hi)]

theorem local?_bind_self {σ : Store} {ρ : ScopeId} (hρ : ρ < σ.scopes.size) (x y : String)
    (v : Value) : (σ.bind ρ x v).local? ρ y = if y = x then some v else σ.local? ρ y := by
  simp [local?_bind, hρ]

theorem local?_bind_ne (σ : Store) {ρ i : ScopeId} (x y : String) (v : Value) (hi : i ≠ ρ) :
    (σ.bind ρ x v).local? i y = σ.local? i y := by
  simp [local?_bind, hi]

@[simp] theorem bindAll_cons (σ : Store) (ρ : ScopeId) (b : String × Value)
    (bs : List (String × Value)) :
    σ.bindAll ρ (b :: bs) = (σ.bind ρ b.1 b.2).bindAll ρ bs := rfl

@[simp] theorem size_bindAll (σ : Store) (ρ : ScopeId) (bs : List (String × Value)) :
    (σ.bindAll ρ bs).scopes.size = σ.scopes.size := by
  induction bs generalizing σ with
  | nil => rfl
  | cons b bs ih => rw [bindAll_cons, ih, size_bind]

@[simp] theorem closures_bindAll (σ : Store) (ρ : ScopeId) (bs : List (String × Value)) :
    (σ.bindAll ρ bs).closures = σ.closures := by
  induction bs generalizing σ with
  | nil => rfl
  | cons b bs ih => exact ih (σ.bind ρ b.1 b.2)

@[simp] theorem parent?_bindAll (σ : Store) (ρ i : ScopeId) (bs : List (String × Value)) :
    (σ.bindAll ρ bs).parent? i = σ.parent? i := by
  induction bs generalizing σ with
  | nil => rfl
  | cons b bs ih => rw [bindAll_cons, ih, parent?_bind]

theorem getElem?_bindAll_ne (σ : Store) {ρ i : ScopeId} (bs : List (String × Value))
    (hi : i ≠ ρ) : (σ.bindAll ρ bs).scopes[i]? = σ.scopes[i]? := by
  induction bs generalizing σ with
  | nil => rfl
  | cons b bs ih => rw [bindAll_cons, ih, getElem?_bind_ne σ b.1 b.2 hi]

/-- Of a name that is bound several times the last value stays. -/
theorem local?_bindAll {σ : Store} {ρ : ScopeId} (hρ : ρ < σ.scopes.size)
    (bs : List (String × Value)) (x : String) :
    (σ.bindAll ρ bs).local? ρ x = (bs.reverse.lookup x).or (σ.local? ρ x) := by
  induction bs generalizing σ with
  | nil => rfl
  | cons b bs ih =>
    obtain ⟨y, v⟩ := b
    rw [bindAll_cons, ih (by simpa using hρ), local?_bind_self hρ, List.reverse_cons,
      List.lookup_append, Option.or_assoc]
    by_cases h : x = y
    · simp [h]
    · simp [List.lookup_cons, beq_false_of_ne h, h]

/-- The store in which a body is evaluated that is called with `bindings` in the scope `scope`. Its
newest scope is the frame of the call. -/
def enter (σ : Store) (scope : ScopeId) (bindings : List (String × Value)) : Store :=
  (σ.newScope (some scope)).2.bindAll σ.scopes.size bindings

@[simp] theorem size_enter (σ : Store) (scope : ScopeId) (bs : List (String × Value)) :
    (σ.enter scope bs).scopes.size = σ.scopes.size + 1 := by
  simp [enter]

@[simp] theorem closures_enter (σ : Store) (scope : ScopeId) (bs : List (String × Value)) :
    (σ.enter scope bs).closures = σ.closures := by
  simp [enter, newScope]

theorem getElem?_enter {σ : Store} {i : ScopeId} (hi : i < σ.scopes.size) (scope : ScopeId)
    (bs : List (String × Value)) : (σ.enter scope bs).scopes[i]? = σ.scopes[i]? := by
  rw [enter, getElem?_bindAll_ne _ bs (Nat.ne_of_lt hi), getElem?_newScope hi]

theorem parent?_enter_frame (σ : Store) (scope : ScopeId) (bs : List (String × Value)) :
    (σ.enter scope bs).parent? σ.scopes.size = some scope := by
  rw [enter, parent?_bindAll]
  simp [parent?, newScope]

theorem local?_enter_frame (σ : Store) (scope : ScopeId) (bs : List (String × Value))
    (x : String) : (σ.enter scope bs).local? σ.scopes.size x = bs.reverse.lookup x := by
  rw [enter, local?_bindAll (by simp)]
  simp [local?, newScope]

theorem local?_enter (σ : Store) (scope : ScopeId) (bs : List (String × Value)) (i : ScopeId)
    (x : String) : (σ.enter scope bs).local? i x =
      if i = σ.scopes.size then bs.reverse.lookup x else σ.local? i x := by
  split
  · next hi => rw [hi, local?_enter_frame]
  · next hi =>
    rw [enter, local?, getElem?_bindAll_ne _ bs hi]
    exact local?_newScope σ (some scope) i x

end ScopedLisp.Store
