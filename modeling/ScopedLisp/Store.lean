import Std.Data.TreeMap
import ScopedLisp.Value

/-!
The scopes of a session. A scope binds names to values and may stand inside an older one; names are
looked up along the chain of scopes from the inside out. Scopes are never removed, and a new one
gets the next id, so that the parent of a scope has a smaller id than the scope itself.
-/

namespace ScopedLisp

structure Scope where
  bindings : Std.TreeMap String Value
  parent : Option ScopeId

/-- All scopes, and the number of closures made so far. -/
structure Store where
  scopes : Array Scope
  closures : Nat

namespace Store

def empty : Store := ⟨#[], 0⟩

/-- A new scope without bindings. -/
def newScope (σ : Store) (parent : Option ScopeId) : ScopeId × Store :=
  (σ.scopes.size, { σ with scopes := σ.scopes.push ⟨∅, parent⟩ })

def newClosureId (σ : Store) : ClosureId × Store :=
  (σ.closures, { σ with closures := σ.closures + 1 })

/-- Binds a name in the scope `ρ` itself, over what it was bound to there. -/
def bind (σ : Store) (ρ : ScopeId) (x : String) (v : Value) : Store :=
  { σ with scopes := σ.scopes.modify ρ fun s => { s with bindings := s.bindings.insert x v } }

def parent? (σ : Store) (ρ : ScopeId) : Option ScopeId := σ.scopes[ρ]?.bind Scope.parent

/-- The binding of a name in the scope `ρ` itself. -/
def local? (σ : Store) (ρ : ScopeId) (x : String) : Option Value :=
  σ.scopes[ρ]?.bind fun s => s.bindings[x]?

/-- The scope `ρ` and those around it, from the inside out. -/
def chain (σ : Store) (ρ : ScopeId) : List ScopeId :=
  match σ.parent? ρ with
  | none => [ρ]
  | some parent => if parent < ρ then ρ :: σ.chain parent else [ρ]
termination_by ρ

/-- What a name means in the scope `ρ`: its binding in the innermost scope that has one. -/
def get? (σ : Store) (ρ : ScopeId) (x : String) : Option Value :=
  (σ.chain ρ).findSome? fun inner => σ.local? inner x

def exists? (σ : Store) (ρ : ScopeId) (x : String) : Bool := (σ.get? ρ x).isSome

/-- How many scopes the chain of `ρ` has. -/
def depth (σ : Store) (ρ : ScopeId) : Nat := (σ.chain ρ).length

/-- The names bound in the scope `ρ` itself, in increasing order. -/
def localNames (σ : Store) (ρ : ScopeId) : List String :=
  match σ.scopes[ρ]? with
  | some s => s.bindings.keys
  | none => []

/-- Binds names to values in turn, so that of a repeated name the last value stays. -/
def bindAll (σ : Store) (ρ : ScopeId) (bindings : List (String × Value)) : Store :=
  bindings.foldl (fun σ b => σ.bind ρ b.1 b.2) σ

/-- A new scope around everything, with the arithmetic procedures bound to their symbols. -/
def newGlobal (σ : Store) : ScopeId × Store :=
  let (ρ, σ) := σ.newScope none
  (ρ, σ.bindAll ρ (Arithmetic.all.map fun op => (op.symbol, .native op.symbol (.arithmetic op))))

@[simp] theorem size_bind (σ : Store) (ρ : ScopeId) (x : String) (v : Value) :
    (σ.bind ρ x v).scopes.size = σ.scopes.size := by simp [bind]

@[simp] theorem parent?_bind (σ : Store) (ρ ρ' : ScopeId) (x : String) (v : Value) :
    (σ.bind ρ x v).parent? ρ' = σ.parent? ρ' := by
  simp only [parent?, bind, Array.getElem?_modify]
  split
  · cases σ.scopes[ρ']? <;> rfl
  · rfl

theorem local?_bind (σ : Store) (ρ ρ' : ScopeId) (x y : String) (v : Value) :
    (σ.bind ρ x v).local? ρ' y =
      if ρ' = ρ ∧ y = x ∧ ρ < σ.scopes.size then some v else σ.local? ρ' y := by
  simp only [local?, bind, Array.getElem?_modify]
  by_cases h : ρ = ρ'
  · subst h
    by_cases hρ : ρ < σ.scopes.size
    · by_cases hx : y = x
      · simp [hρ, hx]
      · simp [hρ, Std.TreeMap.getElem?_insert, hx, Ne.symm hx]
    · simp [hρ]
  · simp [h, Ne.symm h]

end Store

end ScopedLisp
