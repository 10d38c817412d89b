import ScopedLisp.Store
import ScopedLisp.Value.Inspection

namespace ScopedLisp

/-- A scope is shown by its own names and the length of its chain. -/
def Store.inspection (σ : Store) (ρ : ScopeId) : List Char :=
  "Environment \x7b names: ".toList ++ Inspection.names (σ.localNames ρ) ++ ", depth: ".toList ++
    Nat.toDigits 10 (σ.depth ρ) ++ " \x7d".toList

end ScopedLisp
