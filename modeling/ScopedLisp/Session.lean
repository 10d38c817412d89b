import ScopedLisp.Evaluation
import ScopedLisp.Reader

namespace ScopedLisp

/-- A computation on the store whose errors may also be errors of a text. -/
abbrev SessionM := ExceptT Error (StateT Store Option)

namespace SessionM

def ofEval {α : Type} (m : EvalM α) : SessionM α := ExceptT.adapt Error.eval m

def ofRead {α : Type} (result : Except ReadError α) : SessionM α :=
  ofExcept (result.mapError Error.read)

end SessionM

/-- Evaluates values in order. The last one's value counts, nil if there is none. -/
def evalAll (ext : Embedding) (limit : Nat) (ρ : ScopeId) (vs : List Value) : EvalM Value :=
  vs.foldlM (fun _ v => eval ext limit ρ v) .nil

/-- Reads the first value of a text and evaluates it. -/
def evalSource (ext : Embedding) (limit : Nat) (ρ : ScopeId) (source : String) :
    SessionM Value := do
  let v ← .ofRead (readOne source)
  .ofEval (eval ext limit ρ v)

/-- Reads all of a text and evaluates it. Nothing is evaluated if it cannot be read to its end. -/
def runSource (ext : Embedding) (limit : Nat) (ρ : ScopeId) (source : String) :
    SessionM Value := do
  let vs ← .ofRead (readAll source)
  .ofEval (evalAll ext limit ρ vs)

end ScopedLisp
