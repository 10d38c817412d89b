import ScopedLisp.Proofs.Procedure.Operands
import ScopedLisp.Proofs.Value.Part
import ScopedLisp.Value.Text

namespace ScopedLisp.Value

/-- What relates two closures, given the parameters of both and the body and the scope of each. -/
abbrev ClosureRel := List String → Value → ScopeId → Value → ScopeId → Prop

/-- The same data with the same native procedures, of which `N` holds, and with closures of the same
name and the same parameters that are related by `K`. -/
inductive Alike (K : ClosureRel) (N : Procedure → Prop) : Value → Value → Prop
  | number (x : Float) : Alike K N (number x) (number x)
  | string (content : String) : Alike K N (string content) (string content)
  | boolean (b : Bool) : Alike K N (boolean b) (boolean b)
  | symbol (name : String) : Alike K N (symbol name) (symbol name)
  | nil : Alike K N nil nil
  | pair {a b a' b' : Value} (hhead : Alike K N a a') (htail : Alike K N b b') :
      Alike K N (pair a b) (pair a' b')
  | closure {params : List String} {body body' : Value} {scope scope' : ScopeId}
      (h : K params body scope body' scope') (id id' : ClosureId) (name : Option String) :
      Alike K N (closure id name params body scope) (closure id' name params body' scope')
  | native {p : Procedure} (h : N p) (label : String) : Alike K N (native label p) (native label p)

variable {K K' : ClosureRel} {N N' : Procedure → Prop} {v v' : Value}

theorem Alike.mono (h : Alike K N v v')
    (hK : ∀ params body scope body' scope', K params body scope body' scope' →
      K' params body scope body' scope') (hN : ∀ p, N p → N' p) : Alike K' N' v v' := by
  induction h with
  | number x => exact .number x
  | string s => exact .string s
  | boolean b => exact .boolean b
  | symbol x => exact .symbol x
  | nil => exact .nil
  | pair _ _ ihhead ihtail => exact .pair ihhead ihtail
  | closure h id id' name => exact .closure (hK _ _ _ _ _ h) id id' name
  | native h label => exact .native (hN _ h) label

/-- A value is like itself if its closures are related to themselves. -/
theorem alike_self {R : ScopeId → Prop}
    (hK : ∀ params body scope, R scope → body.Within R N → K params body scope body scope)
    (hv : v.Within R N) : Alike K N v v := by
  induction v with
  | number x => exact .number x
  | string s => exact .string s
  | boolean b => exact .boolean b
  | symbol x => exact .symbol x
  | nil => exact .nil
  | pair a b iha ihb => exact .pair (iha hv.1) (ihb hv.2)
  | closure id name params body scope _ => exact .closure (hK _ _ _ hv.1 hv.2) id id name
  | native label p => exact .native hv label

theorem Alike.sameOperand (h : Alike K N v v') : Arithmetic.SameOperand v v' := by
  cases h <;> exact ⟨rfl, rfl⟩

theorem Alike.isTruthy (h : Alike K N v v') : v.isTruthy = v'.isTruthy := by
  cases h <;> rfl

theorem Alike.chars (h : Alike K N v v') :
    v.chars = v'.chars ∧ v.tailChars = v'.tailChars := by
  induction h with
  | pair _ _ ihhead ihtail =>
    rw [chars_pair, chars_pair, tailChars_pair, tailChars_pair, ihhead.1, ihtail.2]
    exact ⟨rfl, rfl⟩
  | _ => exact ⟨rfl, rfl⟩

theorem Alike.text (h : Alike K N v v') : v.text = v'.text := by
  rw [Value.text, Value.text, h.chars.1]

end ScopedLisp.Value
