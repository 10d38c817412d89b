import ScopedLisp.Kind
import ScopedLisp.Procedure

/-!
Values, which are also what programs are made of. A proper list is a chain of pairs that ends in
nil. A closure is told from others by its id and refers to its scope by an id as well, so that a
value is plain data.
-/

namespace ScopedLisp

abbrev ScopeId := Nat

abbrev ClosureId := Nat

inductive Value
  | number (x : Float)
  | string (content : String)
  | boolean (b : Bool)
  | symbol (name : String)
  | nil
  | pair (head tail : Value)
  | closure (id : ClosureId) (name : Option String) (params : List String) (body : Value)
      (scope : ScopeId)
  | native (label : String) (procedure : Procedure)
  deriving DecidableEq

namespace Value

def kind : Value → Kind
  | number _ => .number
  | string _ => .string
  | boolean _ => .boolean
  | symbol _ => .symbol
  | nil => .nil
  | pair _ _ => .pair
  | closure .. => .closure
  | native .. => .native

/-- Only nil and the false boolean count as false. -/
def isTruthy : Value → Bool
  | nil | boolean false => false
  | _ => true

def number? : Value → Option Float
  | number x => some x
  | _ => none

def symbol? : Value → Option String
  | symbol name => some name
  | _ => none

/-- The pairs of `items` in front of `tail`. -/
def chain (items : List Value) (tail : Value) : Value := items.foldr pair tail

def list (items : List Value) : Value := chain items nil

@[simp] theorem chain_nil (tail : Value) : chain [] tail = tail := rfl

@[simp] theorem chain_cons (v : Value) (items : List Value) (tail : Value) :
    chain (v :: items) tail = pair v (chain items tail) := rfl

@[simp] theorem list_nil : list [] = nil := rfl

@[simp] theorem list_cons (v : Value) (items : List Value) :
    list (v :: items) = pair v (list items) := rfl

/-- The heads along a chain, and the tail it ends in. -/
def unchain : Value → List Value × Value
  | pair head tail => (head :: (unchain tail).1, (unchain tail).2)
  | v => ([], v)

/-- The elements of a proper list. -/
def items? : Value → Option (List Value)
  | nil => some []
  | pair head tail => (items? tail).map (head :: ·)
  | _ => none

theorem eq_list_of_items? {v : Value} {items : List Value} (h : v.items? = some items) :
    v = list items := by
  induction v generalizing items with
  | nil => simp_all [items?]
  | pair head tail _ ih =>
    obtain ⟨more, hmore, rfl⟩ := Option.map_eq_some_iff.1 h
    rw [ih hmore, list_cons]
  | _ => simp [items?] at h

end Value

end ScopedLisp
