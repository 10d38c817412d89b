namespace ScopedLisp

/-- The kinds of values, by the names that error texts give them. -/
inductive Kind
  | number
  | string
  | boolean
  | symbol
  | nil
  | pair
  | closure
  | native
  deriving DecidableEq

def Kind.name : Kind → String
  | number => "number"
  | string => "string"
  | boolean => "boolean"
  | symbol => "symbol"
  | nil => "nil"
  | pair => "cons"
  | closure => "function"
  | native => "builtin"

end ScopedLisp
