namespace ScopedLisp

inductive Arithmetic
  | add
  | subtract
  | multiply
  | divide
  deriving DecidableEq

/-- An arithmetic procedure, or one that an embedder supplies under a name. -/
inductive Procedure
  | arithmetic (operation : Arithmetic)
  | foreign (name : String)
  deriving DecidableEq

namespace Arithmetic

def all : List Arithmetic := [add, subtract, multiply, divide]

def symbol : Arithmetic → String
  | add => "+"
  | subtract => "-"
  | multiply => "*"
  | divide => "/"

end Arithmetic

end ScopedLisp
