import ScopedLisp.Value

namespace ScopedLisp.Value

/-- Structural on data, with the two zeros equal and no number equal to what is not a number.
Closures are equal if they are the same one, natives if their labels agree. -/
def equal : Value → Value → Bool
  | number x, number y => x == y
  | string s, string t => s == t
  | boolean a, boolean b => a == b
  | symbol x, symbol y => x == y
  | nil, nil => true
  | pair a b, pair c d => equal a c && equal b d
  | closure i .., closure j .. => i == j
  | native f _, native g _ => f == g
  | _, _ => false

end ScopedLisp.Value
