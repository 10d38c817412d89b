import ScopedLisp.Token.Cut

namespace ScopedLisp

structure Scanner where
  rest : List Char
  position : Position

namespace Scanner

def ofString (source : String) : Scanner := ⟨source.toList, .start⟩

def skipBlanks (s : Scanner) : Scanner :=
  ⟨s.rest.dropWhile isBlank, s.position.after (s.rest.takeWhile isBlank)⟩

/-- The next token or error, at the place after the blanks, and the scanner after it. -/
def next (s : Scanner) : Except ScanError (Placed Token) × Scanner :=
  let start := s.skipBlanks
  let cut := Cut.ofText start.rest
  let outcome := match cut.outcome with
    | .ok token => .ok ⟨token, start.position⟩
    | .error fault => .error ⟨fault, start.position⟩
  (outcome, ⟨cut.rest, start.position.after cut.taken⟩)

theorem skipBlanks_length_le (s : Scanner) : s.skipBlanks.rest.length ≤ s.rest.length :=
  (List.dropWhile_sublist isBlank).length_le

theorem next_length_le (s : Scanner) : s.next.2.rest.length ≤ s.rest.length :=
  Nat.le_trans (Cut.ofText_rest_length_le _) s.skipBlanks_length_le

theorem next_outcome_ok {s : Scanner} {t : Placed Token} (h : s.next.1 = .ok t) :
    (Cut.ofText s.skipBlanks.rest).outcome = .ok t.item := by
  unfold next at h
  dsimp only at h
  split at h <;> simp_all
  rw [← h]

theorem next_length_lt {s s' : Scanner} {t : Placed Token} (h : s.next = (.ok t, s'))
    (ht : t.item ≠ .endOfInput) : s'.rest.length < s.rest.length := by
  have hs : s.next.2 = s' := by rw [h]
  have := Cut.ofText_rest_length_lt (next_outcome_ok (congrArg Prod.fst h)) ht
  exact hs ▸ Nat.lt_of_lt_of_le this s.skipBlanks_length_le

/-- All tokens up to the end, after those already `done`, or the first error. -/
def tokensAfter (done : List (Placed Token)) (s : Scanner) :
    Except ScanError (List (Placed Token)) :=
  match h : s.next with
  | (.error e, _) => .error e
  | (.ok t, s') =>
    if ht : t.item = .endOfInput then .ok (t :: done).reverse
    else
      have := next_length_lt h ht
      tokensAfter (t :: done) s'
termination_by s.rest.length

def tokens (s : Scanner) : Except ScanError (List (Placed Token)) := s.tokensAfter []

/-- The first `count` outcomes, going on after errors. -/
def outcomes : Nat → Scanner → List (Except ScanError (Placed Token))
  | 0, _ => []
  | count + 1, s => s.next.1 :: outcomes count s.next.2

end Scanner

end ScopedLisp
