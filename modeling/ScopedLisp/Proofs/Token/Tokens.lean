import ScopedLisp.Proofs.Numeral.Lexeme
import ScopedLisp.Token.Scanner

namespace ScopedLisp

namespace Scanner

variable {s s' : Scanner} {t : Placed Token}

theorem tokensAfter_eq_map (done : List (Placed Token)) (s : Scanner) :
    s.tokensAfter done = (done.reverse ++ ·) <$> s.tokens := by
  have hgeneral : ∀ n, ∀ s : Scanner, s.rest.length = n → ∀ done,
      s.tokensAfter done = (done.reverse ++ ·) <$> s.tokens := by
    intro n
    induction n using Nat.strongRecOn with
    | _ n ih =>
      intro s hn done
      rw [tokens, tokensAfter, tokensAfter]
      split
      · rfl
      · next t s' hs =>
        by_cases ht : t.item = .endOfInput
        · simp [ht]
        · have hlt : s'.rest.length < n := hn ▸ next_length_lt hs ht
          simp only [ht, dite_false]
          rw [ih _ hlt s' rfl (t :: done), ih _ hlt s' rfl [t], Functor.map_map]
          simp
  exact hgeneral _ s rfl done

theorem tokens_of_next_error {e : ScanError} (h : s.next = (.error e, s')) :
    s.tokens = .error e := by
  rw [tokens, tokensAfter]
  split
  · next hs =>
    rw [h] at hs
    cases hs
    rfl
  · next hs =>
    rw [h] at hs
    cases hs

theorem tokens_of_next_end (h : s.next = (.ok t, s')) (ht : t.item = .endOfInput) :
    s.tokens = .ok [t] := by
  rw [tokens, tokensAfter]
  split
  · next hs =>
    rw [h] at hs
    cases hs
  · next hs =>
    rw [h] at hs
    cases hs
    simp [ht]

theorem tokens_of_next (h : s.next = (.ok t, s')) (ht : t.item ≠ .endOfInput) :
    s.tokens = (t :: ·) <$> s'.tokens := by
  rw [tokens, tokensAfter]
  split
  · next hs =>
    rw [h] at hs
    cases hs
  · next hs =>
    rw [h] at hs
    cases hs
    simp only [ht, dite_false]
    exact tokensAfter_eq_map [t] s'

end Scanner

theorem Cut.isSome_numeral_of_outcome {cs : List Char} {lexeme : String}
    (h : (Cut.ofText cs).outcome = .ok (.number lexeme)) :
    (Numeral.ofChars? lexeme.toList).isSome := by
  unfold Cut.ofText at h
  split at h <;> try cases h
  · unfold Cut.ofString at h
    split at h <;> cases h
  · split at h
    · next hstarts =>
      cases h
      rw [String.toList_ofList]
      exact Cut.ofChars?_spanNumeral_isSome hstarts
    · split at h <;> cases h

end ScopedLisp
