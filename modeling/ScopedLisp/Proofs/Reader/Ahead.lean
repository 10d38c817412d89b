import ScopedLisp.Proofs.Token.Tokens
import ScopedLisp.Reader

namespace ScopedLisp.Reader

/-- The tokens that a reader has still to go through, its lookahead among them. -/
def tokens (r : Reader) : Except ScanError (List (Placed Token)) :=
  if r.atEnd then .ok [r.lookahead] else (r.lookahead :: ·) <$> r.scanner.tokens

/-- The rest of the text can be cut into tokens, and those are `us`. -/
def Ahead (r : Reader) (us : List Token) : Prop :=
  ∃ ts, r.tokens = .ok ts ∧ ts.map (·.item) = us

variable {r r' : Reader} {us : List Token}

theorem atEnd_iff (r : Reader) : r.atEnd ↔ r.lookahead.item = .endOfInput := by
  simp [atEnd]

theorem ahead_end (h : r.atEnd) : r.Ahead [.endOfInput] := by
  refine ⟨[r.lookahead], if_pos h, ?_⟩
  have hitem := r.atEnd_iff.1 h
  simp [hitem]

theorem Ahead.lookahead {t : Token} (h : r.Ahead (t :: us)) : r.lookahead.item = t := by
  obtain ⟨ts, hts, hitems⟩ := h
  unfold tokens at hts
  split at hts
  · cases hts
    simpa using (List.cons.inj hitems).1
  · cases hrest : r.scanner.tokens with
    | error e =>
      rw [hrest] at hts
      cases hts
    | ok more =>
      rw [hrest] at hts
      cases hts
      exact (List.cons.inj hitems).1

theorem tokens_of_advance (h : r.advance = (.ok (), r')) : r.scanner.tokens = r'.tokens := by
  unfold advance at h
  split at h
  · next t s hs =>
    cases h
    unfold tokens
    by_cases ht : t.item = .endOfInput
    · rw [if_pos (by simp [atEnd, ht]), Scanner.tokens_of_next_end hs ht]
    · rw [if_neg (by simp [atEnd, ht]), Scanner.tokens_of_next hs ht]
  · cases h

theorem not_tokens_of_advance_error {e : ReadError} (h : r.advance = (.error e, r')) :
    ∃ e, r.scanner.tokens = .error e := by
  unfold advance at h
  split at h
  · cases h
  · next e s hs => exact ⟨e, Scanner.tokens_of_next_error hs⟩

/-- Going on to the next token takes the lookahead away. -/
theorem ahead_cons_iff (h : r.advance = (.ok (), r')) (hr : r.lookahead.item ≠ .endOfInput) :
    r.Ahead (r.lookahead.item :: us) ↔ r'.Ahead us := by
  have hend : ¬ r.atEnd := fun h => hr (r.atEnd_iff.1 h)
  unfold Ahead
  rw [tokens, if_neg hend, tokens_of_advance h]
  constructor
  · intro h
    obtain ⟨ts, hts, hitems⟩ := h
    cases hmore : r'.tokens with
    | error e =>
      rw [hmore] at hts
      cases hts
    | ok more =>
      rw [hmore] at hts
      cases hts
      exact ⟨more, rfl, (List.cons.inj hitems).2⟩
  · intro h
    obtain ⟨ts, hts, hitems⟩ := h
    refine ⟨r.lookahead :: ts, by rw [hts]; rfl, ?_⟩
    rw [List.map_cons, hitems]

theorem Ahead.advance {t : Token} (h : r.Ahead (t :: us)) (ht : t ≠ .endOfInput) :
    ∃ r', r.advance = (.ok (), r') ∧ r'.Ahead us := by
  have hlookahead := h.lookahead
  have hr : r.lookahead.item ≠ .endOfInput := hlookahead ▸ ht
  cases hadvance : r.advance with
  | mk outcome r' =>
    cases outcome with
    | ok =>
      rw [← hlookahead] at h
      exact ⟨r', rfl, (ahead_cons_iff hadvance hr).1 h⟩
    | error e =>
      obtain ⟨e, he⟩ := not_tokens_of_advance_error hadvance
      obtain ⟨ts, hts, -⟩ := h
      rw [tokens, if_neg fun h => hr (r.atEnd_iff.1 h), he] at hts
      cases hts

/-- A new reader has all tokens of its text ahead. -/
theorem ofString_ahead_iff {source : String} (h : Reader.ofString source = .ok r) :
    r.Ahead us ↔
      ∃ ts, (Scanner.ofString source).tokens = .ok ts ∧ ts.map (·.item) = us := by
  unfold Reader.ofString at h
  split at h
  · next t s hs =>
    cases h
    unfold Ahead tokens
    by_cases ht : t.item = .endOfInput
    · rw [if_pos (by simp [atEnd, ht]), Scanner.tokens_of_next_end hs ht]
    · rw [if_neg (by simp [atEnd, ht]), Scanner.tokens_of_next hs ht]
  · cases h

theorem ofString_error {source : String} {e : ReadError}
    (h : Reader.ofString source = .error e) : ∃ e, (Scanner.ofString source).tokens = .error e := by
  unfold Reader.ofString at h
  split at h
  · cases h
  · next e s hs => exact ⟨e, Scanner.tokens_of_next_error hs⟩

end ScopedLisp.Reader
