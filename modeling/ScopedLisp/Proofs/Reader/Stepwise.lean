import ScopedLisp.Proofs.Reader.Lines

namespace ScopedLisp

namespace Scanner

variable {s s' : Scanner} {done vs ws : List Value} {v w : Value}

theorem exists_next_of_readValues (h : s.readValues done = .ok vs) :
    ∃ t s', s.next = (.ok t, s') := by
  cases hnext : s.next.1 with
  | error e =>
    rw [readValues_of_next_error hnext] at h
    cases h
  | ok t => exact ⟨t, s.next.2, Prod.ext hnext rfl⟩

/-- The first of several values, and the others behind it. -/
theorem readValue_of_readValues (h : s.readValues [] = .ok (v :: vs)) :
    ∃ s', s.readValue [] = .ok (v, s') ∧ s'.readValues [] = .ok vs := by
  have hend : ¬ s.atEnd := by
    intro hend
    rw [readValues_of_atEnd hend] at h
    cases h
  rw [readValues_eq [] hend] at h
  cases hread : s.readValue [] with
  | error e => simp [hread] at h
  | ok outcome =>
    obtain ⟨w, s'⟩ := outcome
    simp only [hread] at h
    have hdone := readValues_append_done [] s' [w]
    rw [List.nil_append, h] at hdone
    cases hrest : s'.readValues [] with
    | error e =>
      rw [hrest] at hdone
      cases hdone
    | ok ws =>
      rw [hrest] at hdone
      cases hdone
      exact ⟨s', rfl, hrest⟩

/-- Where no values are left there are only blanks. -/
theorem blanks_of_readValues (h : s.readValues [] = .ok []) : Blanks s.rest := by
  by_cases hend : s.atEnd
  · exact atEnd_iff_blanks.1 hend
  · rw [readValues_eq [] hend] at h
    split at h
    · cases h
    · next v s' hread =>
      have hmore := readValues_append_done [] s' [v]
      rw [List.nil_append, h] at hmore
      cases hrest : s'.readValues [] <;> simp [hrest, Except.map] at hmore

end Scanner

section FirstValue

variable {source : String} {v : Value} {vs : List Value} {e : ReadError}

theorem readOne_of_readAll (h : readAll source = .ok (v :: vs)) : readOne source = .ok v := by
  rw [readAll_eq] at h
  obtain ⟨s, hread, hrest⟩ := Scanner.readValue_of_readValues h
  obtain ⟨t, s', hnext⟩ := Scanner.exists_next_of_readValues hrest
  exact readOne_eq_ok_iff.2 ⟨s, ⟨s', t⟩, hread, Reader.ofScanner_eq_ok_iff.2 hnext⟩

/-- A text without values is all blanks. -/
theorem blanks_of_readAll (h : readAll source = .ok []) : Blanks source.toList := by
  rw [readAll_eq] at h
  exact Scanner.blanks_of_readValues h

theorem readOne_of_blanks (h : Blanks source.toList) :
    readOne source = .error ⟨.unexpectedEndOfInput, .behind source.toList⟩ := by
  have hnext := Scanner.next_of_blanks (s := .ofString source) h
  have hfinish : (Scanner.ofString source).finish = .behind source.toList :=
    Position.after_start source.toList
  rw [hfinish] at hnext
  exact readOne_eq_error_iff.2 (.inl (Scanner.readValue_of_fault hnext rfl))

theorem readAll_of_readOne_error (h : readOne source = .error e)
    (hsource : ¬ (Scanner.ofString source).atEnd) : readAll source = .error e := by
  rw [readAll_eq]
  rcases readOne_eq_error_iff.1 h with hread | ⟨v, s, hread, hnext⟩
  · rw [Scanner.readValues_eq [] hsource, hread]
  · obtain ⟨e', he', rfl⟩ := Reader.ofScanner_eq_error_iff.1 hnext
    rw [Scanner.readValues_of_readValue hread, Scanner.readValues_of_next_error he']

theorem readAll_of_readOne (h : readOne source = .ok v) :
    (∃ vs, readAll source = .ok (v :: vs)) ∨ ∃ e, readAll source = .error e := by
  obtain ⟨s, r, hread, -⟩ := readOne_eq_ok_iff.1 h
  have hall := Scanner.readValues_append_done [] s [v]
  rw [readAll_eq, Scanner.readValues_of_readValue hread, ← List.nil_append [v], hall]
  cases hrest : s.readValues [] with
  | error e => exact .inr ⟨e, rfl⟩
  | ok vs => exact .inl ⟨vs, rfl⟩

end FirstValue

namespace Reader

/-- Values are read one after another, as long as the end is not reached and none of them fails. -/
inductive OneByOne : Reader → List Value → Option ReadError → Reader → Prop
  | atEnd {r : Reader} (h : r.atEnd) : OneByOne r [] none r
  | fails {r r' : Reader} {e : ReadError} (h : ¬ r.atEnd) (hread : r.read = (.error e, r')) :
    OneByOne r [] (some e) r'
  | value {r r' last : Reader} {v : Value} {vs : List Value} {stop : Option ReadError}
      (h : ¬ r.atEnd) (hread : r.read = (.ok v, r')) (hmore : OneByOne r' vs stop last) :
    OneByOne r (v :: vs) stop last

variable {r r' : Reader} {vs : List Value} {stop : Option ReadError}

theorem exists_oneByOne (r : Reader) : ∃ vs stop r', r.OneByOne vs stop r' := by
  have hdone : ∀ done : List Value, ∃ vs stop r', r.OneByOne vs stop r' := by
    intro done
    fun_induction readAllAfter done r with
    | case1 done r hend => exact ⟨_, _, _, .atEnd hend⟩
    | case2 done r hend e r₁ hread => exact ⟨_, _, _, .fails hend hread⟩
    | case3 done r hend v r₁ hread hlt ih =>
      obtain ⟨vs, stop, r', hmore⟩ := ih
      exact ⟨_, _, _, .value hend hread hmore⟩
  exact hdone []

/-- The values, or the error that reading stopped at. -/
def outcome (vs : List Value) : Option ReadError → Except ReadError (List Value)
  | none => .ok vs
  | some e => .error e

theorem OneByOne.readAllAfter (h : r.OneByOne vs stop r') (done : List Value) :
    r.readAllAfter done = (outcome (done.reverse ++ vs) stop, r') := by
  induction h generalizing done with
  | atEnd h => rw [Reader.readAllAfter, if_pos h, List.append_nil, outcome]
  | fails h hread =>
    rw [Reader.readAllAfter, if_neg h]
    split <;> simp_all [outcome]
  | value h hread hmore ih =>
    rw [Reader.readAllAfter, if_neg h]
    split
    · simp_all
    · next hread' =>
      rw [hread] at hread'
      cases hread'
      rw [ih, List.reverse_cons, List.append_assoc]
      rfl

end Reader

end ScopedLisp
