import ScopedLisp.Proofs.Reader.Acceptance
import ScopedLisp.Proofs.Token.Continuation

namespace ScopedLisp

theorem Progress.ne_endOfInput {frames : List Frame} {t : Token} {p : Progress}
    (h : ofToken frames t = .ok p) : t ≠ .endOfInput := fun ht =>
  ofToken_endOfInput frames p (ht ▸ h)

namespace Scanner

/-- Reads one value inside `frames`, up to its last token. -/
def readValue (frames : List Frame) (s : Scanner) : Except ReadError (Value × Scanner) :=
  match hs : s.next with
  | (.error e, _) => .error e.toReadError
  | (.ok t, s') =>
    match hp : Progress.ofToken frames t.item with
    | .error fault => .error ⟨fault, t.position⟩
    | .ok (.done v) => .ok (v, s')
    | .ok (.within frames') =>
      have := next_length_lt hs (Progress.ne_endOfInput hp)
      readValue frames' s'
termination_by s.rest.length

variable {s s' : Scanner} {frames frames' : List Frame} {t : Placed Token} {v : Value}

theorem readValue_eq (frames : List Frame) (s : Scanner) :
    s.readValue frames = match s.next with
      | (.error e, _) => .error e.toReadError
      | (.ok t, s') =>
        match Progress.ofToken frames t.item with
        | .error fault => .error ⟨fault, t.position⟩
        | .ok (.done v) => .ok (v, s')
        | .ok (.within frames') => s'.readValue frames' := by
  rw [readValue]
  split
  · next hs => rw [hs]
  · next hs => split <;> simp_all

/-- What is read after a token. -/
def goOn (s : Scanner) : Progress → Except ReadError (Value × Scanner)
  | .done v => .ok (v, s)
  | .within frames => s.readValue frames

theorem readValue_of_next {p : Progress} (h : s.next = (.ok t, s'))
    (hp : Progress.ofToken frames t.item = .ok p) : s.readValue frames = s'.goOn p := by
  rw [readValue_eq, h]
  cases p <;> simp [hp, goOn]

theorem readValue_of_fault {fault : ReadFault} (h : s.next = (.ok t, s'))
    (hp : Progress.ofToken frames t.item = .error fault) :
    s.readValue frames = .error ⟨fault, t.position⟩ := by
  rw [readValue_eq, h]
  simp [hp]

theorem readValue_of_next_error {e : ScanError} (h : s.next.1 = .error e) :
    s.readValue frames = .error e.toReadError := by
  rw [readValue_eq]
  split <;> simp_all

theorem readValue_length_lt (h : s.readValue frames = .ok (v, s')) :
    s'.rest.length < s.rest.length := by
  fun_induction readValue frames s with
  | case1 => cases h
  | case2 => cases h
  | case3 frames s t s₁ hs w hp =>
    cases h
    exact next_length_lt hs (Progress.ne_endOfInput hp)
  | case4 frames s t s₁ hs frames' hp hlt ih => exact Nat.lt_trans (ih h) hlt

/-- Nothing but blanks is left. -/
def atEnd (s : Scanner) : Bool := s.skipBlanks.rest.isEmpty

/-- Reads values up to the end of the text, after those already `done`. -/
def readValues (done : List Value) (s : Scanner) : Except ReadError (List Value) :=
  if s.atEnd then .ok done.reverse
  else
    match h : s.readValue [] with
    | .error e => .error e
    | .ok (v, s') =>
      have := readValue_length_lt h
      readValues (v :: done) s'
termination_by s.rest.length

theorem readValues_of_atEnd (h : s.atEnd) (done : List Value) :
    s.readValues done = .ok done.reverse := by
  rw [readValues, if_pos h]

theorem atEnd_iff : s.atEnd ↔ s.skipBlanks.rest = [] := List.isEmpty_iff

theorem next_of_atEnd (h : s.atEnd) : ∃ p s', s.next = (.ok ⟨.endOfInput, p⟩, s') := by
  refine ⟨s.skipBlanks.position, ⟨[], s.skipBlanks.position⟩, next_eq_ok_iff.2 ⟨[], ?_, rfl, rfl⟩⟩
  rw [atEnd_iff.1 h]
  rfl

theorem atEnd_of_next {t : Placed Token} (h : s.next = (.ok t, s')) (ht : t.item = .endOfInput) :
    s.atEnd :=
  atEnd_iff.2 (rest_of_next_end h ht).1

theorem atEnd_of_rest_nil (h : s.rest = []) : s.atEnd := by
  rw [atEnd_iff, skipBlanks, h]
  rfl

theorem rest_ne_nil_of_not_atEnd (h : ¬ s.atEnd) : s.rest ≠ [] := mt atEnd_of_rest_nil h

/-- Where the text ends there is no value. -/
theorem not_atEnd_of_readValue (h : s.readValue frames = .ok (v, s')) : ¬ s.atEnd := by
  intro hend
  obtain ⟨p, s₁, hs⟩ := next_of_atEnd hend
  cases hp : Progress.ofToken frames .endOfInput with
  | error fault =>
    rw [readValue_of_fault hs hp] at h
    cases h
  | ok progress => exact Progress.ofToken_endOfInput frames progress hp

theorem readValues_eq (done : List Value) (h : ¬ s.atEnd) :
    s.readValues done = match s.readValue [] with
      | .error e => .error e
      | .ok (v, s') => s'.readValues (v :: done) := by
  rw [readValues, if_neg h]
  split <;> simp_all

/-- A value that is read is one of the values. -/
theorem readValues_of_readValue (h : s.readValue [] = .ok (v, s')) (done : List Value) :
    s.readValues done = s'.readValues (v :: done) := by
  rw [readValues_eq done (not_atEnd_of_readValue h), h]

theorem readValues_of_next_error {e : ScanError} (h : s.next.1 = .error e) (done : List Value) :
    s.readValues done = .error e.toReadError := by
  have hend : ¬ s.atEnd := by
    intro hend
    obtain ⟨p, s', hs⟩ := next_of_atEnd hend
    rw [hs] at h
    cases h
  rw [readValues_eq done hend, readValue_of_next_error h]

end Scanner

namespace Reader

open Scanner

/-- The reader in front of the next token of a scanner. -/
def ofScanner (s : Scanner) : Except ReadError Reader :=
  match s.next with
  | (.ok t, s') => .ok ⟨s', t⟩
  | (.error e, _) => .error e.toReadError

variable {s s' : Scanner} {r r' : Reader} {frames : List Frame} {v : Value} {e : ReadError}

theorem ofScanner_eq_ok_iff : ofScanner s = .ok r ↔ s.next = (.ok r.lookahead, r.scanner) := by
  obtain ⟨scanner, lookahead⟩ := r
  unfold ofScanner
  split
  · next hs =>
    rw [hs]
    simp [and_comm]
  · next hs =>
    rw [hs]
    simp

theorem ofScanner_eq_error_iff :
    ofScanner s = .error e ↔ ∃ e', s.next.1 = .error e' ∧ e = e'.toReadError := by
  unfold ofScanner
  split
  · next hs =>
    rw [hs]
    simp
  · next hs =>
    rw [hs]
    simp [eq_comm]

theorem advance_of_ofScanner (h : ofScanner r.scanner = .ok r') : r.advance = (.ok (), r') := by
  rw [advance, ofScanner_eq_ok_iff.1 h]

theorem advance_of_ofScanner_error (h : ofScanner r.scanner = .error e) :
    r.advance.1 = .error e := by
  unfold ofScanner at h
  unfold advance
  split at h <;> simp_all

theorem readWithin_of_fault {fault : ReadFault}
    (hp : Progress.ofToken frames r.lookahead.item = .error fault) :
    r.readWithin frames = (.error ⟨fault, r.lookahead.position⟩, r.spend) := by
  rw [readWithin]
  split <;> simp_all

theorem readWithin_of_advance_error {p : Progress}
    (hp : Progress.ofToken frames r.lookahead.item = .ok p) (h : r.advance.1 = .error e) :
    r.readWithin frames = (.error e, r.advance.2) := by
  rw [readWithin]
  split
  · simp_all
  · split <;> simp_all

/-- A reader in front of a value comes to the reader behind it, if there is a token behind it. -/
theorem readWithin_agrees (frames : List Frame) (h : ofScanner s = .ok r) :
    (∀ e, s.readValue frames = .error e → (r.readWithin frames).1 = .error e) ∧
    ∀ v s', s.readValue frames = .ok (v, s') →
      (∀ e, ofScanner s' = .error e → (r.readWithin frames).1 = .error e) ∧
      ∀ r', ofScanner s' = .ok r' → r.readWithin frames = (.ok v, r') := by
  rw [ofScanner_eq_ok_iff] at h
  fun_induction readValue frames s generalizing r with
  | case1 frames s e₁ s₁ hs =>
    rw [hs] at h
    cases h
  | case2 frames s t s₁ hs fault hp =>
    obtain ⟨rfl, rfl⟩ : t = r.lookahead ∧ s₁ = r.scanner := by simpa [hs] using h
    refine ⟨fun e he => ?_, nofun⟩
    cases he
    exact congrArg Prod.fst (readWithin_of_fault hp)
  | case3 frames s t s₁ hs w hp =>
    obtain ⟨rfl, rfl⟩ : t = r.lookahead ∧ s₁ = r.scanner := by simpa [hs] using h
    refine ⟨nofun, fun v s' hv => ?_⟩
    cases hv
    refine ⟨fun e he => ?_, fun r' h' => readWithin_eq hp (advance_of_ofScanner h')⟩
    exact congrArg Prod.fst (readWithin_of_advance_error hp (advance_of_ofScanner_error he))
  | case4 frames s t s₁ hs frames' hp hlt ih =>
    obtain ⟨rfl, rfl⟩ : t = r.lookahead ∧ s₁ = r.scanner := by simpa [hs] using h
    cases h₁ : ofScanner r.scanner with
    | error e₁ =>
      obtain ⟨e', he', rfl⟩ := ofScanner_eq_error_iff.1 h₁
      have hread := readWithin_of_advance_error hp (advance_of_ofScanner_error h₁)
      rw [readValue_of_next_error he']
      exact ⟨fun e he => Except.error.inj he ▸ congrArg Prod.fst hread, nofun⟩
    | ok r₁ =>
      have hread : r.readWithin frames = r₁.readWithin frames' :=
        readWithin_eq hp (advance_of_ofScanner h₁)
      rw [hread]
      exact ih (ofScanner_eq_ok_iff.1 h₁)

theorem atEnd_of_ofScanner (h : ofScanner s = .ok r) : r.atEnd = s.atEnd := by
  have hs := ofScanner_eq_ok_iff.1 h
  rw [Bool.eq_iff_iff, r.atEnd_iff]
  constructor
  · exact atEnd_of_next hs
  · intro hend
    obtain ⟨p, s', hs'⟩ := next_of_atEnd hend
    rw [hs'] at hs
    have hlook : (⟨.endOfInput, p⟩ : Placed Token) = r.lookahead :=
      Except.ok.inj (congrArg Prod.fst hs)
    rw [← hlook]

/-- A reader reads the values that are in front of it. -/
theorem readAllAfter_agrees (h : ofScanner s = .ok r) (done : List Value) :
    (r.readAllAfter done).1 = s.readValues done := by
  fun_induction readValues done s generalizing r with
  | case1 done s hend => rw [readAllAfter, if_pos (atEnd_of_ofScanner h ▸ hend)]
  | case2 done s hend e he =>
    have hread : r.read.1 = .error e := (readWithin_agrees [] h).1 e he
    rw [readAllAfter, if_neg (atEnd_of_ofScanner h ▸ hend)]
    split <;> simp_all
  | case3 done s hend v s' hv hlt ih =>
    obtain ⟨herror, hok⟩ := (readWithin_agrees [] h).2 v s' hv
    rw [readAllAfter, if_neg (atEnd_of_ofScanner h ▸ hend)]
    cases h' : ofScanner s' with
    | error e =>
      have hread : r.read.1 = .error e := herror e h'
      obtain ⟨e', he', rfl⟩ := ofScanner_eq_error_iff.1 h'
      rw [readValues_of_next_error he']
      split <;> simp_all
    | ok r' =>
      have hread : r.read = (.ok v, r') := hok r' h'
      split <;> simp_all

end Reader

/-- The first value of a text is read up to its end, and then there has to be a next token. -/
theorem readOne_eq (source : String) : readOne source =
    match (Scanner.ofString source).readValue [] with
    | .error e => .error e
    | .ok (v, s) =>
      match Reader.ofScanner s with
      | .error e => .error e
      | .ok _ => .ok v := by
  have hreader : Reader.ofString source = Reader.ofScanner (Scanner.ofString source) := rfl
  rw [readOne, hreader]
  cases h : Reader.ofScanner (Scanner.ofString source) with
  | error e =>
    obtain ⟨e', he', rfl⟩ := Reader.ofScanner_eq_error_iff.1 h
    rw [Scanner.readValue_of_next_error he']
    rfl
  | ok r =>
    obtain ⟨herror, hok⟩ := Reader.readWithin_agrees [] h
    change (r.readWithin []).1 = _
    cases hv : (Scanner.ofString source).readValue [] with
    | error e => exact herror e hv
    | ok outcome =>
      obtain ⟨v, s⟩ := outcome
      obtain ⟨herror', hok'⟩ := hok v s hv
      cases h' : Reader.ofScanner s with
      | error e => simpa [h'] using herror' e h'
      | ok r' => simpa [h'] using congrArg Prod.fst (hok' r' h')

theorem readOne_eq_ok_iff {source : String} {v : Value} :
    readOne source = .ok v ↔ ∃ s r, (Scanner.ofString source).readValue [] = .ok (v, s) ∧
      Reader.ofScanner s = .ok r := by
  rw [readOne_eq]
  split
  · simp [*]
  · split <;> simp_all [and_assoc]

theorem readOne_eq_error_iff {source : String} {e : ReadError} :
    readOne source = .error e ↔ (Scanner.ofString source).readValue [] = .error e ∨
      ∃ v s, (Scanner.ofString source).readValue [] = .ok (v, s) ∧
        Reader.ofScanner s = .error e := by
  rw [readOne_eq]
  split
  · simp [*]
  · split <;> simp_all [and_assoc]

theorem readAll_eq (source : String) :
    readAll source = (Scanner.ofString source).readValues [] := by
  have hreader : Reader.ofString source = Reader.ofScanner (Scanner.ofString source) := rfl
  rw [readAll, hreader]
  cases h : Reader.ofScanner (Scanner.ofString source) with
  | error e =>
    obtain ⟨e', he', rfl⟩ := Reader.ofScanner_eq_error_iff.1 h
    rw [Scanner.readValues_of_next_error he']
    rfl
  | ok r => exact Reader.readAllAfter_agrees h []

/-- The values of a text are the one that is read first if only blanks are behind it. -/
theorem readAll_of_readValue {source : String} {v : Value} {s : Scanner}
    (h : (Scanner.ofString source).readValue [] = .ok (v, s)) (hend : s.atEnd) :
    readAll source = .ok [v] := by
  rw [readAll_eq, Scanner.readValues_of_readValue h]
  exact Scanner.readValues_of_atEnd hend [v]

end ScopedLisp
