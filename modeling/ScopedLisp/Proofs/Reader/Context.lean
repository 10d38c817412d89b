import ScopedLisp.Proofs.Reader.Stepwise

namespace ScopedLisp

namespace Progress

/-- The same with more frames open around it. -/
def around (outer : List Frame) : Progress → Progress
  | done v => ofValue outer v
  | within frames => within (frames ++ outer)

theorem ofValue_append (frames outer : List Frame) (v : Value) :
    ofValue (frames ++ outer) v = (ofValue frames v).around outer := by
  induction frames generalizing v with
  | nil => rfl
  | cons frame frames ih =>
    cases frame with
    | list items => rfl
    | quoted => exact ih (quote v)

/-- A token that has an effect does not reach the frames further out. -/
theorem ofToken_append {frames : List Frame} {t : Token} {p : Progress}
    (h : ofToken frames t = .ok p) (outer : List Frame) :
    ofToken (frames ++ outer) t = .ok (p.around outer) := by
  cases t with
  | leftParen | quote =>
    cases h
    rfl
  | string | symbol =>
    cases h
    exact congrArg Except.ok (ofValue_append frames outer _)
  | number lexeme =>
    rw [ofToken] at h ⊢
    cases hn : Numeral.ofChars? lexeme.toList with
    | none =>
      rw [hn] at h
      cases h
    | some n =>
      rw [hn] at h
      cases h
      exact congrArg Except.ok (ofValue_append frames outer _)
  | rightParen =>
    match frames with
    | .list items :: frames =>
      cases h
      exact congrArg Except.ok (ofValue_append frames outer _)
    | [] | .quoted :: _ => cases h
  | endOfInput => exact absurd h (ofToken_endOfInput frames p)

end Progress

namespace Scanner

variable {s s' t : Scanner} {frames : List Frame} {v : Value}

/-- The place of a token depends on where the scanner is, and nothing else does. -/
theorem next_of_rest_eq {x : Placed Token} (h : s.next = (.ok x, s')) (ht : t.rest = s.rest) :
    ∃ p t', t.next = (.ok ⟨x.item, p⟩, t') ∧ t'.rest = s'.rest := by
  obtain ⟨taken, hcut, -, -⟩ := next_eq_ok_iff.1 h
  refine ⟨t.skipBlanks.position, ⟨s'.rest, t.skipBlanks.position.after taken⟩, ?_, rfl⟩
  rw [next_eq_ok_iff, skipBlanks, ht]
  exact ⟨taken, hcut, rfl, rfl⟩

/-- Reading a value comes to handing it to the frames that are open around it, and it takes up the
same text at every place. -/
theorem readValue_around (h : s.readValue frames = .ok (v, s')) (outer : List Frame)
    (ht : t.rest = s.rest) : ∃ t' : Scanner, t'.rest = s'.rest ∧
      t.readValue (frames ++ outer) = t'.goOn (.ofValue outer v) := by
  fun_induction readValue frames s generalizing t with
  | case1 => cases h
  | case2 => cases h
  | case3 frames s x s₁ hs w hp =>
    cases h
    obtain ⟨p, t', hnext, hrest⟩ := next_of_rest_eq hs ht
    exact ⟨t', hrest, readValue_of_next hnext (Progress.ofToken_append hp outer)⟩
  | case4 frames s x s₁ hs frames' hp hlt ih =>
    obtain ⟨p, t₁, hnext, hrest⟩ := next_of_rest_eq hs ht
    obtain ⟨t', hrest', hread⟩ := ih h hrest
    exact ⟨t', hrest', (readValue_of_next hnext (Progress.ofToken_append hp outer)).trans hread⟩

theorem readValue_blanks_append {a : List Char} (ha : Blanks a) (u : List Char) (p : Position)
    (frames : List Frame) :
    readValue frames ⟨a ++ u, p⟩ = readValue frames ⟨u, p.after a⟩ := by
  rw [readValue_eq, next_blanks_append ha, ← readValue_eq]

/-- A text with one value in it is read to that value in front of what cannot belong to it, inside
all open frames, and only blanks of it are left. -/
theorem readValue_of_readAll {source : String} (h : readAll source = .ok [v])
    (outer : List Frame) {a u : List Char} (hs : s.rest = a ++ (source.toList ++ u))
    (ha : Blanks a) (hu : Delimits u) : ∃ (s' : Scanner) (b : List Char), Blanks b ∧
      s'.rest = b ++ u ∧ s.readValue outer = s'.goOn (.ofValue outer v) := by
  rw [readAll_eq] at h
  obtain ⟨s₁, hread, hrest⟩ := readValue_of_readValues h
  have hmore := readValue_append hread (.inr hu)
  obtain ⟨cs, p⟩ := s
  have hs : cs = a ++ (source.toList ++ u) := hs
  obtain ⟨s', hs', hgo⟩ :=
    readValue_around (t := ⟨source.toList ++ u, p.after a⟩) hmore outer rfl
  exact ⟨s', s₁.rest, blanks_of_readValues hrest, hs',
    hs ▸ (readValue_blanks_append ha _ p outer).trans hgo⟩

end Scanner

end ScopedLisp
