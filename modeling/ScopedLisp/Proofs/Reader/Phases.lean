import ScopedLisp.Proofs.Reader.Viability
import ScopedLisp.Proofs.Token.Ending

/-!
A reader that is used on after errors. It stands on a token of its text until the scanner fails. In
front of a character that starts no token it is jammed: it reads nothing more. Behind a string
without its end nothing is left but the token that was used last, which has lost its text. Such a
reader is cut short, and the next reading is its last one: then it is over.
-/

namespace ScopedLisp

open Datum

namespace Scanner

variable {s s' : Scanner} {ts : List (Placed Token)}

/-- From the first scanner one comes to the second by these tokens, without an error. -/
inductive Gives (s : Scanner) : List (Placed Token) → Scanner → Prop
  | nil : Gives s [] s
  | snoc {s' s'' : Scanner} {ts : List (Placed Token)} {t : Placed Token} (h : Gives s ts s')
      (hnext : s'.next = (.ok t, s'')) : Gives s (ts ++ [t]) s''

theorem Gives.outcomes (h : s.Gives ts s') (count : Nat) :
    s.outcomes (ts.length + count) = ts.map .ok ++ s'.outcomes count := by
  induction h generalizing count with
  | nil => simp
  | @snoc s' s'' ts t h hnext ih =>
    have hstep : s'.outcomes (1 + count) = .ok t :: s''.outcomes count := by
      rw [Nat.add_comm, Scanner.outcomes, hnext]
    rw [List.length_append, List.length_singleton, Nat.add_assoc, ih, hstep]
    simp

/-- The scanner is in front of a character that starts no token. -/
def IsJammed (s : Scanner) : Prop := ∃ c p, s.next.1 = .error ⟨.unexpectedCharacter c, p⟩

theorem next_of_rest_nil (h : s.rest = []) :
    ∃ p s', s.next = (.ok ⟨.endOfInput, p⟩, s') ∧ s'.rest = [] := by
  obtain ⟨p, s', hs⟩ := next_of_atEnd (atEnd_of_rest_nil h)
  exact ⟨p, s', hs, (rest_of_next_end hs rfl).2⟩

end Scanner

namespace Token

variable {t : Token}

theorem spent_mem (h : t ≠ .endOfInput) : t.spent ∈
    [.leftParen, .rightParen, .quote, .number "", .string "", .symbol ""] := by
  cases t with
  | endOfInput => exact absurd rfl h
  | _ => simp [spent]

theorem spent_ne_endOfInput (h : t ≠ .endOfInput) : t.spent ≠ .endOfInput := by
  intro hspent
  have hmem := spent_mem h
  rw [hspent] at hmem
  simp at hmem

end Token

/-- The text ends inside a string. -/
def ReadError.IsOpenString (e : ReadError) : Prop := e.item = .scan .unterminatedString

namespace Progress

/-- Only the scanner finds a string without its end. -/
theorem not_openString_of_fault {frames : List Frame} {t : Token} {fault : ReadFault}
    (h : ofToken frames t = .error fault) (p : Position) :
    ¬ ReadError.IsOpenString ⟨fault, p⟩ := by
  intro hopen
  have hopen : fault = .scan .unterminatedString := hopen
  subst hopen
  unfold ofToken at h
  split at h <;> (try split at h) <;> cases h

end Progress

namespace Reader

variable {source : String} {before : List (Placed Token)} {r r' : Reader} {frames : List Frame}
  {e : ReadError} {v : Value}

/-- The lookahead is the token of the text behind the tokens `before`. -/
def Stands (source : String) (before : List (Placed Token)) (r : Reader) : Prop :=
  ∃ s, (Scanner.ofString source).Gives before s ∧ s.next = (.ok r.lookahead, r.scanner)

/-- No token comes any more, and the one that was used last is there. -/
def IsJammed (r : Reader) : Prop := r.scanner.IsJammed ∧ r.lookahead.item ≠ .endOfInput

/-- Nothing is left but the token that was used last. -/
def IsCutShort (r : Reader) : Prop :=
  r.scanner.rest = [] ∧
    r.lookahead.item ∈ [.leftParen, .rightParen, .quote, .number "", .string "", .symbol ""]

/-- Nothing is left that could be read. -/
def IsOver (r : Reader) : Prop :=
  r.scanner.rest = [] ∧ r.lookahead.item ∈ [.rightParen, .number "", .endOfInput]

/-- Where a reader is that has not met the open end of a string just now. -/
inductive Settled (source : String) (r : Reader) : Prop
  | stands {before : List (Placed Token)} (h : r.Stands source before)
  | jammed (h : r.IsJammed)
  | finished (h : r.IsOver)

/-- Where an error leaves a reader. -/
def Failed (source : String) (e : ReadError) (r : Reader) : Prop :=
  (e.IsOpenString → r.IsCutShort) ∧ (¬ e.IsOpenString → r.Settled source)

theorem Settled.failed (h : r.Settled source) (he : ¬ e.IsOpenString) : r.Failed source e :=
  ⟨fun hopen => absurd hopen he, fun _ => h⟩

/-- It is not found that the text ends inside a string, and what is read satisfies `P`. -/
def Yields {α : Type} (P : α → Prop) : Except ReadError α → Prop
  | .ok a => P a
  | .error e => ¬ e.IsOpenString

section Yields

variable {α β : Type} {P Q : α → Prop} {outcome : Except ReadError α}

theorem Yields.map {R : β → Prop} {f : α → β} (h : Yields P outcome) (hf : ∀ a, P a → R (f a)) :
    Yields R (outcome.map f) := by
  cases outcome with
  | error e => exact h
  | ok a => exact hf a h

theorem Yields.imp (h : Yields P outcome) (himp : ∀ a, P a → Q a) : Yields Q outcome := by
  cases outcome with
  | error e => exact h
  | ok a => exact himp a h

end Yields

section Steps

theorem next_of_advance (h : r.advance = (.ok (), r')) :
    r.scanner.next = (.ok r'.lookahead, r'.scanner) := by
  unfold advance at h
  split at h
  · next hs =>
    cases h
    exact hs
  · cases h

theorem advance_of_rest_nil (h : r.scanner.rest = []) :
    ∃ r', r.advance = (.ok (), r') ∧ r'.scanner.rest = [] ∧ r'.lookahead.item = .endOfInput := by
  obtain ⟨p, s', hs, hrest⟩ := Scanner.next_of_rest_nil h
  exact ⟨⟨s', ⟨.endOfInput, p⟩⟩, by rw [advance, hs], hrest, rfl⟩

/-- A token that was not the end stays, without its text, when the scanner fails behind it. -/
theorem failed_of_advance_error (h : r.advance = (.error e, r'))
    (hend : r.lookahead.item ≠ .endOfInput) : r'.Failed source e := by
  unfold advance at h
  split at h
  · cases h
  · next e₁ s₁ hs =>
    cases h
    obtain ⟨fault, p⟩ := e₁
    cases fault with
    | unterminatedString =>
      have hrest : s₁.rest = [] := by rw [Scanner.next_of_unterminated hs]
      exact ⟨fun _ => ⟨hrest, Token.spent_mem hend⟩, fun hnot => absurd rfl hnot⟩
    | unexpectedCharacter c =>
      have hjammed : s₁.IsJammed := ⟨c, p, congrArg Prod.fst (Scanner.next_of_unexpected hs)⟩
      exact Settled.failed (.jammed ⟨hjammed, Token.spent_ne_endOfInput hend⟩) nofun

theorem Stands.advance (h : r.Stands source before) (hadvance : r.advance = (.ok (), r')) :
    r'.Stands source (before ++ [r.lookahead]) := by
  obtain ⟨s, hgives, hnext⟩ := h
  exact ⟨r.scanner, hgives.snoc hnext, next_of_advance hadvance⟩

/-- A token of the text that cannot be read stays as it is. -/
theorem Stands.spend {fault : ReadFault} (h : r.Stands source before)
    (hp : Progress.ofToken frames r.lookahead.item = .error fault) :
    r.spend.Stands source before := by
  have hspend : r.spend = r := by
    obtain ⟨s, -, hnext⟩ := h
    obtain ⟨scanner, ⟨item, p⟩⟩ := r
    rcases Scanner.fault_cases hnext hp with ⟨hitem, -⟩ | ⟨hitem, -⟩
    all_goals
      have hitem : item = _ := hitem
      subst hitem
      rfl
  rw [hspend]
  exact h

end Steps

section Readings

theorem Stands.failed_of_readWithin (h : r.Stands source before)
    (hread : r.readWithin frames = (.error e, r')) : r'.Failed source e := by
  fun_induction readWithin frames r generalizing before with
  | case1 frames r fault hp =>
    cases hread
    exact (Settled.stands (h.spend hp)).failed (Progress.not_openString_of_fault hp _)
  | case2 frames r p hp e₁ r₁ hadvance =>
    cases hread
    exact failed_of_advance_error hadvance (lookahead_ne_endOfInput hp)
  | case3 => cases hread
  | case4 frames r r₁ hadvance frames' hp hlt hp' ih => exact ih (h.advance hadvance) hread

/-- A reading goes through the tokens that its frames ask for, one behind the other. -/
theorem Stands.completes_of_readWithin (h : r.Stands source before)
    (hread : r.readWithin frames = (.ok v, r')) :
    ∃ us : List (Placed Token), Completes frames (us.map (·.item)) v ∧
      r'.Stands source (before ++ us) := by
  fun_induction readWithin frames r generalizing before with
  | case1 => cases hread
  | case2 => cases hread
  | case3 frames r r₁ hadvance w hp =>
    cases hread
    exact ⟨[r.lookahead], completes_of_asksFor hp ⟨rfl, rfl⟩, h.advance hadvance⟩
  | case4 frames r r₁ hadvance frames' hp hlt hp' ih =>
    obtain ⟨us, hcompletes, hstands⟩ := ih (h.advance hadvance) hread
    rw [List.append_assoc] at hstands
    exact ⟨r.lookahead :: us, completes_of_asksFor hp hcompletes, hstands⟩

theorem Stands.datum_of_read (h : r.Stands source before) (hread : r.read = (.ok v, r')) :
    ∃ (d : Datum) (us : List (Placed Token)), d.reading = some v ∧
      us.map (·.item) = d.tokens ∧ r'.Stands source (before ++ us) := by
  obtain ⟨us, hcompletes, hstands⟩ := h.completes_of_readWithin hread
  obtain ⟨d, w, us', hw, hus, hnil, hv⟩ := hcompletes
  subst hnil hv
  rw [List.append_nil] at hus
  exact ⟨d, us, hw, hus, hstands⟩

/-- In front of a character that starts no token nothing is read. -/
theorem IsJammed.readWithin (h : r.IsJammed) (source : String) (frames : List Frame) :
    ∃ e r', r.readWithin frames = (.error e, r') ∧ r'.Failed source e := by
  obtain ⟨hscanner, hend⟩ := h
  cases hp : Progress.ofToken frames r.lookahead.item with
  | error fault =>
    have hjammed : r.spend.Settled source := .jammed ⟨hscanner, Token.spent_ne_endOfInput hend⟩
    exact ⟨_, _, readWithin_of_fault hp,
      hjammed.failed (Progress.not_openString_of_fault hp _)⟩
  | ok p =>
    obtain ⟨c, place, hnext⟩ := hscanner
    have hadvance : r.advance.1 = .error ⟨.scan (.unexpectedCharacter c), place⟩ :=
      advance_of_ofScanner_error (ofScanner_eq_error_iff.2 ⟨_, hnext, rfl⟩)
    exact ⟨_, _, readWithin_of_advance_error hp hadvance,
      failed_of_advance_error (Prod.ext hadvance rfl) hend⟩

theorem IsOver.readWithin_of_fault {P : Value → Prop} {fault : ReadFault} (h : r.IsOver)
    (hp : Progress.ofToken frames r.lookahead.item = .error fault) :
    Yields P (r.readWithin frames).1 ∧ (r.readWithin frames).2.IsOver := by
  obtain ⟨hrest, hitem⟩ := h
  have hspent : r.lookahead.item.spent ∈ [.rightParen, .number "", .endOfInput] := by
    simp only [List.mem_cons, List.not_mem_nil, or_false] at hitem
    rcases hitem with hitem | hitem | hitem <;> simp [hitem, Token.spent]
  rw [Reader.readWithin_of_fault hp]
  exact ⟨Progress.not_openString_of_fault hp _, hrest, hspent⟩

/-- A reader that is over reads no value, and stays over. -/
theorem IsOver.read {P : Value → Prop} (h : r.IsOver) : Yields P r.read.1 ∧ r.read.2.IsOver := by
  have hfault : ∃ fault, Progress.ofToken [] r.lookahead.item = .error fault := by
    have hitem := h.2
    simp only [List.mem_cons, List.not_mem_nil, or_false] at hitem
    rcases hitem with hitem | hitem | hitem <;> exact ⟨_, by rw [hitem]; rfl⟩
  obtain ⟨fault, hp⟩ := hfault
  exact h.readWithin_of_fault hp

/-- All that is read from a reader that is cut short is the string or the symbol without text that
is left. -/
theorem IsCutShort.read (h : r.IsCutShort) :
    Yields (· ∈ [.string "", .symbol ""]) r.read.1 ∧ r.read.2.IsOver := by
  obtain ⟨hrest, hitem⟩ := h
  obtain ⟨r₁, hadvance, hrest₁, hend⟩ := advance_of_rest_nil hrest
  have hover₁ : r₁.IsOver := ⟨hrest₁, by simp [hend]⟩
  have hread (p : Progress) (hp : Progress.ofToken [] r.lookahead.item = .ok p) :
      r.read = r₁.goOn p := readWithin_eq hp hadvance
  -- A used parenthesis or quote mark opens a frame, which then meets the end of the text.
  have hframe (frames : List Frame) (fault : ReadFault)
      (hp : Progress.ofToken [] r.lookahead.item = .ok (.within frames))
      (hfault : Progress.ofToken frames .endOfInput = .error fault) :
      Yields (· ∈ [.string "", .symbol ""]) r.read.1 ∧ r.read.2.IsOver := by
    rw [hread _ hp]
    exact hover₁.readWithin_of_fault (hend ▸ hfault)
  simp only [List.mem_cons, List.not_mem_nil, or_false] at hitem
  rcases hitem with hopen | hclose | hquote | hnumber | hstring | hsymbol
  · exact hframe [.list []] .unterminatedList (by rw [hopen]; rfl) rfl
  · exact IsOver.read ⟨hrest, by simp [hclose]⟩
  · exact hframe [.quoted] .unexpectedEndOfInput (by rw [hquote]; rfl) rfl
  · exact IsOver.read ⟨hrest, by simp [hnumber]⟩
  · rw [hread (.done (.string "")) (by rw [hstring]; rfl)]
    exact ⟨.head _, hover₁⟩
  · rw [hread (.done (.symbol "")) (by rw [hsymbol]; rfl)]
    exact ⟨.tail _ (.head _), hover₁⟩

theorem Settled.failed_of_read (h : r.Settled source) (hread : r.read = (.error e, r')) :
    r'.Failed source e := by
  cases h with
  | stands h => exact h.failed_of_readWithin hread
  | jammed h =>
    obtain ⟨e', r'', hread', hfailed⟩ := h.readWithin source []
    cases hread.symm.trans hread'
    exact hfailed
  | finished h =>
    obtain ⟨hyields, hover⟩ := h.read (P := fun _ => True)
    rw [hread] at hyields hover
    exact Settled.failed (.finished hover) hyields

/-- Only a reader that stands on a token of the text can read a value. -/
theorem Settled.stands_of_read (h : r.Settled source) (hread : r.read = (.ok v, r')) :
    ∃ before, r.Stands source before := by
  cases h with
  | stands h => exact ⟨_, h⟩
  | jammed h =>
    obtain ⟨e', r'', hread', -⟩ := h.readWithin source []
    cases hread.symm.trans hread'
  | finished h =>
    obtain ⟨hyields, -⟩ := h.read (P := fun _ => False)
    rw [hread] at hyields
    exact hyields.elim

end Readings

end Reader

end ScopedLisp
