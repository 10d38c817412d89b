import ScopedLisp.Numeral
import ScopedLisp.Token.Scanner
import ScopedLisp.Value

/-!
Reading tokens into values with one token of lookahead. The open parentheses and quote marks are a
stack of frames; each token acts on it, and then the scanner is asked once for the next one. An
error leaves a reader that can be used on.
-/

namespace ScopedLisp

/-- An open parenthesis with the elements after it, the last one first, or an open quote mark. -/
inductive Frame
  | list (items : List Value)
  | quoted

/-- Where a token leaves the reading of a value. -/
inductive Progress
  | done (v : Value)
  | within (frames : List Frame)

namespace Progress

def quote (v : Value) : Value := .list [.symbol SpecialForm.quote.name, v]

/-- Hands a value to the innermost frame. A quote mark closes with the value after it. -/
def ofValue : List Frame → Value → Progress
  | [], v => done v
  | .list items :: frames, v => within (.list (v :: items) :: frames)
  | .quoted :: frames, v => ofValue frames (quote v)

def ofSymbol (name : String) : Value :=
  if name = "t" then .boolean true else if name = "nil" then .nil else .symbol name

/-- The effect of a token, given the open frames. -/
def ofToken (frames : List Frame) : Token → Except ReadFault Progress
  | .leftParen => .ok (within (.list [] :: frames))
  | .quote => .ok (within (.quoted :: frames))
  | .number lexeme =>
    match Numeral.ofChars? lexeme.toList with
    | some n => .ok (ofValue frames (.number n.value))
    | none => .error (.invalidNumeral lexeme)
  | .string content => .ok (ofValue frames (.string content))
  | .symbol name => .ok (ofValue frames (ofSymbol name))
  | .rightParen =>
    match frames with
    | .list items :: outer => .ok (ofValue outer (.list items.reverse))
    | _ => .error .unexpectedCloseParen
  | .endOfInput =>
    match frames with
    | .list _ :: _ => .error .unterminatedList
    | _ => .error .unexpectedEndOfInput

theorem ofToken_endOfInput (frames : List Frame) (p : Progress) :
    ofToken frames .endOfInput ≠ .ok p := by
  match frames with
  | [] | .quoted :: _ | .list _ :: _ => simp [ofToken]

end Progress

/-- A scanner and the token that it gave last. -/
structure Reader where
  scanner : Scanner
  lookahead : Placed Token

namespace Reader

/-- A reader in front of the first token. -/
def ofString (source : String) : Except ReadError Reader :=
  match (Scanner.ofString source).next with
  | (.ok t, s) => .ok ⟨s, t⟩
  | (.error e, _) => .error e.toReadError

def atEnd (r : Reader) : Bool := r.lookahead.item = .endOfInput

/-- The reader whose lookahead has been used. -/
def spend (r : Reader) : Reader :=
  ⟨r.scanner, ⟨r.lookahead.item.spent, r.lookahead.position⟩⟩

/-- Moves on to the next token. Where there is none, the used one stays. -/
def advance (r : Reader) : Except ReadError Unit × Reader :=
  match r.scanner.next with
  | (.ok t, s) => (.ok (), ⟨s, t⟩)
  | (.error e, s) => (.error e.toReadError, { r.spend with scanner := s })

/-- How much is left to read: the characters not yet scanned, and one more unless the end has been
seen. -/
def remaining (r : Reader) : Nat := r.scanner.rest.length + if r.atEnd then 0 else 1

theorem advance_remaining_lt {r r' : Reader} (h : r.advance = (.ok (), r'))
    (hr : r.lookahead.item ≠ .endOfInput) : r'.remaining < r.remaining := by
  unfold advance at h
  split at h
  · next t s hs =>
    obtain ⟨-, rfl⟩ := Prod.mk.inj h
    have hle : s.rest.length ≤ r.scanner.rest.length := by
      have := r.scanner.next_length_le
      rwa [hs] at this
    by_cases ht : t.item = .endOfInput
    · simp only [remaining, atEnd, ht, hr]; simp; omega
    · have := Scanner.next_length_lt hs ht
      simp only [remaining, atEnd, ht, hr]; simp; omega
  · simp at h

theorem lookahead_ne_endOfInput {r : Reader} {frames : List Frame} {p : Progress}
    (h : Progress.ofToken frames r.lookahead.item = .ok p) : r.lookahead.item ≠ .endOfInput :=
  fun he => Progress.ofToken_endOfInput frames p (he ▸ h)

/-- Reads on inside `frames` to the end of the outermost value. -/
def readWithin (frames : List Frame) (r : Reader) : Except ReadError Value × Reader :=
  match h : Progress.ofToken frames r.lookahead.item with
  | .error fault => (.error ⟨fault, r.lookahead.position⟩, r.spend)
  | .ok progress =>
    match ha : r.advance with
    | (.error e, r') => (.error e, r')
    | (.ok (), r') =>
      match progress with
      | .done v => (.ok v, r')
      | .within frames' =>
        have := advance_remaining_lt ha (lookahead_ne_endOfInput h)
        readWithin frames' r'
termination_by r.remaining

/-- Reads one value, starting at the lookahead. -/
def read (r : Reader) : Except ReadError Value × Reader := r.readWithin []

theorem readWithin_remaining_lt {frames : List Frame} {r r' : Reader} {v : Value}
    (h : r.readWithin frames = (.ok v, r')) : r'.remaining < r.remaining := by
  fun_induction readWithin frames r with
  | case1 => simp at h
  | case2 => simp at h
  | case3 frames r r₁ ha v hp =>
    obtain ⟨-, rfl⟩ := Prod.mk.inj h
    exact advance_remaining_lt ha (lookahead_ne_endOfInput hp)
  | case4 frames r r₁ ha frames' hp hlt hp' ih => exact Nat.lt_trans (ih h) hlt

/-- Reads values up to the end of the text, after those already `done`. -/
def readAllAfter (done : List Value) (r : Reader) : Except ReadError (List Value) × Reader :=
  if r.atEnd then (.ok done.reverse, r)
  else
    match h : r.read with
    | (.error e, r') => (.error e, r')
    | (.ok v, r') =>
      have := readWithin_remaining_lt h
      readAllAfter (v :: done) r'
termination_by r.remaining

def readAll (r : Reader) : Except ReadError (List Value) × Reader := r.readAllAfter []

end Reader

/-- The first value of a text; what follows it is not looked at beyond one token. -/
def readOne (source : String) : Except ReadError Value := do (← Reader.ofString source).read.1

/-- All values of a text. -/
def readAll (source : String) : Except ReadError (List Value) := do
  (← Reader.ofString source).readAll.1

end ScopedLisp
