import ScopedLisp.Proofs.Token.Continuation

namespace ScopedLisp

/-- A text of which the characters before `index` have been read. -/
structure Cursor where
  text : List Char
  index : Nat
  position : Position

namespace Cursor

/-- What a call gives, and the cursor after it. -/
abbrev Step := Except ScanError (Placed Token) × Cursor

def ofString (source : String) : Cursor := ⟨source.toList, 0, .start⟩

def atEnd (c : Cursor) : Bool := c.text.length ≤ c.index

def peek (c : Cursor) : Char := c.text.getD c.index '\x00'

def peekNext (c : Cursor) : Char := c.text.getD (c.index + 1) '\x00'

/-- Moves over the next character, which has to be there. -/
def advance (c : Cursor) : Option Cursor :=
  c.text[c.index]?.map fun d => ⟨c.text, c.index + 1, c.position.next d⟩

/-- The characters up to a later cursor. Both have to be inside the text. -/
def upTo (c later : Cursor) : Option (List Char) :=
  if c.index ≤ later.index ∧ later.index ≤ c.text.length then
    some ((c.text.take later.index).drop c.index)
  else none

theorem advance_left_lt {c c' : Cursor} (h : c.advance = some c') :
    c'.text.length - c'.index < c.text.length - c.index := by
  obtain ⟨d, hd, rfl⟩ := Option.map_eq_some_iff.1 h
  obtain ⟨hlt, -⟩ := List.getElem?_eq_some_iff.1 hd
  dsimp only
  omega

def advanceWhile (p : Cursor → Bool) (c : Cursor) : Option Cursor :=
  if p c then
    match h : c.advance with
    | none => none
    | some c' =>
      have := advance_left_lt h
      advanceWhile p c'
  else some c
termination_by c.text.length - c.index

def single (t : Token) (c : Cursor) : Option Step := do
  let next ← c.advance
  return (.ok ⟨t, c.position⟩, next)

def string (c : Cursor) : Option Step := do
  let opened ← c.advance
  let closing ← opened.advanceWhile fun c => !c.atEnd && c.peek != '"'
  if closing.atEnd then return (.error ⟨.unterminatedString, c.position⟩, closing)
  let content ← opened.upTo closing
  let next ← closing.advance
  return (.ok ⟨.string (String.ofList content), c.position⟩, next)

def unsigned (c : Cursor) : Option Cursor := do
  let whole ← c.advanceWhile fun c => c.peek.isDigit
  if whole.peek = '.' then
    let point ← whole.advance
    point.advanceWhile fun c => c.peek.isDigit
  else return whole

def numeral (c : Cursor) : Option Cursor := do
  let signed ← if c.peek = '-' then c.advance else some c
  signed.unsigned

def number (c : Cursor) : Option Step := do
  let next ← c.numeral
  let lexeme ← c.upTo next
  return (.ok ⟨.number (String.ofList lexeme), c.position⟩, next)

def symbol (c : Cursor) : Option Step := do
  let first ← c.advance
  let next ← first.advanceWhile fun c => isSymbolChar c.peek
  let name ← c.upTo next
  return (.ok ⟨.symbol (String.ofList name), c.position⟩, next)

/-- The next token or error, where no blanks are in front of it. -/
def token (c : Cursor) : Option Step :=
  if c.atEnd then return (.ok ⟨.endOfInput, c.position⟩, c)
  else if c.peek = '(' then c.single .leftParen
  else if c.peek = ')' then c.single .rightParen
  else if c.peek = '\'' then c.single .quote
  else if c.peek = '"' then c.string
  else if c.peek.isDigit || (c.peek == '-' && c.peekNext.isDigit) then c.number
  else if isSymbolStart c.peek then c.symbol
  else return (.error ⟨.unexpectedCharacter c.peek, c.position⟩, c)

def next (c : Cursor) : Option Step := do
  let start ← c.advanceWhile fun c => isBlank c.peek
  start.token

/-- What so many calls give, going on after errors, and the cursor after them. -/
def calls : Nat → Cursor → Option (List (Except ScanError (Placed Token)) × Cursor)
  | 0, c => some ([], c)
  | count + 1, c => do
    let (outcome, c') ← c.next
    let (more, last) ← c'.calls count
    return (outcome :: more, last)

/-- The cursor of a scanner that has `front` behind it. -/
def behind (front : List Char) (s : Scanner) : Cursor :=
  ⟨front ++ s.rest, front.length, s.position⟩

section Behind

variable (front cs : List Char) (p : Position)

@[simp] theorem position_behind (s : Scanner) : (behind front s).position = s.position := rfl

@[simp] theorem atEnd_behind : (behind front ⟨cs, p⟩).atEnd = cs.isEmpty := by
  cases cs <;> simp [behind, atEnd]

@[simp] theorem peek_behind : (behind front ⟨cs, p⟩).peek = cs.headD '\x00' := by
  cases cs <;> simp [behind, peek]

theorem peekNext_behind (c : Char) :
    (behind front ⟨c :: cs, p⟩).peekNext = cs.headD '\x00' := by
  cases cs <;> simp [behind, peekNext]

@[simp] theorem advance_behind (c : Char) :
    (behind front ⟨c :: cs, p⟩).advance = some (behind (front ++ [c]) ⟨cs, p.next c⟩) := by
  simp [behind, advance]

theorem upTo_behind (more : List Char) (q : Position) :
    (behind front ⟨cs ++ more, p⟩).upTo (behind (front ++ cs) ⟨more, q⟩) = some cs := by
  have htake : (front ++ (cs ++ more)).take (front ++ cs).length = front ++ cs := by
    rw [← List.append_assoc]
    exact List.take_left
  simp only [behind, upTo, htake, List.drop_left]
  simp

/-- A loop whose condition looks at the next character only, and does not hold at the end, moves
over the characters that satisfy it. -/
theorem advanceWhile_behind {loop : Cursor → Bool} {q : Char → Bool}
    (hloop : ∀ front cs p, loop (behind front ⟨cs, p⟩) = cs.head?.any q) :
    (behind front ⟨cs, p⟩).advanceWhile loop =
      some (behind (front ++ cs.takeWhile q) ⟨cs.dropWhile q, p.after (cs.takeWhile q)⟩) := by
  induction cs generalizing front p with
  | nil =>
    rw [advanceWhile, hloop]
    simp
  | cons c cs ih =>
    rw [advanceWhile, hloop]
    cases hc : q c with
    | false => simp [hc]
    | true =>
      split
      · split
        · next hnone =>
          rw [advance_behind] at hnone
          cases hnone
        · next hsome =>
          rw [advance_behind] at hsome
          cases hsome
          rw [ih]
          simp [hc]
      · next hnot => simp [hc] at hnot

/-- NUL ends a loop that looks for characters of another kind. -/
theorem advanceWhile_peek {q : Char → Bool} (hq : q '\x00' = false) :
    (behind front ⟨cs, p⟩).advanceWhile (fun c => q c.peek) =
      some (behind (front ++ cs.takeWhile q) ⟨cs.dropWhile q, p.after (cs.takeWhile q)⟩) := by
  refine advanceWhile_behind front cs p fun front cs p => ?_
  rw [peek_behind]
  cases cs with
  | nil => exact hq
  | cons c cs => rfl

/-- The cursor behind a cut, with what was found there. -/
def cutAt (front : List Char) (p : Position) (cut : Cut) : Step :=
  (match cut.outcome with
    | .ok t => .ok ⟨t, p⟩
    | .error fault => .error ⟨fault, p⟩,
    behind (front ++ cut.taken) ⟨cut.rest, p.after cut.taken⟩)

theorem single_behind (c : Char) (t : Token) :
    (behind front ⟨c :: cs, p⟩).single t = some (cutAt front p ⟨.ok t, [c], cs⟩) := by
  rw [single, advance_behind]
  rfl

theorem string_behind :
    (behind front ⟨'"' :: cs, p⟩).string = some (cutAt front p (Cut.ofString cs)) := by
  have hloop : ∀ front cs p, (fun c : Cursor => !c.atEnd && c.peek != '"')
      (behind front ⟨cs, p⟩) = cs.head?.any (· != '"') := by
    intro front cs p
    dsimp only
    rw [atEnd_behind, peek_behind]
    cases cs <;> rfl
  have hcontent := List.takeWhile_append_dropWhile (p := (· != '"')) (l := cs)
  rw [string, advance_behind]
  dsimp only [Option.bind_eq_bind, Option.bind_some]
  rw [advanceWhile_behind _ _ _ hloop]
  dsimp only [Option.bind_some]
  rw [atEnd_behind, Cut.ofString]
  generalize cs.takeWhile (· != '"') = content at hcontent
  generalize cs.dropWhile (· != '"') = more at hcontent
  subst hcontent
  rw [upTo_behind]
  cases more with
  | nil => simp [cutAt]
  | cons c rest => simp [cutAt, advance_behind, Position.after_append]

theorem unsigned_behind : (behind front ⟨cs, p⟩).unsigned = some (behind
    (front ++ (Cut.spanUnsigned cs).1)
    ⟨(Cut.spanUnsigned cs).2, p.after (Cut.spanUnsigned cs).1⟩) := by
  rw [unsigned, advanceWhile_peek _ _ _ (by decide)]
  dsimp only [Option.bind_eq_bind, Option.bind_some]
  rw [Cut.spanUnsigned]
  generalize cs.dropWhile Char.isDigit = more
  rw [peek_behind]
  cases more with
  | nil => simp [Cut.spanFraction]
  | cons c cs =>
    by_cases hc : c = '.'
    · subst hc
      simp [Cut.spanFraction, advance_behind, advanceWhile_peek, Position.after_append]
    · have hhead : ∀ d ∈ (c :: cs).head?, d ≠ '.' := Cut.head?_cons_ne hc
      have hfraction := Cut.spanFraction_of_head?_ne hhead
      simp [hfraction, hc]

theorem startsNumeral_cons (c : Char) (cs : List Char) : Cut.startsNumeral (c :: cs) =
    (c.isDigit || (c == '-' && (cs.headD '\x00').isDigit)) := by
  by_cases hminus : c = '-'
  · subst hminus
    cases cs <;> rfl
  · simp [Cut.startsNumeral_of_ne hminus, hminus]

theorem numeral_behind : (behind front ⟨cs, p⟩).numeral = some (behind
    (front ++ (Cut.spanNumeral cs).1)
    ⟨(Cut.spanNumeral cs).2, p.after (Cut.spanNumeral cs).1⟩) := by
  rw [numeral, peek_behind]
  cases cs with
  | nil => simp [unsigned_behind, Cut.spanNumeral]
  | cons c cs =>
    by_cases hminus : c = '-'
    · subst hminus
      simp [unsigned_behind, Cut.spanNumeral]
    · have hhead : ∀ d ∈ (c :: cs).head?, d ≠ '-' := Cut.head?_cons_ne hminus
      have hspan := Cut.spanNumeral_of_head?_ne hhead
      simp [unsigned_behind, hspan, hminus]

theorem number_behind : (behind front ⟨cs, p⟩).number = some (cutAt front p
    ⟨.ok (.number (String.ofList (Cut.spanNumeral cs).1)), (Cut.spanNumeral cs).1,
      (Cut.spanNumeral cs).2⟩) := by
  have hread := upTo_behind front (Cut.spanNumeral cs).1 p (Cut.spanNumeral cs).2
    (p.after (Cut.spanNumeral cs).1)
  rw [Cut.spanNumeral_append] at hread
  rw [number, numeral_behind]
  simp [hread, cutAt]

theorem symbol_behind (c : Char) : (behind front ⟨c :: cs, p⟩).symbol = some (cutAt front p
    ⟨.ok (.symbol (String.ofList (c :: cs.takeWhile isSymbolChar))),
      c :: cs.takeWhile isSymbolChar, cs.dropWhile isSymbolChar⟩) := by
  have hname := List.takeWhile_append_dropWhile (p := isSymbolChar) (l := cs)
  rw [symbol, advance_behind]
  dsimp only [Option.bind_eq_bind, Option.bind_some]
  rw [advanceWhile_peek _ _ _ (by decide)]
  dsimp only [Option.bind_some]
  generalize cs.takeWhile isSymbolChar = name at hname
  generalize cs.dropWhile isSymbolChar = more at hname
  subst hname
  have hread := upTo_behind front (c :: name) p more ((p.next c).after name)
  simp only [List.append_assoc, List.cons_append, List.nil_append] at hread ⊢
  simp [hread, cutAt]

/-- Where there are no blanks the cursor comes to the cut of the text. -/
theorem token_behind :
    (behind front ⟨cs, p⟩).token = some (cutAt front p (Cut.ofText cs)) := by
  unfold Cut.ofText
  split
  · simp [token, cutAt]
  · simp [token, single_behind]
  · simp [token, single_behind]
  · simp [token, single_behind]
  · simp [token, string_behind]
  · next c cs hopen hclose hquote hdouble =>
    simp only [token, atEnd_behind, List.isEmpty_cons, Bool.false_eq_true, if_false, peek_behind,
      List.headD_cons, if_neg hopen, if_neg hclose, if_neg hquote, if_neg hdouble, peekNext_behind,
      ← startsNumeral_cons]
    split
    · exact number_behind front (c :: cs) p
    · split
      · exact symbol_behind front cs p c
      · simp [cutAt]

/-- A call finds what the scanner finds and moves over what the scanner takes away. -/
theorem next_behind (s : Scanner) : ∃ taken, taken ++ s.next.2.rest = s.rest ∧
    (behind front s).next = some (s.next.1, behind (front ++ taken) s.next.2) := by
  refine ⟨s.rest.takeWhile isBlank ++ (Cut.ofText s.skipBlanks.rest).taken, ?_, ?_⟩
  · exact s.passes_next.1.symm
  · have hskip := advanceWhile_peek front s.rest s.position (q := isBlank) (by decide)
    have hskip : (behind front s).advanceWhile (fun c => isBlank c.peek) =
        some (behind (front ++ s.rest.takeWhile isBlank) s.skipBlanks) := hskip
    have htoken := token_behind (front ++ s.rest.takeWhile isBlank) s.skipBlanks.rest
      s.skipBlanks.position
    rw [next, hskip, ← List.append_assoc]
    exact htoken

end Behind

/-- The next call reads inside the text and does not move back; a token moves the cursor on. -/
def IsSafe (c : Cursor) : Prop :=
  ∃ outcome c', c.next = some (outcome, c') ∧ c.index ≤ c'.index ∧ c'.index ≤ c.text.length ∧
    ∀ t, outcome = .ok t → t.item ≠ .endOfInput → c.index < c'.index

theorem isSafe_behind (front : List Char) (s : Scanner) : (behind front s).IsSafe := by
  obtain ⟨taken, htaken, hnext⟩ := next_behind front s
  have hlength := congrArg List.length htaken
  rw [List.length_append] at hlength
  refine ⟨_, _, hnext, ?_, ?_, ?_⟩
  · simp [behind]
  · simp only [behind, List.length_append]
    omega
  · intro t ht hend
    have hlt : s.next.2.rest.length < s.rest.length :=
      Scanner.next_length_lt (Prod.ext ht rfl) hend
    simp only [behind, List.length_append]
    omega

theorem calls_behind (front : List Char) (s : Scanner) (count : Nat) :
    ∃ front' s', front' ++ s'.rest = front ++ s.rest ∧
      (behind front s).calls count = some (s.outcomes count, behind front' s') := by
  induction count generalizing front s with
  | zero => exact ⟨front, s, rfl, rfl⟩
  | succ count ih =>
    obtain ⟨taken, htaken, hnext⟩ := next_behind front s
    obtain ⟨front', s', htext, hcalls⟩ := ih (front ++ taken) s.next.2
    refine ⟨front', s', ?_, ?_⟩
    · rw [htext, List.append_assoc, htaken]
    · rw [calls, hnext]
      simp [hcalls, Scanner.outcomes]

end Cursor

end ScopedLisp
