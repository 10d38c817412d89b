import ScopedLisp.Error
import ScopedLisp.Token

/-!
The head of a text: the token found there. A number or a symbol is as long as its pattern allows
and a string runs to the next double quote. A character that can start no token is left in place.
What a cut takes and what it leaves are together the text, and only a cut that finds the end takes
nothing and succeeds.
-/

namespace ScopedLisp

/-- The head of a text: the token found there or what is wrong with it, the characters it takes up,
and the text after them. -/
structure Cut where
  outcome : Except ScanFault Token
  taken : List Char
  rest : List Char

namespace Cut

/-- A numeral starts with a digit, or with a minus sign before a digit. -/
def startsNumeral : List Char → Bool
  | '-' :: c :: _ => c.isDigit
  | c :: _ => c.isDigit
  | [] => false

def spanFraction : List Char → List Char × List Char
  | '.' :: cs => ('.' :: cs.takeWhile Char.isDigit, cs.dropWhile Char.isDigit)
  | cs => ([], cs)

def spanUnsigned (cs : List Char) : List Char × List Char :=
  let fraction := spanFraction (cs.dropWhile Char.isDigit)
  (cs.takeWhile Char.isDigit ++ fraction.1, fraction.2)

/-- A sign, digits, and a point that digits may follow. -/
def spanNumeral : List Char → List Char × List Char
  | '-' :: cs => ('-' :: (spanUnsigned cs).1, (spanUnsigned cs).2)
  | cs => spanUnsigned cs

/-- The string whose opening quote has been read. There are no escapes. -/
def ofString (cs : List Char) : Cut :=
  let content := cs.takeWhile (· != '"')
  match cs.dropWhile (· != '"') with
  | [] => ⟨.error .unterminatedString, '"' :: content, []⟩
  | close :: rest => ⟨.ok (.string (String.ofList content)), '"' :: content ++ [close], rest⟩

/-- The token at the head of a text without leading blanks. -/
def ofText : List Char → Cut
  | [] => ⟨.ok .endOfInput, [], []⟩
  | '(' :: cs => ⟨.ok .leftParen, ['('], cs⟩
  | ')' :: cs => ⟨.ok .rightParen, [')'], cs⟩
  | '\'' :: cs => ⟨.ok .quote, ['\''], cs⟩
  | '"' :: cs => ofString cs
  | c :: cs =>
    if startsNumeral (c :: cs) then
      let span := spanNumeral (c :: cs)
      ⟨.ok (.number (String.ofList span.1)), span.1, span.2⟩
    else if isSymbolStart c then
      let name := c :: cs.takeWhile isSymbolChar
      ⟨.ok (.symbol (String.ofList name)), name, cs.dropWhile isSymbolChar⟩
    else ⟨.error (.unexpectedCharacter c), [], c :: cs⟩

theorem spanFraction_append (cs : List Char) :
    (spanFraction cs).1 ++ (spanFraction cs).2 = cs := by
  unfold spanFraction
  split <;> simp

theorem spanUnsigned_append (cs : List Char) :
    (spanUnsigned cs).1 ++ (spanUnsigned cs).2 = cs := by
  simp only [spanUnsigned, List.append_assoc, spanFraction_append, List.takeWhile_append_dropWhile]

theorem spanNumeral_append (cs : List Char) :
    (spanNumeral cs).1 ++ (spanNumeral cs).2 = cs := by
  unfold spanNumeral
  split <;> simp [spanUnsigned_append]

theorem spanNumeral_ne_nil {cs : List Char} (h : startsNumeral cs) : (spanNumeral cs).1 ≠ [] := by
  unfold spanNumeral
  split
  · simp
  · next h' =>
    match cs with
    | [] => simp [startsNumeral] at h
    | c :: cs =>
      have hc : c.isDigit := by
        unfold startsNumeral at h
        split at h <;> simp_all
      simp [spanUnsigned, hc]

theorem ofString_append (cs : List Char) :
    (ofString cs).taken ++ (ofString cs).rest = '"' :: cs := by
  have h := List.takeWhile_append_dropWhile (p := (· != '"')) (l := cs)
  unfold ofString
  split
  · next hd => rw [hd, List.append_nil] at h; simp [h]
  · next hd => rw [hd] at h; simp [h]

/-- A cut loses nothing. -/
theorem ofText_append (cs : List Char) : (ofText cs).taken ++ (ofText cs).rest = cs := by
  unfold ofText
  split <;> try rfl
  · exact ofString_append _
  · split
    · exact spanNumeral_append _
    · split <;> simp

theorem ofString_taken_ne_nil (cs : List Char) : (ofString cs).taken ≠ [] := by
  unfold ofString
  split <;> simp

/-- A token takes up a character, unless it is the end. -/
theorem ofText_taken_ne_nil {cs : List Char} {t : Token} (h : (ofText cs).outcome = .ok t)
    (ht : t ≠ .endOfInput) : (ofText cs).taken ≠ [] := by
  unfold ofText at h ⊢
  split at h <;> try simp
  · simp_all
  · exact ofString_taken_ne_nil _
  · split at h
    · next hn => simpa [hn] using spanNumeral_ne_nil hn
    · split at h <;> simp_all

theorem ofText_rest_length_le (cs : List Char) : (ofText cs).rest.length ≤ cs.length := by
  have h := congrArg List.length (ofText_append cs)
  simp at h
  omega

theorem ofText_rest_length_lt {cs : List Char} {t : Token} (h : (ofText cs).outcome = .ok t)
    (ht : t ≠ .endOfInput) : (ofText cs).rest.length < cs.length := by
  have h' := congrArg List.length (ofText_append cs)
  have := List.length_pos_iff.2 (ofText_taken_ne_nil h ht)
  simp at h'
  omega

end Cut

end ScopedLisp
