import Mathlib.Data.List.TakeWhile
import ScopedLisp.Token.Cut

namespace ScopedLisp.Cut

variable {cs : List Char}

theorem startsNumeral_of_ne {c : Char} (h : c ≠ '-') (cs : List Char) :
    startsNumeral (c :: cs) = c.isDigit := by
  unfold startsNumeral
  split
  · next heq => exact absurd (List.cons.inj heq).1 h
  · next heq => rw [(List.cons.inj heq).1]
  · next heq => cases heq

theorem ne_minus_of_not_start {c : Char} (h : isSymbolStart c = false) : c ≠ '-' := by
  rintro rfl
  cases h

/-- What a text starts with, and the cut that this makes. -/
inductive Starts : List Char → Cut → Prop
  | nothing : Starts [] ⟨.ok .endOfInput, [], []⟩
  | leftParen (cs : List Char) : Starts ('(' :: cs) ⟨.ok .leftParen, ['('], cs⟩
  | rightParen (cs : List Char) : Starts (')' :: cs) ⟨.ok .rightParen, [')'], cs⟩
  | quote (cs : List Char) : Starts ('\'' :: cs) ⟨.ok .quote, ['\''], cs⟩
  | string (cs : List Char) : Starts ('"' :: cs) (ofString cs)
  | number {cs : List Char} (h : startsNumeral cs) :
    Starts cs ⟨.ok (.number (String.ofList (spanNumeral cs).1)), (spanNumeral cs).1,
      (spanNumeral cs).2⟩
  | symbol {c : Char} {cs : List Char} (hnumeral : ¬ startsNumeral (c :: cs))
      (hstart : isSymbolStart c) :
    Starts (c :: cs) ⟨.ok (.symbol (String.ofList (c :: cs.takeWhile isSymbolChar))),
      c :: cs.takeWhile isSymbolChar, cs.dropWhile isSymbolChar⟩
  | unexpected {c : Char} (hmark : c ∉ ['(', ')', '\'', '"']) (hdigit : c.isDigit = false)
      (hstart : isSymbolStart c = false) (cs : List Char) :
    Starts (c :: cs) ⟨.error (.unexpectedCharacter c), [], c :: cs⟩

theorem starts_ofText (cs : List Char) : Starts cs (ofText cs) := by
  unfold ofText
  split
  · exact .nothing
  · exact .leftParen _
  · exact .rightParen _
  · exact .quote _
  · exact .string _
  · next c cs hopen hclose hquote hdouble =>
    split
    · next hnumeral => exact .number hnumeral
    · next hnumeral =>
      split
      · next hstart => exact .symbol hnumeral hstart
      · next hstart =>
        have hstart := Bool.eq_false_iff.2 hstart
        rw [startsNumeral_of_ne (ne_minus_of_not_start hstart)] at hnumeral
        have hmark : c ∉ ['(', ')', '\'', '"'] := by
          simp only [List.mem_cons, List.not_mem_nil, or_false]
          rintro (rfl | rfl | rfl | rfl)
          · exact hopen rfl
          · exact hclose rfl
          · exact hquote rfl
          · exact hdouble rfl
        exact .unexpected hmark (Bool.eq_false_iff.2 hnumeral) hstart cs

/-- A text starts with one thing only. -/
theorem Starts.ofText_eq {cut : Cut} (h : Starts cs cut) : ofText cs = cut := by
  cases h with
  | nothing | leftParen | rightParen | quote | string => rfl
  | number h =>
    match cs with
    | c :: cs =>
      rw [ofText, if_pos h]
      all_goals
        rintro rfl
        cases h
  | symbol hnumeral hstart =>
    rw [ofText, if_neg hnumeral, if_pos hstart]
    all_goals
      rintro rfl
      cases hstart
  | unexpected hmark hdigit hstart cs =>
    rw [ofText, startsNumeral_of_ne (ne_minus_of_not_start hstart), hdigit, hstart]
    · rfl
    all_goals
      rintro rfl
      simp at hmark

/-- A string has an end if there is a double quote after the one that opens it. -/
theorem ofString_outcome (cs : List Char) :
    (ofString cs).outcome = if '"' ∈ cs
      then .ok (.string (String.ofList (cs.takeWhile (· != '"'))))
      else .error .unterminatedString := by
  have hdrop : cs.dropWhile (· != '"') = [] ↔ '"' ∉ cs := by
    rw [List.dropWhile_eq_nil_iff]
    constructor
    · intro hall hmem
      exact absurd (hall '"' hmem) (by simp)
    · intro hnot c hc
      simpa using fun heq : c = '"' => hnot (heq ▸ hc)
  unfold ofString
  split
  · next hrest => rw [if_neg (hdrop.1 hrest)]
  · next hrest => rw [if_pos (Decidable.not_not.1 fun hnot => by simp [hdrop.2 hnot] at hrest)]

theorem eq_nil_of_endOfInput (h : (ofText cs).outcome = .ok .endOfInput) : cs = [] := by
  have hstarts := starts_ofText cs
  generalize ofText cs = cut at h hstarts
  cases hstarts with
  | nothing => rfl
  | string cs =>
    rw [ofString_outcome] at h
    split at h <;> cases h
  | _ => cases h

end ScopedLisp.Cut
