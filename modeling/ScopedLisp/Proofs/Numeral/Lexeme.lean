import Mathlib.Data.List.TakeWhile
import ScopedLisp.Numeral
import ScopedLisp.Token.Cut

namespace ScopedLisp

namespace Cut

/-- A fraction starts with the point, so that the digits in front of it end there. -/
theorem takeWhile_digits_append_fraction (cs rest : List Char) :
    (cs.takeWhile Char.isDigit ++ (spanFraction rest).1).takeWhile Char.isDigit =
      cs.takeWhile Char.isDigit := by
  have hdigits : ∀ c ∈ cs.takeWhile Char.isDigit, c.isDigit := fun c hc =>
    List.mem_takeWhile_imp hc
  rw [List.takeWhile_append_of_pos hdigits]
  unfold spanFraction
  split <;> simp

theorem dropWhile_digits_append_fraction (cs rest : List Char) :
    (cs.takeWhile Char.isDigit ++ (spanFraction rest).1).dropWhile Char.isDigit =
      (spanFraction rest).1 := by
  have hdigits : ∀ c ∈ cs.takeWhile Char.isDigit, c.isDigit := fun c hc =>
    List.mem_takeWhile_imp hc
  rw [List.dropWhile_append_of_pos hdigits]
  unfold spanFraction
  split <;> simp

theorem fractionPart_spanFraction (cs : List Char) :
    (Numeral.fractionPart (spanFraction cs).1).2 = [] := by
  unfold spanFraction
  split
  · next cs =>
    have hdigits : ∀ c ∈ cs.takeWhile Char.isDigit, c.isDigit := fun c hc =>
      List.mem_takeWhile_imp hc
    have hdrop : (cs.takeWhile Char.isDigit ++ []).dropWhile Char.isDigit = [].dropWhile _ :=
      List.dropWhile_append_of_pos hdigits
    simpa [Numeral.fractionPart] using hdrop
  · rfl

theorem unsigned?_spanUnsigned_isSome (negative : Bool) {cs : List Char}
    (h : (cs.takeWhile Char.isDigit).isEmpty = false) :
    (Numeral.unsigned? negative (spanUnsigned cs).1).isSome := by
  simp only [Numeral.unsigned?, spanUnsigned, takeWhile_digits_append_fraction, h,
    dropWhile_digits_append_fraction, fractionPart_spanFraction]
  rfl

/-- Every lexeme of a number is a numeral. -/
theorem ofChars?_spanNumeral_isSome {cs : List Char} (h : startsNumeral cs) :
    (Numeral.ofChars? (spanNumeral cs).1).isSome := by
  cases cs with
  | nil => simp [startsNumeral] at h
  | cons c cs =>
    by_cases hminus : c = '-'
    · subst hminus
      cases cs with
      | nil => simp [startsNumeral] at h
      | cons c cs =>
        have hc : c.isDigit := h
        exact unsigned?_spanUnsigned_isSome true (by simp [hc])
    · have hspan : spanNumeral (c :: cs) = spanUnsigned (c :: cs) := by
        unfold spanNumeral
        split
        · next heq => exact absurd (List.cons.inj heq).1 hminus
        · rfl
      have hc : c.isDigit := by
        unfold startsNumeral at h
        split at h
        · next heq => exact absurd (List.cons.inj heq).1 hminus
        · next heq => exact (List.cons.inj heq).1 ▸ h
        · cases h
      have hdigit : ((c :: cs).takeWhile Char.isDigit).isEmpty = false := by simp [hc]
      have hchars : Numeral.ofChars? (spanUnsigned (c :: cs)).1 =
          Numeral.unsigned? false (spanUnsigned (c :: cs)).1 := by
        simp only [spanUnsigned, List.takeWhile_cons, hc, if_true, List.cons_append]
        unfold Numeral.ofChars?
        split
        · next heq => exact absurd (List.cons.inj heq).1 hminus
        · rfl
      rw [hspan, hchars]
      exact unsigned?_spanUnsigned_isSome false hdigit

end Cut

end ScopedLisp
