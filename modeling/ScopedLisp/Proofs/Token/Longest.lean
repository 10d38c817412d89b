import ScopedLisp.Proofs.Token.Tokens
import ScopedLisp.Proofs.Token.Lexeme

namespace ScopedLisp

/-- Digits, and perhaps a point that more digits may follow. -/
inductive IsUnsigned : List Char → Prop
  | whole {ds : List Char} (hne : ds ≠ []) (hds : ∀ d ∈ ds, d.isDigit) : IsUnsigned ds
  | point {ds es : List Char} (hne : ds ≠ []) (hds : ∀ d ∈ ds, d.isDigit)
      (hes : ∀ e ∈ es, e.isDigit) : IsUnsigned (ds ++ '.' :: es)

/-- The pattern of numbers, which has no exponent part. -/
inductive IsNumberText : List Char → Prop
  | positive {cs : List Char} (h : IsUnsigned cs) : IsNumberText cs
  | negative {cs : List Char} (h : IsUnsigned cs) : IsNumberText ('-' :: cs)

/-- The pattern of symbols. -/
inductive IsSymbolText : List Char → Prop
  | intro {c : Char} {cs : List Char} (hc : isSymbolStart c) (hcs : ∀ d ∈ cs, isSymbolChar d) :
      IsSymbolText (c :: cs)

/-- Of all texts with the property this is the longest one that stands at the front of `cs`. -/
structure Longest (P : List Char → Prop) (cs taken : List Char) : Prop where
  holds : P taken
  inFront : taken <+: cs
  length_le : ∀ other, P other → other <+: cs → other.length ≤ taken.length

/-- Where the text `cs` starts, the token is as long as it can be: no longer number or symbol stands
there, no symbol where a number does, and a string ends with its first double quote. -/
def Token.FitsAt (cs : List Char) : Token → Prop
  | number lexeme => Longest IsNumberText cs lexeme.toList
  | symbol name => Longest IsSymbolText cs name.toList ∧
      ∀ other, IsNumberText other → ¬ other <+: cs
  | string content => '"' ∉ content.toList
  | _ => True

theorem IsUnsigned.exists_digit {cs : List Char} (h : IsUnsigned cs) :
    ∃ d ds, cs = d :: ds ∧ d.isDigit := by
  cases h with
  | whole hne hds | point hne hds =>
    obtain ⟨d, ds, rfl⟩ := List.exists_cons_of_ne_nil hne
    exact ⟨d, _, rfl, hds d (.head _)⟩

namespace Cut

variable {cs : List Char}

theorem isUnsigned_spanUnsigned (h : cs.takeWhile Char.isDigit ≠ []) :
    IsUnsigned (spanUnsigned cs).1 := by
  have hdigits : ∀ {cs : List Char}, ∀ c ∈ cs.takeWhile Char.isDigit, c.isDigit :=
    fun c hc => List.mem_takeWhile_imp hc
  unfold spanUnsigned spanFraction
  dsimp only
  split
  · exact .point h hdigits hdigits
  · rw [List.append_nil]
    exact .whole h hdigits

/-- No unsigned number in front of the text is longer than what is taken for one. -/
theorem isPrefix_spanUnsigned {other : List Char} (h : IsUnsigned other) (hcs : other <+: cs) :
    other <+: (spanUnsigned cs).1 := by
  obtain ⟨rest, rfl⟩ := hcs
  cases h with
  | whole _ hds =>
    have htake : (other ++ rest).takeWhile Char.isDigit = other ++ rest.takeWhile Char.isDigit :=
      List.takeWhile_append_of_pos hds
    simp only [spanUnsigned, htake, List.append_assoc]
    exact List.prefix_append _ _
  | @point ds es _ hds hes =>
    have htake : (ds ++ '.' :: es ++ rest).takeWhile Char.isDigit = ds := by
      rw [List.append_assoc, List.takeWhile_append_of_pos hds]
      simp
    have hdrop : (ds ++ '.' :: es ++ rest).dropWhile Char.isDigit = '.' :: (es ++ rest) := by
      rw [List.append_assoc, List.dropWhile_append_of_pos hds]
      simp
    simp only [spanUnsigned, htake, hdrop, spanFraction, List.takeWhile_append_of_pos hes]
    rw [List.prefix_append_right_inj, List.prefix_cons_inj]
    exact List.prefix_append _ _

theorem isNumberText_spanNumeral (h : startsNumeral cs) : IsNumberText (spanNumeral cs).1 := by
  match cs with
  | c :: cs =>
    by_cases hminus : c = '-'
    · subst hminus
      match cs with
      | d :: cs =>
        have hd : d.isDigit := h
        exact .negative (isUnsigned_spanUnsigned (by simp [hd]))
    · rw [startsNumeral_of_ne hminus] at h
      rw [spanNumeral_of_head?_ne (head?_cons_ne hminus)]
      exact .positive (isUnsigned_spanUnsigned (by simp [h]))

/-- Where a number stands, a numeral starts. -/
theorem startsNumeral_of_isNumberText {other : List Char} (h : IsNumberText other)
    (hcs : other <+: cs) : startsNumeral cs := by
  obtain ⟨rest, rfl⟩ := hcs
  cases h with
  | positive h =>
    obtain ⟨d, ds, rfl, hd⟩ := h.exists_digit
    have hminus : d ≠ '-' := by
      rintro rfl
      cases hd
    rwa [List.cons_append, startsNumeral_of_ne hminus]
  | negative h =>
    obtain ⟨d, ds, rfl, hd⟩ := h.exists_digit
    exact hd

theorem isPrefix_spanNumeral {other : List Char} (h : IsNumberText other) (hcs : other <+: cs) :
    other <+: (spanNumeral cs).1 := by
  cases h with
  | positive h =>
    obtain ⟨d, ds, rfl, hd⟩ := h.exists_digit
    obtain ⟨rest, rfl⟩ := hcs
    have hminus : d ≠ '-' := by
      rintro rfl
      cases hd
    rw [List.cons_append, spanNumeral_of_head?_ne (head?_cons_ne hminus)]
    exact isPrefix_spanUnsigned h (List.prefix_append _ _)
  | negative h =>
    obtain ⟨rest, rfl⟩ := hcs
    rw [List.cons_append, spanNumeral, List.prefix_cons_inj]
    exact isPrefix_spanUnsigned h (List.prefix_append _ _)

theorem longest_spanNumeral (h : startsNumeral cs) :
    Longest IsNumberText cs (spanNumeral cs).1 where
  holds := isNumberText_spanNumeral h
  inFront := ⟨_, spanNumeral_append cs⟩
  length_le _ hother hcs := (isPrefix_spanNumeral hother hcs).length_le

theorem longest_symbol {c : Char} (h : isSymbolStart c) :
    Longest IsSymbolText (c :: cs) (c :: cs.takeWhile isSymbolChar) where
  holds := .intro h fun d hd => List.mem_takeWhile_imp hd
  inFront := ⟨cs.dropWhile isSymbolChar, by simp⟩
  length_le _ hother hcs := by
    obtain ⟨rest, hrest⟩ := hcs
    cases hother with
    | @intro d ds hd hds =>
      obtain ⟨rfl, rfl⟩ : d = c ∧ ds ++ rest = cs := by simpa using hrest
      rw [List.takeWhile_append_of_pos hds]
      simp

/-- A cut takes up the text of its token, at its full length. -/
theorem taken_of_ofText {t : Token} (h : (ofText cs).outcome = .ok t) :
    (ofText cs).taken = t.source ∧ t.FitsAt cs := by
  have hstarts := starts_ofText cs
  generalize ofText cs = cut at h hstarts
  cases hstarts with
  | nothing | leftParen | rightParen | quote =>
    cases h
    exact ⟨rfl, trivial⟩
  | string cs =>
    by_cases hmem : '"' ∈ cs
    · obtain ⟨content, rest, rfl, hnot⟩ := List.eq_append_cons_of_mem hmem
      rw [ofString_of_not_mem hnot] at h ⊢
      cases h
      simp [Token.source, Token.FitsAt, hnot]
    · rw [ofString_outcome, if_neg hmem] at h
      cases h
  | number hnumeral =>
    cases h
    simpa [Token.source, Token.lexeme, Token.FitsAt] using longest_spanNumeral hnumeral
  | @symbol c cs hnumeral hstart =>
    cases h
    have hlongest : Longest IsSymbolText (c :: cs) (c :: cs.takeWhile isSymbolChar) :=
      longest_symbol hstart
    have hnone : ∀ other, IsNumberText other → ¬ other <+: c :: cs := fun other hother hcs =>
      hnumeral (startsNumeral_of_isNumberText hother hcs)
    simpa [Token.source, Token.lexeme, Token.FitsAt] using ⟨hlongest, hnone⟩
  | unexpected => cases h

end Cut

end ScopedLisp
