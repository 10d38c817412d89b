import ScopedLisp.Proofs.Numeral.Lexeme
import ScopedLisp.Proofs.Token.Continuation

namespace ScopedLisp

section Codes

variable {c : Char}

theorem isAlpha_iff_toNat :
    c.isAlpha ↔ (65 ≤ c.toNat ∧ c.toNat ≤ 90) ∨ (97 ≤ c.toNat ∧ c.toNat ≤ 122) := by
  have hcode : c.toNat = c.val.toNat := rfl
  have halpha : c.isAlpha = (c.isUpper || c.isLower) := rfl
  have hupper : c.isUpper = decide (c.val ≥ 'A'.val ∧ c.val ≤ 'Z'.val) := rfl
  have hlower : c.isLower = (decide (c.val ≥ 'a'.val) && decide (c.val ≤ 'z'.val)) := rfl
  have hletters : 'A'.val.toNat = 65 ∧ 'Z'.val.toNat = 90 ∧ 'a'.val.toNat = 97 ∧
    'z'.val.toNat = 122 := by decide
  simp only [halpha, hupper, hlower, Bool.or_eq_true, Bool.and_eq_true, decide_eq_true_eq,
    ge_iff_le, UInt32.le_iff_toNat_le, hletters, hcode]

theorem isDigit_iff_toNat : c.isDigit ↔ 48 ≤ c.toNat ∧ c.toNat ≤ 57 := by
  have hcode : c.toNat = c.val.toNat := rfl
  have hdigits : '0'.val.toNat = 48 ∧ '9'.val.toNat = 57 := by decide
  simp only [Char.isDigit, Bool.and_eq_true, decide_eq_true_eq, ge_iff_le,
    UInt32.le_iff_toNat_le, hdigits, hcode]

end Codes

def Blanks (cs : List Char) : Prop := ∀ c ∈ cs, isBlank c

instance : DecidablePred Blanks := fun cs =>
  decidable_of_iff (cs.all isBlank = true) List.all_eq_true

theorem blanks_nil : Blanks [] := nofun

theorem Blanks.append {as bs : List Char} (ha : Blanks as) (hb : Blanks bs) :
    Blanks (as ++ bs) := fun c hc => (List.mem_append.1 hc).elim (ha c) (hb c)

theorem delimits_of_isBlank {c : Char} (h : isBlank c) (u : List Char) : Delimits (c :: u) := by
  rintro d ⟨⟩
  simp only [isBlank, Bool.or_eq_true, beq_iff_eq] at h
  rcases h with ((rfl | rfl) | rfl) | rfl <;> exact ⟨rfl, by decide⟩

theorem Blanks.delimits {cs u : List Char} (h : Blanks cs) (hu : Delimits u) :
    Delimits (cs ++ u) := by
  cases cs with
  | nil => exact hu
  | cons c cs => exact delimits_of_isBlank (h c (.head _)) _

/-- The text is that of the token and of nothing else. -/
def Token.IsOf (t : Token) (cs : List Char) : Prop :=
  Cut.ofText cs = ⟨.ok t, cs, []⟩ ∧ t ≠ .endOfInput

namespace Cut

/-- No token starts with a blank. -/
theorem isBlank_of_ofText {c : Char} {cs : List Char} {t : Token}
    (h : (ofText (c :: cs)).outcome = .ok t) : isBlank c = false := by
  refine Bool.eq_false_iff.2 fun hblank => ?_
  simp only [isBlank, Bool.or_eq_true, beq_iff_eq] at hblank
  rcases hblank with ((rfl | rfl) | rfl) | rfl <;> cases h

/-- A symbol decides by itself that it is no number. -/
theorem startsNumeral_of_takeWhile {c : Char} {cs : List Char}
    (h : startsNumeral (c :: cs.takeWhile isSymbolChar)) : startsNumeral (c :: cs) := by
  by_cases hminus : c = '-'
  · subst hminus
    match cs with
    | [] => exact h
    | d :: cs =>
      rw [List.takeWhile_cons] at h
      split at h
      · exact h
      · cases h
  · rw [startsNumeral_of_ne hminus] at h ⊢
    exact h

theorem isOf_of_symbol {cs : List Char} {name : String}
    (h : (ofText cs).outcome = .ok (.symbol name)) : (Token.symbol name).IsOf name.toList := by
  have hstarts := starts_ofText cs
  generalize ofText cs = cut at h hstarts
  cases hstarts with
  | string cs =>
    rw [ofString_outcome] at h
    split at h <;> cases h
  | @symbol c cs hnumeral hstart =>
    cases h
    have hnumeral' := mt startsNumeral_of_takeWhile hnumeral
    have hall : ∀ c ∈ cs.takeWhile isSymbolChar, isSymbolChar c := fun c hc =>
      List.mem_takeWhile_imp hc
    rw [String.toList_ofList]
    refine ⟨?_, nofun⟩
    rw [(Starts.symbol hnumeral' hstart).ofText_eq, List.takeWhile_eq_self_iff.2 hall,
      List.dropWhile_eq_nil_iff.2 hall]
  | _ => cases h

theorem not_mem_of_string {cs : List Char} {content : String}
    (h : (ofText cs).outcome = .ok (.string content)) : '"' ∉ content.toList := by
  have hstarts := starts_ofText cs
  generalize ofText cs = cut at h hstarts
  cases hstarts with
  | string cs =>
    rw [ofString_outcome] at h
    split at h
    · cases h
      rw [String.toList_ofList]
      intro hmem
      simpa using List.mem_takeWhile_imp hmem
    · cases h
  | _ => cases h

theorem isOf_string {content : String} (h : '"' ∉ content.toList) :
    (Token.string content).IsOf ('"' :: content.toList ++ ['"']) := by
  have hend := ofString_of_not_mem h []
  rw [String.ofList_toList] at hend
  exact ⟨hend, nofun⟩

theorem spanFraction_of_fractionPart {cs : List Char} (h : (Numeral.fractionPart cs).2 = []) :
    spanFraction cs = (cs, []) := by
  unfold Numeral.fractionPart at h
  unfold spanFraction
  split at h
  · next cs =>
    have hsplit := List.takeWhile_append_dropWhile (p := Char.isDigit) (l := cs)
    have hdrop : cs.dropWhile Char.isDigit = [] := h
    rw [hdrop, List.append_nil] at hsplit
    change ('.' :: cs.takeWhile Char.isDigit, cs.dropWhile Char.isDigit) = _
    rw [hsplit, hdrop]
  · have hnil : cs = [] := h
    rw [hnil]

theorem mem_of_mem_fractionPart {c : Char} {cs : List Char} (h : c ∈ (Numeral.fractionPart cs).2) :
    c ∈ cs := by
  unfold Numeral.fractionPart at h
  split at h
  · exact .tail _ ((List.dropWhile_sublist _).mem h)
  · exact h

theorem eq_nil_of_exponentPart? {cs : List Char} {e : Int} (h : Numeral.exponentPart? cs = some e)
    (hnone : 'e' ∉ cs) : cs = [] := by
  unfold Numeral.exponentPart? at h
  split at h
  · rfl
  · exact absurd (.head _) hnone
  · exact absurd (.head _) hnone
  · exact absurd (.head _) hnone
  · cases h

theorem exists_digit_of_unsigned? {negative : Bool} {cs : List Char} {n : Numeral}
    (h : Numeral.unsigned? negative cs = some n) : ∃ c cs', cs = c :: cs' ∧ c.isDigit := by
  unfold Numeral.unsigned? at h
  dsimp only at h
  split at h
  · cases h
  · next hdigits =>
    cases cs with
    | nil => exact absurd rfl hdigits
    | cons c cs =>
      refine ⟨c, cs, rfl, ?_⟩
      by_contra hc
      rw [List.takeWhile_cons, if_neg hc] at hdigits
      exact hdigits rfl

theorem startsNumeral_of_ofChars? {cs : List Char} {n : Numeral}
    (h : Numeral.ofChars? cs = some n) : startsNumeral cs := by
  unfold Numeral.ofChars? at h
  split at h
  · obtain ⟨c, cs, rfl, hc⟩ := exists_digit_of_unsigned? h
    exact hc
  · next hminus =>
    obtain ⟨c, cs, rfl, hc⟩ := exists_digit_of_unsigned? h
    have hne : c ≠ '-' := by
      rintro rfl
      exact hminus cs rfl
    rwa [startsNumeral_of_ne hne]

/-- A numeral without an exponent is all that the scanner takes for a number. -/
theorem spanUnsigned_of_unsigned? {negative : Bool} {cs : List Char} {n : Numeral}
    (h : Numeral.unsigned? negative cs = some n) (hnone : 'e' ∉ cs) :
    spanUnsigned cs = (cs, []) := by
  unfold Numeral.unsigned? at h
  dsimp only at h
  split at h
  · cases h
  · obtain ⟨e, hexponent, -⟩ := Option.map_eq_some_iff.1 h
    have hrest : (Numeral.fractionPart (cs.dropWhile Char.isDigit)).2 = [] :=
      eq_nil_of_exponentPart? hexponent fun hmem =>
        hnone ((List.dropWhile_sublist _).mem (mem_of_mem_fractionPart hmem))
    rw [spanUnsigned, spanFraction_of_fractionPart hrest, List.takeWhile_append_dropWhile]

theorem isOf_number {cs : List Char} {n : Numeral} (h : Numeral.ofChars? cs = some n)
    (hnone : 'e' ∉ cs) : (Token.number (String.ofList cs)).IsOf cs := by
  have hstarts := startsNumeral_of_ofChars? h
  have hspan : spanNumeral cs = (cs, []) := by
    unfold Numeral.ofChars? at h
    split at h
    · next cs => rw [spanNumeral, spanUnsigned_of_unsigned? h fun hmem => hnone (.tail _ hmem)]
    · next hminus =>
      obtain ⟨c, cs, rfl, -⟩ := exists_digit_of_unsigned? h
      have hne : c ≠ '-' := by
        rintro rfl
        exact hminus cs rfl
      rw [spanNumeral_of_head?_ne (head?_cons_ne hne), spanUnsigned_of_unsigned? h hnone]
  refine ⟨?_, Token.noConfusion⟩
  rw [(Starts.number hstarts).ofText_eq, hspan]

end Cut

namespace Scanner

variable {s : Scanner}

theorem isOf_of_next_symbol {s' : Scanner} {name : String} {p : Position}
    (h : s.next = (.ok ⟨.symbol name, p⟩, s')) : (Token.symbol name).IsOf name.toList :=
  Cut.isOf_of_symbol (next_outcome_ok (congrArg Prod.fst h))

/-- Between blanks and a delimiter the scanner finds the token that stands there. -/
theorem next_of_isOf {a cs u : List Char} {t : Token} (hs : s.rest = a ++ cs ++ u) (ha : Blanks a)
    (ht : t.IsOf cs) (hu : t.MayGoOn → Delimits u) :
    ∃ p s', s.next = (.ok ⟨t, p⟩, s') ∧ s'.rest = u := by
  obtain ⟨rest, place⟩ := s
  obtain ⟨hcut, hend⟩ := ht
  have happend := Cut.ofText_append_of_ok (u := u) (congrArg Cut.outcome hcut) hend
  rw [hcut] at happend
  have hcut' := happend fun hmay => .inr (hu hmay)
  have hblank : ∀ c ∈ (cs ++ u).head?, isBlank c = false := by
    cases cs with
    | nil =>
      have : Token.endOfInput = t := Except.ok.inj (congrArg Cut.outcome hcut)
      exact absurd this.symm hend
    | cons c cs =>
      rintro d ⟨⟩
      exact Cut.isBlank_of_ofText (congrArg Cut.outcome hcut)
  change rest = _ at hs
  rw [hs, List.append_assoc, next_blanks_append ha]
  exact ⟨_, _, next_of_ofText hblank hcut', rfl⟩

/-- Where only blanks are left, the scanner comes to the end. -/
theorem next_of_blanks (h : Blanks s.rest) :
    s.next = (.ok ⟨.endOfInput, s.finish⟩, ⟨[], s.finish⟩) := by
  have hskip : s.skipBlanks = ⟨[], s.finish⟩ := by
    rw [skipBlanks, List.dropWhile_eq_nil_iff.2 h, List.takeWhile_eq_self_iff.2 h, finish]
  rw [next_eq_ok_iff, hskip]
  exact ⟨[], rfl, rfl, rfl⟩

end Scanner

end ScopedLisp
