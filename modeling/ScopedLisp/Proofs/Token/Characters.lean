import ScopedLisp.Proofs.Token.Writing

namespace ScopedLisp

/-- Behind the text no string is open. A string has no escapes: each double quote opens one or ends
one. -/
def OutsideStrings (cs : List Char) : Prop := cs.count '"' % 2 = 0

section OutsideStrings

variable {cs ds : List Char}

theorem OutsideStrings.append (hcs : OutsideStrings cs) (hds : OutsideStrings ds) :
    OutsideStrings (cs ++ ds) := by
  unfold OutsideStrings at hcs hds ⊢
  rw [List.count_append]
  omega

theorem outsideStrings_of_not_mem (h : '"' ∉ cs) : OutsideStrings cs := by
  rw [OutsideStrings, List.count_eq_zero.2 h]

theorem Blanks.outsideStrings (h : Blanks cs) : OutsideStrings cs := by
  refine outsideStrings_of_not_mem fun hmem => ?_
  have hblank := h _ hmem
  cases hblank

theorem IsUnsigned.doubleQuote_not_mem (h : IsUnsigned cs) : '"' ∉ cs := by
  cases h with
  | whole _ hds => exact fun hmem => absurd (hds _ hmem) (by decide)
  | point _ hds hes =>
    intro hmem
    rcases List.mem_append.1 hmem with hmem | hmem
    · exact absurd (hds _ hmem) (by decide)
    · rcases List.mem_cons.1 hmem with hpoint | hmem
      · cases hpoint
      · exact absurd (hes _ hmem) (by decide)

theorem IsNumberText.doubleQuote_not_mem (h : IsNumberText cs) : '"' ∉ cs := by
  cases h with
  | positive h => exact h.doubleQuote_not_mem
  | negative h => simp [h.doubleQuote_not_mem]

theorem IsSymbolText.doubleQuote_not_mem (h : IsSymbolText cs) : '"' ∉ cs := by
  cases h with
  | intro hc hds =>
    intro hmem
    rcases List.mem_cons.1 hmem with heq | hmem
    · subst heq
      cases hc
    · exact absurd (hds _ hmem) (by decide)

/-- A token ends each string that it opens. -/
theorem Token.IsProper.outsideStrings {t : Token} (h : t.IsProper) :
    OutsideStrings t.source := by
  cases t with
  | leftParen | rightParen | quote => exact outsideStrings_of_not_mem (by decide)
  | number lexeme => exact outsideStrings_of_not_mem (IsNumberText.doubleQuote_not_mem h)
  | symbol name => exact outsideStrings_of_not_mem h.1.doubleQuote_not_mem
  | string content =>
    have hnone : content.toList.count '"' = 0 := List.count_eq_zero.2 h
    simp [OutsideStrings, Token.source, hnone]
  | endOfInput => exact h.elim

end OutsideStrings

/-- Some token is written with this character at its front. -/
def StartsToken (c : Char) : Prop := ∃ t : Token, t.IsProper ∧ ∃ cs, t.source = c :: cs

theorem startsToken_of_mem_marks {c : Char} (h : c ∈ ['(', ')', '\'', '"']) : StartsToken c := by
  simp only [List.mem_cons, List.not_mem_nil, or_false] at h
  rcases h with rfl | rfl | rfl | rfl
  · exact ⟨.leftParen, trivial, [], rfl⟩
  · exact ⟨.rightParen, trivial, [], rfl⟩
  · exact ⟨.quote, trivial, [], rfl⟩
  · exact ⟨.string "", by simp [Token.IsProper], ['"'], rfl⟩

theorem startsToken_of_isDigit {c : Char} (h : c.isDigit) : StartsToken c := by
  have hnumber : IsNumberText [c] :=
    .positive (.whole (List.cons_ne_nil c []) (List.forall_mem_singleton.2 h))
  have htext : (String.ofList [c]).toList = [c] := String.toList_ofList
  exact ⟨.number (.ofList [c]), by rwa [Token.IsProper, htext], [], htext⟩

theorem startsToken_of_isSymbolStart {c : Char} (h : isSymbolStart c) : StartsToken c := by
  have hsymbol : IsSymbolText [c] := .intro h nofun
  have htext : (String.ofList [c]).toList = [c] := String.toList_ofList
  refine ⟨.symbol (.ofList [c]), ?_, [], htext⟩
  rw [Token.IsProper, htext]
  exact ⟨hsymbol, nofun⟩

/-- Tokens start with a mark, a digit, or what symbols start with. -/
theorem startsToken_iff {c : Char} :
    StartsToken c ↔ c ∈ ['(', ')', '\'', '"'] ∨ c.isDigit ∨ isSymbolStart c := by
  constructor
  · intro h
    obtain ⟨t, hproper, cs, hcs⟩ := h
    have hmark (d : Char) (hd : d ∈ ['(', ')', '\'', '"']) (ds : List Char)
        (heq : d :: ds = c :: cs) : c ∈ ['(', ')', '\'', '"'] := by
      cases heq
      exact hd
    cases t with
    | leftParen => exact .inl (hmark '(' (by simp) [] hcs)
    | rightParen => exact .inl (hmark ')' (by simp) [] hcs)
    | quote => exact .inl (hmark '\'' (by simp) [] hcs)
    | string content => exact .inl (hmark '"' (by simp) _ hcs)
    | number lexeme =>
      have hnumber : IsNumberText (c :: cs) := hcs ▸ hproper
      cases hnumber with
      | positive h =>
        obtain ⟨d, ds, heq, hd⟩ := h.exists_digit
        cases heq
        exact .inr (.inl hd)
      | negative h => exact .inr (.inr rfl)
    | symbol name =>
      have hsymbol : IsSymbolText (c :: cs) := hcs ▸ hproper.1
      cases hsymbol with
      | intro hc _ => exact .inr (.inr hc)
    | endOfInput => exact hproper.elim
  · intro h
    rcases h with hmark | hdigit | hstart
    · exact startsToken_of_mem_marks hmark
    · exact startsToken_of_isDigit hdigit
    · exact startsToken_of_isSymbolStart hstart

end ScopedLisp
