import ScopedLisp.Proofs.Token.Head
import ScopedLisp.Token.Scanner

namespace ScopedLisp

/-- Neither a number nor a symbol goes on with the first of the characters. -/
def Delimits (u : List Char) : Prop := ∀ c ∈ u.head?, isSymbolChar c = false ∧ c ≠ '.'

namespace Delimits

variable {u : List Char}

theorem not_symbolChar (h : Delimits u) : ∀ c ∈ u.head?, isSymbolChar c = false := fun c hc =>
  (h c hc).1

theorem not_digit (h : Delimits u) : ∀ c ∈ u.head?, c.isDigit = false := by
  intro c hc
  have hsymbol := h.not_symbolChar c hc
  simp only [isSymbolChar, Bool.or_eq_false_iff] at hsymbol
  exact hsymbol.1.2

end Delimits

/-- More characters could belong to the token. -/
def Token.MayGoOn : Token → Prop
  | number _ | symbol _ => True
  | _ => False

namespace Cut

variable {p : Char → Bool} {cs u : List Char}

theorem dropWhile_append_of_stops (h : cs.dropWhile p ≠ [] ∨ ∀ c ∈ u.head?, p c = false) :
    (cs ++ u).dropWhile p = cs.dropWhile p ++ u := by
  rw [List.dropWhile_append]
  split
  · next hempty =>
    have hnil := List.isEmpty_iff.1 hempty
    rw [hnil, List.nil_append]
    cases u with
    | nil => rfl
    | cons c u =>
      have hc := h.resolve_left (not_not_intro hnil) c rfl
      rw [List.dropWhile_cons, if_neg (by simp [hc])]
  · rfl

theorem takeWhile_append_of_stops (h : cs.dropWhile p ≠ [] ∨ ∀ c ∈ u.head?, p c = false) :
    (cs ++ u).takeWhile p = cs.takeWhile p := by
  have hsplit := List.takeWhile_append_dropWhile (p := p) (l := cs ++ u)
  rw [dropWhile_append_of_stops h, ← List.append_assoc] at hsplit
  have hfront := List.append_cancel_right hsplit
  have hcs := List.takeWhile_append_dropWhile (p := p) (l := cs)
  exact List.append_cancel_right (hfront.trans hcs.symm)

theorem head?_cons_ne {a c : Char} (h : c ≠ a) : ∀ d ∈ (c :: cs).head?, d ≠ a := by
  intro d hd
  cases hd
  exact h

theorem spanFraction_of_head?_ne (h : ∀ c ∈ cs.head?, c ≠ '.') : spanFraction cs = ([], cs) := by
  unfold spanFraction
  split
  · exact absurd rfl (h '.' rfl)
  · rfl

theorem spanFraction_append_of_stops (h : (spanFraction cs).2 ≠ [] ∨ Delimits u) :
    spanFraction (cs ++ u) = ((spanFraction cs).1, (spanFraction cs).2 ++ u) := by
  match cs with
  | [] =>
    exact spanFraction_of_head?_ne fun c hc => (h.resolve_left (by simp [spanFraction]) c hc).2
  | c :: cs =>
    by_cases hpoint : c = '.'
    · subst hpoint
      have hstops := h.imp_right Delimits.not_digit
      simp only [List.cons_append, spanFraction, takeWhile_append_of_stops hstops,
        dropWhile_append_of_stops hstops]
    · rw [List.cons_append, spanFraction_of_head?_ne (head?_cons_ne hpoint),
        spanFraction_of_head?_ne (head?_cons_ne hpoint)]
      rfl

theorem spanUnsigned_append_of_stops (h : (spanUnsigned cs).2 ≠ [] ∨ Delimits u) :
    spanUnsigned (cs ++ u) = ((spanUnsigned cs).1, (spanUnsigned cs).2 ++ u) := by
  have hwhole : cs.dropWhile Char.isDigit ≠ [] ∨ ∀ c ∈ u.head?, c.isDigit = false := by
    refine h.imp (fun hrest hnil => hrest ?_) Delimits.not_digit
    rw [spanUnsigned, hnil]
    rfl
  simp only [spanUnsigned, takeWhile_append_of_stops hwhole, dropWhile_append_of_stops hwhole]
  rw [spanFraction_append_of_stops h]

theorem spanNumeral_of_head?_ne (h : ∀ c ∈ cs.head?, c ≠ '-') :
    spanNumeral cs = spanUnsigned cs := by
  unfold spanNumeral
  split
  · exact absurd rfl (h '-' rfl)
  · rfl

theorem spanNumeral_append_of_stops (hcs : cs ≠ []) (h : (spanNumeral cs).2 ≠ [] ∨ Delimits u) :
    spanNumeral (cs ++ u) = ((spanNumeral cs).1, (spanNumeral cs).2 ++ u) := by
  obtain ⟨c, cs, rfl⟩ := List.exists_cons_of_ne_nil hcs
  by_cases hminus : c = '-'
  · subst hminus
    simp only [List.cons_append, spanNumeral, spanUnsigned_append_of_stops h]
  · rw [List.cons_append, spanNumeral_of_head?_ne (head?_cons_ne hminus)]
    rw [spanNumeral_of_head?_ne (head?_cons_ne hminus)] at h ⊢
    exact spanUnsigned_append_of_stops h

/-- Only a lone minus sign could begin a numeral with what comes after it. -/
theorem startsNumeral_append_of_stops {c : Char} (h : cs ≠ [] ∨ Delimits u) :
    startsNumeral (c :: cs ++ u) = startsNumeral (c :: cs) := by
  by_cases hminus : c = '-'
  · subst hminus
    match cs, u with
    | d :: cs, _ => rfl
    | [], [] => rfl
    | [], d :: u => exact (h.resolve_left (by simp)).not_digit d rfl
  · rw [List.cons_append, startsNumeral_of_ne hminus, startsNumeral_of_ne hminus]

theorem ofString_append_of_ok {t : Token} (h : (ofString cs).outcome = .ok t) :
    ofString (cs ++ u) = ⟨.ok t, (ofString cs).taken, (ofString cs).rest ++ u⟩ := by
  unfold ofString at h
  split at h
  · cases h
  · next close rest hrest =>
    cases h
    have hstops : cs.dropWhile (· != '"') ≠ [] ∨ ∀ c ∈ u.head?, (c != '"') = false :=
      .inl (by simp [hrest])
    simp only [ofString, takeWhile_append_of_stops hstops, dropWhile_append_of_stops hstops, hrest,
      List.cons_append]

/-- A token stays the same in a longer text, unless it could go on and does. -/
theorem ofText_append_of_ok {t : Token} (h : (ofText cs).outcome = .ok t) (ht : t ≠ .endOfInput)
    (hu : t.MayGoOn → (ofText cs).rest ≠ [] ∨ Delimits u) :
    ofText (cs ++ u) = ⟨.ok t, (ofText cs).taken, (ofText cs).rest ++ u⟩ := by
  have hshort := ofText_rest_length_lt h ht
  have hlonger {rest cs : List Char} {c : Char} (hlt : rest.length < (c :: cs).length)
      (hrest : rest ≠ []) : cs ≠ [] := by
    rintro rfl
    exact hrest (List.length_eq_zero_iff.1 (Nat.lt_one_iff.1 hlt))
  have hstarts := starts_ofText cs
  generalize ofText cs = cut at h hu hshort hstarts ⊢
  cases hstarts with
  | nothing =>
    cases h
    exact absurd rfl ht
  | leftParen | rightParen | quote =>
    cases h
    rfl
  | string cs => exact ofString_append_of_ok h
  | number hnumeral =>
    cases h
    have hstops := hu trivial
    obtain ⟨c, cs, rfl⟩ := List.exists_cons_of_ne_nil (l := cs) (by rintro rfl; cases hnumeral)
    have hnumeral' : startsNumeral (c :: cs ++ u) := by
      rwa [startsNumeral_append_of_stops (hstops.imp_left (hlonger hshort))]
    rw [(Starts.number hnumeral').ofText_eq,
      spanNumeral_append_of_stops (List.cons_ne_nil c cs) hstops]
  | symbol hnumeral hstart =>
    cases h
    have hstops := hu trivial
    rw [← startsNumeral_append_of_stops (hstops.imp_left (hlonger hshort))] at hnumeral
    have hsymbol := hstops.imp_right Delimits.not_symbolChar
    rw [List.cons_append] at hnumeral ⊢
    rw [(Starts.symbol hnumeral hstart).ofText_eq, takeWhile_append_of_stops hsymbol,
      dropWhile_append_of_stops hsymbol]
  | unexpected => cases h

/-- What can start no token cannot do so in a longer text. -/
theorem ofText_append_of_unexpected {c : Char}
    (h : (ofText cs).outcome = .error (.unexpectedCharacter c)) (u : List Char) :
    (ofText (cs ++ u)).outcome = .error (.unexpectedCharacter c) := by
  have hstarts := starts_ofText cs
  generalize ofText cs = cut at h hstarts
  cases hstarts with
  | string cs =>
    rw [ofString_outcome] at h
    split at h <;> cases h
  | unexpected hmark hdigit hstart cs =>
    cases h
    rw [List.cons_append, (Starts.unexpected hmark hdigit hstart (cs ++ u)).ofText_eq]
  | _ => cases h

theorem ne_doubleQuote_of_not_mem (h : '"' ∉ cs) : ∀ c ∈ cs, (c != '"') = true := by
  intro c hc
  simpa using fun heq : c = '"' => h (heq ▸ hc)

/-- The first double quote ends a string. -/
theorem ofString_of_not_mem (h : '"' ∉ cs) (u : List Char) :
    ofString (cs ++ '"' :: u) = ⟨.ok (.string (String.ofList cs)), '"' :: cs ++ ['"'], u⟩ := by
  have hall := ne_doubleQuote_of_not_mem h
  have htake : (cs ++ '"' :: u).takeWhile (· != '"') = cs := by
    rw [List.takeWhile_append_of_pos hall]
    simp
  have hdrop : (cs ++ '"' :: u).dropWhile (· != '"') = '"' :: u := by
    rw [List.dropWhile_append_of_pos hall]
    simp
  simp only [List.cons_append, ofString, htake, hdrop]

/-- A string without its end is ended by a double quote. -/
theorem ofText_append_of_unterminated (h : (ofText cs).outcome = .error .unterminatedString)
    (u : List Char) : ∃ content taken,
      ofText (cs ++ '"' :: u) = ⟨.ok (.string content), taken, u⟩ := by
  have hstarts := starts_ofText cs
  generalize ofText cs = cut at h hstarts
  cases hstarts with
  | string cs =>
    rw [ofString_outcome] at h
    split at h
    · cases h
    · next hnot => exact ⟨_, _, ofString_of_not_mem hnot u⟩
  | _ => cases h

end Cut

namespace Scanner

variable {s s' : Scanner} {u : List Char}

/-- The scanner with more text at the end. -/
def append (s : Scanner) (u : List Char) : Scanner := ⟨s.rest ++ u, s.position⟩

theorem next_eq_ok_iff {t : Placed Token} :
    s.next = (.ok t, s') ↔ ∃ taken, Cut.ofText s.skipBlanks.rest = ⟨.ok t.item, taken, s'.rest⟩ ∧
      t.position = s.skipBlanks.position ∧ s'.position = s.skipBlanks.position.after taken := by
  obtain ⟨item, position⟩ := t
  obtain ⟨rest, place⟩ := s'
  unfold next
  dsimp only
  generalize Cut.ofText s.skipBlanks.rest = cut
  obtain ⟨outcome, taken, left⟩ := cut
  cases outcome with
  | error fault => simp
  | ok token =>
    simp only [Prod.mk.injEq, Except.ok.injEq, Placed.mk.injEq, Scanner.mk.injEq, Cut.mk.injEq]
    constructor
    · rintro ⟨⟨rfl, rfl⟩, rfl, rfl⟩
      exact ⟨taken, ⟨rfl, rfl, rfl⟩, rfl, rfl⟩
    · rintro ⟨_, ⟨rfl, rfl, rfl⟩, rfl, rfl⟩
      exact ⟨⟨rfl, rfl⟩, rfl, rfl⟩

theorem skipBlanks_eq_self (h : ∀ c ∈ s.rest.head?, isBlank c = false) : s.skipBlanks = s := by
  obtain ⟨cs, p⟩ := s
  match cs with
  | [] => rfl
  | c :: cs =>
    have hc := h c rfl
    simp [skipBlanks, hc]

/-- Behind the blanks there is none. -/
theorem isBlank_of_skipBlanks (s : Scanner) : ∀ c ∈ s.skipBlanks.rest.head?, isBlank c = false := by
  intro c hc
  have hnot := List.head?_dropWhile_not isBlank s.rest
  have hc : (s.rest.dropWhile isBlank).head? = some c := hc
  simpa [hc] using hnot

/-- In front of a token that no blanks precede the scanner makes the cut of its text. -/
theorem next_of_ofText {t : Token} {taken rest : List Char}
    (hblank : ∀ c ∈ s.rest.head?, isBlank c = false)
    (h : Cut.ofText s.rest = ⟨.ok t, taken, rest⟩) :
    s.next = (.ok ⟨t, s.position⟩, ⟨rest, s.position.after taken⟩) := by
  rw [next_eq_ok_iff, skipBlanks_eq_self hblank]
  exact ⟨taken, h, rfl, rfl⟩

theorem next_eq_error_iff {e : ScanError} :
    s.next.1 = .error e ↔ (Cut.ofText s.skipBlanks.rest).outcome = .error e.item ∧
      e.position = s.skipBlanks.position := by
  obtain ⟨item, position⟩ := e
  unfold next
  dsimp only
  generalize Cut.ofText s.skipBlanks.rest = cut
  obtain ⟨outcome, taken, left⟩ := cut
  cases outcome with
  | error fault => simp [eq_comm]
  | ok token => simp

theorem skipBlanks_append_of_ne_nil (h : s.skipBlanks.rest ≠ []) (u : List Char) :
    (s.append u).skipBlanks = s.skipBlanks.append u := by
  simp only [skipBlanks, append, Cut.takeWhile_append_of_stops (.inl h),
    Cut.dropWhile_append_of_stops (.inl h)]

/-- A token stays the same in a longer text, unless it could go on and does. -/
theorem next_append_of_ok {t : Placed Token} (h : s.next = (.ok t, s'))
    (ht : t.item ≠ .endOfInput) (hu : t.item.MayGoOn → s'.rest ≠ [] ∨ Delimits u) :
    (s.append u).next = (.ok t, s'.append u) := by
  obtain ⟨taken, hcut, htplace, hplace⟩ := next_eq_ok_iff.1 h
  have hnil : s.skipBlanks.rest ≠ [] := by
    intro hnil
    rw [hnil] at hcut
    exact ht (Except.ok.inj (congrArg Cut.outcome hcut)).symm
  rw [next_eq_ok_iff, skipBlanks_append_of_ne_nil hnil]
  refine ⟨taken, ?_, htplace, hplace⟩
  have happend := Cut.ofText_append_of_ok (u := u) (congrArg Cut.outcome hcut) ht
  rw [hcut] at happend
  exact happend hu

/-- Nothing fails at the end of a text. -/
theorem skipBlanks_ne_nil_of_error {fault : ScanFault}
    (h : (Cut.ofText s.skipBlanks.rest).outcome = .error fault) : s.skipBlanks.rest ≠ [] := by
  intro hnil
  rw [hnil] at h
  cases h

theorem next_append_of_unexpected {c : Char} {p : Position}
    (h : s.next.1 = .error ⟨.unexpectedCharacter c, p⟩) (u : List Char) :
    (s.append u).next.1 = .error ⟨.unexpectedCharacter c, p⟩ := by
  obtain ⟨houtcome, hplace⟩ := next_eq_error_iff.1 h
  rw [next_eq_error_iff, skipBlanks_append_of_ne_nil (skipBlanks_ne_nil_of_error houtcome)]
  exact ⟨Cut.ofText_append_of_unexpected houtcome u, hplace⟩

theorem next_append_of_unterminated {p : Position}
    (h : s.next.1 = .error ⟨.unterminatedString, p⟩) (u : List Char) :
    ∃ content s', (s.append ('"' :: u)).next = (.ok ⟨.string content, p⟩, s') ∧ s'.rest = u := by
  obtain ⟨houtcome, hplace⟩ := next_eq_error_iff.1 h
  obtain ⟨content, taken, hcut⟩ := Cut.ofText_append_of_unterminated houtcome u
  refine ⟨content, ⟨u, s.skipBlanks.position.after taken⟩, ?_, rfl⟩
  rw [next_eq_ok_iff, skipBlanks_append_of_ne_nil (skipBlanks_ne_nil_of_error houtcome)]
  exact ⟨taken, hcut, hplace, rfl⟩

/-- At its end a scanner has nothing left. -/
theorem rest_of_next_end {t : Placed Token} (h : s.next = (.ok t, s'))
    (ht : t.item = .endOfInput) : s.skipBlanks.rest = [] ∧ s'.rest = [] := by
  obtain ⟨taken, hcut, -, -⟩ := next_eq_ok_iff.1 h
  have hnil := Cut.eq_nil_of_endOfInput (ht ▸ congrArg Cut.outcome hcut)
  rw [hnil] at hcut
  exact ⟨hnil, (congrArg Cut.rest hcut).symm⟩

/-- Blanks in front of a text only move its place. -/
theorem skipBlanks_blanks_append {a : List Char} (ha : ∀ c ∈ a, isBlank c) (u : List Char)
    (p : Position) : Scanner.skipBlanks ⟨a ++ u, p⟩ = Scanner.skipBlanks ⟨u, p.after a⟩ := by
  simp only [skipBlanks, List.takeWhile_append_of_pos ha, List.dropWhile_append_of_pos ha,
    Position.after_append]

theorem next_blanks_append {a : List Char} (ha : ∀ c ∈ a, isBlank c) (u : List Char)
    (p : Position) : Scanner.next ⟨a ++ u, p⟩ = Scanner.next ⟨u, p.after a⟩ := by
  unfold next
  rw [skipBlanks_blanks_append ha]

/-- Where the text ends, a longer one goes on with what was appended. -/
theorem next_append_of_end {t : Placed Token} (h : s.next = (.ok t, s'))
    (ht : t.item = .endOfInput) (u : List Char) : (s.append u).next = (s'.append u).next := by
  obtain ⟨hskip, hrest⟩ := rest_of_next_end h ht
  obtain ⟨taken, hcut, -, hplace⟩ := next_eq_ok_iff.1 h
  have htaken : taken = [] := by
    rw [hskip] at hcut
    exact (congrArg Cut.taken hcut).symm
  have hblank := List.dropWhile_eq_nil_iff.1 hskip
  have hplace' : s'.position = s.position.after s.rest := by
    rw [hplace, htaken, skipBlanks, List.takeWhile_eq_self_iff.2 hblank]
    rfl
  rw [append, next_blanks_append hblank, append, hrest, hplace']
  rfl

/-- The cursor has moved over the text `taken`, from the first scanner to the second. -/
def Passes (s : Scanner) (taken : List Char) (s' : Scanner) : Prop :=
  s.rest = taken ++ s'.rest ∧ s'.position = s.position.after taken

theorem passes_nil (s : Scanner) : s.Passes [] s := ⟨rfl, rfl⟩

theorem Passes.trans {s'' : Scanner} {taken more : List Char} (h : s.Passes taken s')
    (h' : s'.Passes more s'') : s.Passes (taken ++ more) s'' := by
  obtain ⟨hrest, hplace⟩ := h
  obtain ⟨hrest', hplace'⟩ := h'
  refine ⟨?_, ?_⟩
  · rw [hrest, hrest', List.append_assoc]
  · rw [hplace', hplace, Position.after_append]

/-- A call moves over the blanks and what is cut off behind them. -/
theorem passes_next (s : Scanner) :
    s.Passes (s.rest.takeWhile isBlank ++ (Cut.ofText s.skipBlanks.rest).taken) s.next.2 := by
  have hblanks : s.Passes (s.rest.takeWhile isBlank) s.skipBlanks :=
    ⟨List.takeWhile_append_dropWhile.symm, rfl⟩
  exact hblanks.trans ⟨(Cut.ofText_append s.skipBlanks.rest).symm, rfl⟩

/-- The place behind the text. -/
def finish (s : Scanner) : Position := s.position.after s.rest

theorem Passes.finish {taken : List Char} (h : s.Passes taken s') : s'.finish = s.finish := by
  rw [Scanner.finish, Scanner.finish, h.1, h.2, Position.after_append]

/-- Every call leaves the end of the text where it is. -/
theorem finish_next {outcome : Except ScanError (Placed Token)} (h : s.next = (outcome, s')) :
    s'.finish = s.finish := by
  have hpasses := s.passes_next
  rw [h] at hpasses
  exact hpasses.finish

end Scanner

end ScopedLisp
