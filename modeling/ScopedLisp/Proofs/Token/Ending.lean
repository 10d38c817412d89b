import ScopedLisp.Proofs.Position.Counting
import ScopedLisp.Proofs.Token.Cursor
import ScopedLisp.Proofs.Token.Lossless

namespace ScopedLisp

/-- What is behind the last token of a text. -/
inductive Ending
  | complete
  | stuck (c : Char) (p : Position)
  | openString (p : Position)

namespace Ending

/-- What so many calls give behind the last token of a text that ends at `finish`. -/
def outcomes (finish : Position) : Ending → Nat → List (Except ScanError (Placed Token))
  | complete, count => .replicate count (.ok ⟨.endOfInput, finish⟩)
  | stuck c p, count => .replicate count (.error ⟨.unexpectedCharacter c, p⟩)
  | openString _, 0 => []
  | openString p, count + 1 =>
    .error ⟨.unterminatedString, p⟩ :: .replicate count (.ok ⟨.endOfInput, finish⟩)

/-- What comes of cutting all of a text into tokens. -/
def result (finish : Position) (ts : List (Placed Token)) :
    Ending → Except ScanError (List (Placed Token))
  | complete => .ok (ts ++ [⟨.endOfInput, finish⟩])
  | stuck c p => .error ⟨.unexpectedCharacter c, p⟩
  | openString p => .error ⟨.unterminatedString, p⟩

variable {finish : Position} {ending ending' : Ending}

@[simp] theorem outcomes_zero : ending.outcomes finish 0 = [] := by
  cases ending <;> rfl

theorem outcomes_one_inj (h : ending.outcomes finish 1 = ending'.outcomes finish 1) :
    ending = ending' := by
  cases ending <;> cases ending' <;> simp_all [outcomes]

theorem outcomes_one_ne {t : Placed Token} (ht : t.item ≠ .endOfInput) :
    ending.outcomes finish 1 ≠ [.ok t] := by
  intro h
  cases ending with
  | complete =>
    have ht' : ⟨.endOfInput, finish⟩ = t := by simpa [outcomes] using h
    exact ht (congrArg Placed.item ht').symm
  | stuck => simp [outcomes] at h
  | openString => simp [outcomes] at h

theorem result_cons (t : Placed Token) (ts : List (Placed Token)) :
    ending.result finish (t :: ts) = (t :: ·) <$> ending.result finish ts := by
  cases ending <;> rfl

end Ending

namespace Cut

variable {cs : List Char}

/-- Nothing is taken away in front of a character that starts no token. -/
theorem ofText_of_unexpected {c : Char}
    (h : (ofText cs).outcome = .error (.unexpectedCharacter c)) :
    ofText cs = ⟨.error (.unexpectedCharacter c), [], cs⟩ := by
  have hstarts := starts_ofText cs
  generalize ofText cs = cut at h hstarts ⊢
  cases hstarts with
  | unexpected =>
    cases h
    rfl
  | string cs =>
    rw [ofString_outcome] at h
    split at h <;> cases h
  | _ => cases h

/-- A string without its end takes up all of the text. -/
theorem ofText_of_unterminated (h : (ofText cs).outcome = .error .unterminatedString) :
    ofText cs = ⟨.error .unterminatedString, cs, []⟩ := by
  have hstarts := starts_ofText cs
  generalize ofText cs = cut at h hstarts ⊢
  cases hstarts with
  | string cs =>
    by_cases hmem : '"' ∈ cs
    · rw [ofString_outcome, if_pos hmem] at h
      cases h
    · exact ofString_of_open hmem
  | _ => cases h

end Cut

namespace Scanner

variable {s s' : Scanner} {t : Placed Token} {ts ts' : List (Placed Token)}
  {ending ending' : Ending}

/-- Calls of the scanner give these tokens and then, for ever, what the ending says. -/
def GoesThrough (s : Scanner) (ts : List (Placed Token)) (ending : Ending) : Prop :=
  (∀ t ∈ ts, t.item ≠ .endOfInput) ∧ ∀ count, s.outcomes count =
    (ts.map .ok).take count ++ ending.outcomes s.finish (count - ts.length)

theorem outcomes_of_next_self {outcome : Except ScanError (Placed Token)}
    (h : s.next = (outcome, s)) (count : Nat) : s.outcomes count = .replicate count outcome := by
  induction count with
  | zero => rfl
  | succ count ih => rw [outcomes, h, ih, List.replicate_succ]

theorem next_end (p : Position) : next ⟨[], p⟩ = (.ok ⟨.endOfInput, p⟩, ⟨[], p⟩) := rfl

theorem goesThrough_nil_iff :
    s.GoesThrough [] ending ↔ ∀ count, s.outcomes count = ending.outcomes s.finish count := by
  simp [GoesThrough]

theorem goesThrough_cons_iff (ht : t.item ≠ .endOfInput) : s.GoesThrough (t :: ts) ending ↔
    ∃ s', s.next = (.ok t, s') ∧ s'.GoesThrough ts ending := by
  constructor
  · intro h
    obtain ⟨hproper, houtcomes⟩ := h
    have hfirst := houtcomes 1
    have hnext : s.next.1 = .ok t := by simpa [outcomes] using hfirst
    have hfinish := finish_next (Prod.ext hnext rfl : s.next = (.ok t, s.next.2))
    refine ⟨s.next.2, Prod.ext hnext rfl, fun u hu => hproper u (.tail _ hu), fun count => ?_⟩
    have hmore := houtcomes (count + 1)
    rw [hfinish]
    simpa [outcomes, hnext] using hmore
  · intro h
    obtain ⟨s', hnext, hproper, houtcomes⟩ := h
    refine ⟨List.forall_mem_cons.2 ⟨ht, hproper⟩, fun count => ?_⟩
    cases count with
    | zero => simp [outcomes]
    | succ count =>
      have hmore := houtcomes count
      rw [finish_next hnext] at hmore
      rw [outcomes, hnext]
      simpa using hmore

/-- Calls can go on in one way only. -/
theorem GoesThrough.unique (h : s.GoesThrough ts ending) (h' : s.GoesThrough ts' ending') :
    ts' = ts ∧ ending' = ending := by
  have hshort {s : Scanner} {t ts ending ending'} (h : s.GoesThrough [] ending)
      (h' : s.GoesThrough (t :: ts) ending') : False := by
    have ht := h'.1 t (.head _)
    obtain ⟨s', hnext, -⟩ := (goesThrough_cons_iff ht).1 h'
    have hfirst := goesThrough_nil_iff.1 h 1
    rw [outcomes, hnext] at hfirst
    exact Ending.outcomes_one_ne ht hfirst.symm
  induction ts generalizing s ts' with
  | nil =>
    cases ts' with
    | nil =>
      have hone := goesThrough_nil_iff.1 h 1
      rw [goesThrough_nil_iff.1 h' 1] at hone
      exact ⟨rfl, Ending.outcomes_one_inj hone⟩
    | cons => exact (hshort h h').elim
  | cons t ts ih =>
    cases ts' with
    | nil => exact (hshort h' h).elim
    | cons t' ts' =>
      obtain ⟨s₁, hnext, hmore⟩ := (goesThrough_cons_iff (h.1 t (.head _))).1 h
      obtain ⟨s₂, hnext', hmore'⟩ := (goesThrough_cons_iff (h'.1 t' (.head _))).1 h'
      cases hnext.symm.trans hnext'
      obtain ⟨rfl, rfl⟩ := ih hmore hmore'
      exact ⟨rfl, rfl⟩

/-- In front of a character that starts no token a scanner stays. -/
theorem next_of_unexpected {c : Char} {p : Position}
    (h : s.next = (.error ⟨.unexpectedCharacter c, p⟩, s')) :
    s'.next = (.error ⟨.unexpectedCharacter c, p⟩, s') := by
  obtain ⟨houtcome, -⟩ := next_eq_error_iff.1 (congrArg Prod.fst h)
  have hs' : s' = s.skipBlanks := by
    have hsecond : s.next.2 = s' := congrArg Prod.snd h
    rw [← hsecond, next, Cut.ofText_of_unexpected houtcome]
    rfl
  have hskip := skipBlanks_eq_self s.isBlank_of_skipBlanks
  have hsame : s.skipBlanks.next = s.next := by rw [next, hskip, next]
  rw [hs', hsame, h, hs']

/-- A string without its end leaves nothing behind. -/
theorem next_of_unterminated {p : Position}
    (h : s.next = (.error ⟨.unterminatedString, p⟩, s')) : s' = ⟨[], s.finish⟩ := by
  obtain ⟨houtcome, -⟩ := next_eq_error_iff.1 (congrArg Prod.fst h)
  have hrest : s'.rest = [] := by
    have hsecond : s.next.2 = s' := congrArg Prod.snd h
    rw [← hsecond, next, Cut.ofText_of_unterminated houtcome]
  have hfinish := finish_next h
  obtain ⟨rest, place⟩ := s'
  subst hrest
  rw [← hfinish]
  rfl

theorem goesThrough_complete (h : Blanks s.rest) : s.GoesThrough [] .complete := by
  refine goesThrough_nil_iff.2 fun count => ?_
  cases count with
  | zero => rfl
  | succ count =>
    rw [outcomes, next_of_blanks h, outcomes_of_next_self (next_end _), Ending.outcomes,
      List.replicate_succ]

theorem goesThrough_stuck {c : Char} {p : Position}
    (h : s.next = (.error ⟨.unexpectedCharacter c, p⟩, s')) : s.GoesThrough [] (.stuck c p) := by
  refine goesThrough_nil_iff.2 fun count => ?_
  cases count with
  | zero => rfl
  | succ count =>
    rw [outcomes, h, outcomes_of_next_self (next_of_unexpected h), Ending.outcomes,
      List.replicate_succ]

theorem goesThrough_openString {p : Position}
    (h : s.next = (.error ⟨.unterminatedString, p⟩, s')) : s.GoesThrough [] (.openString p) := by
  refine goesThrough_nil_iff.2 fun count => ?_
  cases count with
  | zero => rfl
  | succ count =>
    rw [outcomes, h, next_of_unterminated h, outcomes_of_next_self (next_end _), Ending.outcomes]

/-- Behind the last token of a text calls go on in one of three ways. -/
theorem exists_goesThrough (s : Scanner) : ∃ ts ending, s.GoesThrough ts ending ∧
    ts.length ≤ s.rest.length ∧ s.tokens = ending.result s.finish ts := by
  -- On the length of the text, of which each token takes something away.
  induction hlength : s.rest.length using Nat.strongRecOn generalizing s with
  | _ n ih =>
    cases hnext : s.next with
    | mk outcome s' =>
      cases outcome with
      | error e =>
        have htokens := tokens_of_next_error hnext
        obtain ⟨fault, p⟩ := e
        cases fault with
        | unexpectedCharacter c =>
          exact ⟨[], .stuck c p, goesThrough_stuck hnext, Nat.zero_le n, htokens⟩
        | unterminatedString =>
          exact ⟨[], .openString p, goesThrough_openString hnext, Nat.zero_le n, htokens⟩
      | ok t =>
        by_cases ht : t.item = .endOfInput
        · have hblanks : Blanks s.rest :=
            List.dropWhile_eq_nil_iff.1 (rest_of_next_end hnext ht).1
          have htokens := tokens_of_next_end (next_of_blanks hblanks) rfl
          exact ⟨[], .complete, goesThrough_complete hblanks, Nat.zero_le n, htokens⟩
        · have hlt := next_length_lt hnext ht
          obtain ⟨ts, ending, hmore, hshort, htokens⟩ := ih _ (hlength ▸ hlt) s' rfl
          refine ⟨t :: ts, ending, (goesThrough_cons_iff ht).2 ⟨s', hnext, hmore⟩, ?_, ?_⟩
          · rw [List.length_cons]
            omega
          · rw [tokens_of_next hnext ht, htokens, finish_next hnext, Ending.result_cons]

end Scanner

/-- A scanner is safe: the same calls made by index read inside the text, never move back, and move
on with every token. And it settles: it goes through finitely many tokens, no more than there are
characters, and then in one way only comes to the end of the text for ever, or stays in front of one
character, or fails once more for a string without its end and then comes to the end for ever. -/
theorem scanner_is_safe_and_settles (source : String) :
    (∀ count, ∃ c, (Cursor.ofString source).calls count =
      some ((Scanner.ofString source).outcomes count, c) ∧ c.text = source.toList ∧ c.IsSafe) ∧
    ∃ ts ending, (Scanner.ofString source).GoesThrough ts ending ∧ ts.length ≤ source.length ∧
      (∀ ts' ending', (Scanner.ofString source).GoesThrough ts' ending' →
        ts' = ts ∧ ending' = ending) ∧
      (Scanner.ofString source).tokens = ending.result (.behind source.toList) ts := by
  have hcursor : Cursor.ofString source = .behind [] (.ofString source) := rfl
  have hfinish : (Scanner.ofString source).finish = .behind source.toList :=
    Position.after_start source.toList
  constructor
  · intro count
    obtain ⟨front, s, htext, hcalls⟩ := Cursor.calls_behind [] (.ofString source) count
    exact ⟨.behind front s, hcursor ▸ hcalls, htext, Cursor.isSafe_behind front s⟩
  · obtain ⟨ts, ending, hgoes, hlength, htokens⟩ :=
      Scanner.exists_goesThrough (.ofString source)
    rw [hfinish] at htokens
    have hlength : ts.length ≤ source.toList.length := hlength
    rw [String.length_toList] at hlength
    exact ⟨ts, ending, hgoes, hlength, fun ts' ending' hgoes' => hgoes.unique hgoes', htokens⟩

/-- A text with NUL in it, where every loop stops, and a text that ends inside a string. -/
theorem calls_settle_at_nul_and_in_string :
    (Scanner.ofString "a\x00b").GoesThrough [⟨.symbol "a", ⟨1, 1⟩⟩] (.stuck '\x00' ⟨1, 2⟩) ∧
      (Scanner.ofString "a\x00b").tokens = .error ⟨.unexpectedCharacter '\x00', ⟨1, 2⟩⟩ ∧
    (Scanner.ofString "a \"b").GoesThrough [⟨.symbol "a", ⟨1, 1⟩⟩] (.openString ⟨1, 3⟩) ∧
      (Scanner.ofString "a \"b").tokens = .error ⟨.unterminatedString, ⟨1, 3⟩⟩ := by
  have hstuck : Scanner.GoesThrough ⟨['\x00', 'b'], ⟨1, 2⟩⟩ [] (.stuck '\x00' ⟨1, 2⟩) :=
    Scanner.goesThrough_stuck rfl
  have hopen : Scanner.GoesThrough ⟨[' ', '"', 'b'], ⟨1, 2⟩⟩ [] (.openString ⟨1, 3⟩) :=
    Scanner.goesThrough_openString rfl
  have hnul := (Scanner.goesThrough_cons_iff (s := .ofString "a\x00b") (t := ⟨.symbol "a", ⟨1, 1⟩⟩)
    nofun).2 ⟨_, rfl, hstuck⟩
  have hstring := (Scanner.goesThrough_cons_iff (s := .ofString "a \"b")
    (t := ⟨.symbol "a", ⟨1, 1⟩⟩) nofun).2 ⟨_, rfl, hopen⟩
  obtain ⟨-, ts, ending, -, -, hunique, htokens⟩ := scanner_is_safe_and_settles "a\x00b"
  obtain ⟨rfl, rfl⟩ := hunique _ _ hnul
  obtain ⟨-, ts', ending', -, -, hunique', htokens'⟩ := scanner_is_safe_and_settles "a \"b"
  obtain ⟨rfl, rfl⟩ := hunique' _ _ hstring
  exact ⟨hnul, htokens, hstring, htokens'⟩

end ScopedLisp
