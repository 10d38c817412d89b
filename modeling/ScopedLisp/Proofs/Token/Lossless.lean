import ScopedLisp.Proofs.Position.Counting
import ScopedLisp.Proofs.Token.Longest

namespace ScopedLisp

/-- A token of a text with the blanks in front of it. -/
structure Piece where
  blanks : List Char
  token : Placed Token

def Piece.chars (x : Piece) : List Char := x.blanks ++ x.token.item.source

/-- Behind the text `front` there are these tokens, each at its full length and with blanks in front
of it, then blanks, and then the end. -/
def ConsistsOf (front text : List Char) (ts : List (Placed Token)) : Prop :=
  ∃ (pieces : List Piece) (last : List Char), Blanks last ∧
    text = pieces.flatMap Piece.chars ++ last ∧
    ts = pieces.map Piece.token ++ [⟨.endOfInput, .behind (front ++ text)⟩] ∧
    ∀ before x after, pieces = before ++ x :: after →
      Blanks x.blanks ∧ x.token.item ≠ .endOfInput ∧
      x.token.position = .behind (front ++ before.flatMap Piece.chars ++ x.blanks) ∧
      x.token.item.FitsAt (x.token.item.source ++ (after.flatMap Piece.chars ++ last))

theorem ConsistsOf.token {front blanks rest : List Char} {t : Token} {ts : List (Placed Token)}
    (hblanks : Blanks blanks) (ht : t ≠ .endOfInput) (hfits : t.FitsAt (t.source ++ rest))
    (h : ConsistsOf (front ++ blanks ++ t.source) rest ts) :
    ConsistsOf front (blanks ++ t.source ++ rest) (⟨t, .behind (front ++ blanks)⟩ :: ts) := by
  obtain ⟨pieces, last, hlast, htext, hts, hpieces⟩ := h
  refine ⟨⟨blanks, ⟨t, .behind (front ++ blanks)⟩⟩ :: pieces, last, hlast, ?_, ?_, ?_⟩
  · rw [htext]
    simp [Piece.chars]
  · rw [hts]
    simp
  · intro before x after hsplit
    cases before with
    | nil =>
      obtain ⟨rfl, rfl⟩ := List.cons.inj hsplit
      rw [htext] at hfits
      exact ⟨hblanks, ht, by simp, hfits⟩
    | cons y before =>
      obtain ⟨hfirst, hrest⟩ := List.cons.inj hsplit
      subst hfirst
      simpa [Piece.chars] using hpieces before x after hrest

/-- What a call finds between the text in front of it and the text that is left, at the place of its
first character, and the two texts after the call. -/
inductive Finds : List Char → List Char → Except ScanError (Placed Token) → List Char →
    List Char → Prop
  | token {front blanks rest : List Char} {t : Token} (hblanks : Blanks blanks)
      (ht : t ≠ .endOfInput) (hfits : t.FitsAt (t.source ++ rest)) :
      Finds front (blanks ++ t.source ++ rest) (.ok ⟨t, .behind (front ++ blanks)⟩)
        (front ++ blanks ++ t.source) rest
  | endOfInput {front blanks : List Char} (hblanks : Blanks blanks) :
      Finds front blanks (.ok ⟨.endOfInput, .behind (front ++ blanks)⟩) (front ++ blanks) []
  | unterminatedString {front blanks cs : List Char} (hblanks : Blanks blanks)
      (hopen : '"' ∉ cs) :
      Finds front (blanks ++ '"' :: cs)
        (.error ⟨.unterminatedString, .behind (front ++ blanks)⟩) (front ++ blanks ++ '"' :: cs) []
  | unexpectedCharacter {front blanks cs : List Char} {c : Char} (hblanks : Blanks blanks)
      (hblank : isBlank c = false) (hmark : c ∉ ['(', ')', '\'', '"']) (hdigit : c.isDigit = false)
      (hstart : isSymbolStart c = false) :
      Finds front (blanks ++ c :: cs)
        (.error ⟨.unexpectedCharacter c, .behind (front ++ blanks)⟩) (front ++ blanks) (c :: cs)

/-- A token is found behind blanks, and the text goes on behind it. -/
theorem Finds.exists_blanks {front rest front' rest' : List Char} {t : Placed Token}
    (h : Finds front rest (.ok t) front' rest') :
    ∃ blanks, Blanks blanks ∧ rest = blanks ++ (t.item.source ++ rest') ∧
      t.position = .behind (front ++ blanks) ∧ front' = front ++ blanks ++ t.item.source := by
  cases h with
  | token hblanks => exact ⟨_, hblanks, List.append_assoc .., rfl, rfl⟩
  | endOfInput hblanks =>
    exact ⟨rest, hblanks, (List.append_nil rest).symm, rfl, (List.append_nil _).symm⟩

/-- What calls find one after the other, going on after errors. -/
inductive CallsFind : List Char → List Char → List (Except ScanError (Placed Token)) → Prop
  | none (front rest : List Char) : CallsFind front rest []
  | call {front rest front' rest' : List Char} {o : Except ScanError (Placed Token)}
      {more : List (Except ScanError (Placed Token))} (h : Finds front rest o front' rest')
      (hmore : CallsFind front' rest' more) : CallsFind front rest (o :: more)

namespace Cut

variable {blanks cs : List Char}

theorem finds_token (front : List Char) (hblanks : Blanks blanks) {t : Token}
    (h : (ofText cs).outcome = .ok t) :
    Finds front (blanks ++ cs) (.ok ⟨t, .behind (front ++ blanks)⟩)
      (front ++ blanks ++ (ofText cs).taken) (ofText cs).rest := by
  by_cases ht : t = .endOfInput
  · subst ht
    have hnil := eq_nil_of_endOfInput h
    subst hnil
    simpa [ofText] using Finds.endOfInput hblanks
  · obtain ⟨htaken, hfits⟩ := taken_of_ofText h
    have hcs : cs = t.source ++ (ofText cs).rest := by
      rw [← htaken]
      exact (ofText_append cs).symm
    rw [hcs] at hfits
    have hfinds : Finds front _ _ _ _ := .token hblanks ht hfits
    rwa [List.append_assoc, ← hcs, ← htaken] at hfinds

/-- Without a double quote a string runs to the end of the text. -/
theorem ofString_of_open (h : '"' ∉ cs) :
    ofString cs = ⟨.error .unterminatedString, '"' :: cs, []⟩ := by
  have hall := ne_doubleQuote_of_not_mem h
  have htake := List.takeWhile_eq_self_iff.2 hall
  have hdrop := List.dropWhile_eq_nil_iff.2 hall
  simp only [ofString, htake, hdrop]

theorem finds_error (front : List Char) (hblanks : Blanks blanks)
    (hhead : ∀ c ∈ cs.head?, isBlank c = false) {fault : ScanFault}
    (h : (ofText cs).outcome = .error fault) :
    Finds front (blanks ++ cs) (.error ⟨fault, .behind (front ++ blanks)⟩)
      (front ++ blanks ++ (ofText cs).taken) (ofText cs).rest := by
  have hstarts := starts_ofText cs
  generalize ofText cs = cut at h hstarts
  cases hstarts with
  | string cs =>
    by_cases hmem : '"' ∈ cs
    · rw [ofString_outcome, if_pos hmem] at h
      cases h
    · rw [ofString_of_open hmem] at h ⊢
      cases h
      exact .unterminatedString hblanks hmem
  | unexpected hmark hdigit hstart cs =>
    cases h
    rw [List.append_nil]
    exact .unexpectedCharacter hblanks (hhead _ rfl) hmark hdigit hstart
  | _ => cases h

end Cut

namespace Scanner

variable {s : Scanner} {front : List Char}

/-- A scanner that has its place from the text in front of it finds what is there, and has its place
again after that. -/
theorem finds_next (h : s.position = .behind front) :
    ∃ front', Finds front s.rest s.next.1 front' s.next.2.rest ∧
      s.next.2.position = .behind front' := by
  have hblanks : Blanks (s.rest.takeWhile isBlank) := fun c hc => List.mem_takeWhile_imp hc
  have hplace : s.skipBlanks.position = .behind (front ++ s.rest.takeWhile isBlank) := by
    rw [skipBlanks, h, Position.after_behind]
  have hrest : s.rest = s.rest.takeWhile isBlank ++ s.skipBlanks.rest :=
    List.takeWhile_append_dropWhile.symm
  refine ⟨front ++ s.rest.takeWhile isBlank ++ (Cut.ofText s.skipBlanks.rest).taken, ?_, ?_⟩
  · unfold next
    dsimp only
    rw [hplace]
    cases hcut : (Cut.ofText s.skipBlanks.rest).outcome with
    | ok t =>
      have hfinds := Cut.finds_token front hblanks hcut
      rwa [← hrest] at hfinds
    | error fault =>
      have hfinds := Cut.finds_error front hblanks s.isBlank_of_skipBlanks hcut
      rwa [← hrest] at hfinds
  · unfold next
    dsimp only
    rw [hplace, Position.after_behind]

theorem callsFind_outcomes (h : s.position = .behind front) (count : Nat) :
    CallsFind front s.rest (s.outcomes count) := by
  induction count generalizing s front with
  | zero => exact .none front s.rest
  | succ count ih =>
    obtain ⟨front', hfinds, hplace⟩ := finds_next h
    exact .call hfinds (ih hplace)

/-- Cutting a text to its end loses nothing of it. -/
theorem consistsOf_tokens {ts : List (Placed Token)} (h : s.position = .behind front)
    (hts : s.tokens = .ok ts) : ConsistsOf front s.rest ts := by
  -- On the length of the text, of which each token but the last takes something away.
  induction hlength : s.rest.length using Nat.strongRecOn generalizing s front ts with
  | _ n ih =>
    obtain ⟨front', hfinds, hplace⟩ := finds_next h
    cases hnext : s.next with
    | mk outcome s' =>
      rw [hnext] at hfinds hplace
      dsimp only at hfinds hplace
      cases outcome with
      | error e =>
        rw [tokens_of_next_error hnext] at hts
        cases hts
      | ok t =>
        obtain ⟨item, place⟩ := t
        by_cases ht : item = .endOfInput
        · subst ht
          rw [tokens_of_next_end hnext rfl] at hts
          cases hts
          generalize s.rest = text at hfinds ⊢
          generalize s'.rest = text' at hfinds
          cases hfinds with
          | token _ ht => exact absurd rfl ht
          | endOfInput hblanks => exact ⟨[], text, hblanks, rfl, rfl, by simp⟩
        · have hlt := next_length_lt hnext ht
          rw [tokens_of_next hnext ht] at hts
          cases hmore : s'.tokens with
          | error e =>
            rw [hmore] at hts
            cases hts
          | ok more =>
            rw [hmore] at hts
            cases hts
            have hconsists := ih _ (hlength ▸ hlt) hplace hmore rfl
            generalize s.rest = text at hfinds ⊢
            generalize s'.rest = text' at hfinds hconsists
            cases hfinds with
            | endOfInput => exact absurd rfl ht
            | token hblanks _ hfits => exact hconsists.token hblanks ht hfits

end Scanner

/-- A text that can be cut to its end is made of its tokens and the blanks between them, each number
and symbol as long as it can be there; and in every text the tokens and errors that calls give, one
after the other, have the places of what they were found at. -/
theorem tokens_are_lossless_and_placed (source : String) :
    (∀ ts, (Scanner.ofString source).tokens = .ok ts → ConsistsOf [] source.toList ts) ∧
    ∀ count, CallsFind [] source.toList ((Scanner.ofString source).outcomes count) := by
  have hstart : (Scanner.ofString source).position = .behind [] := rfl
  exact ⟨fun _ hts => Scanner.consistsOf_tokens hstart hts, Scanner.callsFind_outcomes hstart⟩

/-- A minus sign that starts a number, a string over the end of a line, and a minus sign that starts
a symbol. -/
private def overTwoLines : String := "-1.5\n(\"a\nb\" -x"

private def tokensOverTwoLines : List (Placed Token) :=
  [⟨.number "-1.5", ⟨1, 1⟩⟩, ⟨.leftParen, ⟨2, 1⟩⟩, ⟨.string "a\nb", ⟨2, 2⟩⟩,
    ⟨.symbol "-x", ⟨3, 4⟩⟩, ⟨.endOfInput, ⟨3, 6⟩⟩]

theorem string_over_two_lines_is_placed :
    (Scanner.ofString overTwoLines).tokens = .ok tokensOverTwoLines ∧
      ConsistsOf [] overTwoLines.toList tokensOverTwoLines ∧
    CallsFind [] "a \"b".toList
      [.ok ⟨.symbol "a", ⟨1, 1⟩⟩, .error ⟨.unterminatedString, ⟨1, 3⟩⟩,
        .ok ⟨.endOfInput, ⟨1, 5⟩⟩] := by
  have hnumber : (Scanner.ofString overTwoLines).next =
      (.ok ⟨.number "-1.5", ⟨1, 1⟩⟩, ⟨"\n(\"a\nb\" -x".toList, ⟨1, 5⟩⟩) := rfl
  have hparen : Scanner.next ⟨"\n(\"a\nb\" -x".toList, ⟨1, 5⟩⟩ =
      (.ok ⟨.leftParen, ⟨2, 1⟩⟩, ⟨"\"a\nb\" -x".toList, ⟨2, 2⟩⟩) := rfl
  have hstring : Scanner.next ⟨"\"a\nb\" -x".toList, ⟨2, 2⟩⟩ =
      (.ok ⟨.string "a\nb", ⟨2, 2⟩⟩, ⟨" -x".toList, ⟨3, 3⟩⟩) := rfl
  have hsymbol : Scanner.next ⟨" -x".toList, ⟨3, 3⟩⟩ =
      (.ok ⟨.symbol "-x", ⟨3, 4⟩⟩, ⟨[], ⟨3, 6⟩⟩) := rfl
  have hend : Scanner.next ⟨[], ⟨3, 6⟩⟩ = (.ok ⟨.endOfInput, ⟨3, 6⟩⟩, ⟨[], ⟨3, 6⟩⟩) := rfl
  have htokens : (Scanner.ofString overTwoLines).tokens = .ok tokensOverTwoLines := by
    rw [Scanner.tokens_of_next hnumber nofun, Scanner.tokens_of_next hparen nofun,
      Scanner.tokens_of_next hstring nofun, Scanner.tokens_of_next hsymbol nofun,
      Scanner.tokens_of_next_end hend rfl]
    rfl
  have hcalls : (Scanner.ofString "a \"b").outcomes 3 = [.ok ⟨.symbol "a", ⟨1, 1⟩⟩,
      .error ⟨.unterminatedString, ⟨1, 3⟩⟩, .ok ⟨.endOfInput, ⟨1, 5⟩⟩] := rfl
  have hplaced := (tokens_are_lossless_and_placed "a \"b").2 3
  rw [hcalls] at hplaced
  exact ⟨htokens, (tokens_are_lossless_and_placed overTwoLines).1 _ htokens, hplaced⟩

end ScopedLisp
