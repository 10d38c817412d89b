import ScopedLisp.Proofs.Reader.Beginnings
import ScopedLisp.Proofs.Reader.Phases
import ScopedLisp.Proofs.Token.Characters

namespace ScopedLisp

/-- What the fault says of the tokens in front of it and of the text that is left at its place. -/
def ReadFault.IsSo (us : List Token) (rest : List Char) : ReadFault → Prop
  | scan (.unexpectedCharacter c) =>
    (∃ cs, rest = c :: cs) ∧ isBlank c = false ∧ ¬ StartsToken c
  | scan .unterminatedString => ∃ cs, rest = '"' :: cs ∧ '"' ∉ cs
  | unexpectedCloseParen =>
    (∃ cs, rest = ')' :: cs) ∧ (openLists us = 0 ∨ us.getLast? = some .quote)
  | unexpectedEndOfInput => rest = []
  | unterminatedList => rest = [] ∧ 0 < openLists us
  | invalidNumeral _ => False

/-- What the scanner finds where the reader has its error. -/
def ReadError.found (e : ReadError) : Except ScanError (Placed Token) :=
  match e.item with
  | .scan fault => .error ⟨fault, e.position⟩
  | .unexpectedCloseParen => .ok ⟨.rightParen, e.position⟩
  | .unexpectedEndOfInput | .unterminatedList => .ok ⟨.endOfInput, e.position⟩
  | .invalidNumeral lexeme => .ok ⟨.number lexeme, e.position⟩

/-- The error has the place behind `front`, which is no other place of the text and is not inside a
string; behind the tokens in front of it the scanner finds what the error is about, and what it says
is so. -/
structure ReadError.IsTruthful (source : String) (front rest : List Char)
    (ts : List (Placed Token)) (e : ReadError) : Prop where
  text : source.toList = front ++ rest
  place : e.position = .behind front
  unique : ∀ other, other <+: source.toList → e.position = .behind other → other = front
  outside : OutsideStrings front
  tokens : (Scanner.ofString source).outcomes (ts.length + 1) = ts.map .ok ++ [e.found]
  begins : BeginsReadable (ts.map (·.item))
  isSo : e.item.IsSo (ts.map (·.item)) rest

namespace Opens

variable {us : List Token} {frames : List Frame} {fault : ReadFault}

/-- A closing parenthesis is wrong where no list is open, and behind a quote mark. -/
theorem isSo_of_close (h : Opens us frames)
    (hp : Progress.ofToken frames .rightParen = .error fault) (cs : List Char) :
    fault = .unexpectedCloseParen ∧ fault.IsSo us (')' :: cs) := by
  match frames with
  | .list _ :: _ => cases hp
  | [] =>
    cases hp
    exact ⟨rfl, ⟨cs, rfl⟩, .inl h.openLists_eq⟩
  | .quoted :: _ =>
    cases hp
    exact ⟨rfl, ⟨cs, rfl⟩, .inr h.getLast?_eq_quote⟩

theorem isSo_of_end (h : Opens us frames)
    (hp : Progress.ofToken frames .endOfInput = .error fault) :
    fault ∈ [.unexpectedEndOfInput, .unterminatedList] ∧ fault.IsSo us [] := by
  match frames with
  | .list items :: outer =>
    cases hp
    have hopen : openLists us = listsAmong outer + 1 := h.openLists_eq
    exact ⟨by simp, rfl, by omega⟩
  | [] | .quoted :: _ =>
    cases hp
    exact ⟨by simp, rfl⟩

end Opens

/-- From the front of the text the reader has come by these tokens to a scanner that stands behind
`front`, outside strings, and has these frames open. -/
structure Walked (source : String) (front : List Char) (ts : List (Placed Token))
    (frames : List Frame) (s : Scanner) : Prop where
  gives : (Scanner.ofString source).Gives ts s
  text : source.toList = front ++ s.rest
  place : s.position = .behind front
  outside : OutsideStrings front
  proper : ∀ t ∈ ts, t.item.IsProper
  opens : Opens (ts.map (·.item)) frames

namespace Walked

variable {source : String} {front : List Char} {ts : List (Placed Token)} {frames : List Frame}
  {s s' : Scanner} {t : Placed Token} {p : Progress} {e : ReadError} {v : Value}

theorem start (source : String) : Walked source [] [] [] (.ofString source) :=
  ⟨.nil, rfl, rfl, rfl, nofun, .start⟩

/-- One token further. -/
theorem token (h : Walked source front ts frames s) (hnext : s.next = (.ok t, s'))
    (hp : Progress.ofToken frames t.item = .ok p) :
    ∃ front', Walked source front' (ts ++ [t]) p.frames s' := by
  have hproper : t.item.IsProper := Token.isProper_of_ofText
    (Scanner.next_outcome_ok (congrArg Prod.fst hnext)) (Progress.ne_endOfInput hp)
  obtain ⟨front', hfinds, hplace⟩ := Scanner.finds_next h.place
  rw [hnext] at hfinds hplace
  obtain ⟨blanks, hblanks, hrest, -, hfront⟩ := hfinds.exists_blanks
  refine ⟨front', h.gives.snoc hnext, ?_, hplace, ?_, ?_, ?_⟩
  · rw [h.text, hrest, hfront]
    simp only [List.append_assoc]
  · rw [hfront]
    exact (h.outside.append hblanks.outsideStrings).append hproper.outsideStrings
  · intro u hu
    rcases List.mem_append.1 hu with hu | hu
    · exact h.proper u hu
    · rw [List.mem_singleton.1 hu]
      exact hproper
  · rw [List.map_append]
    exact h.opens.token hp

/-- What is wrong behind blanks is wrong at its place. -/
theorem isTruthful {blanks rest : List Char} (h : Walked source front ts frames s)
    (hrest : s.rest = blanks ++ rest) (hblanks : Blanks blanks)
    (hplace : e.position = .behind (front ++ blanks)) (hfound : s.next.1 = e.found)
    (hso : e.item.IsSo (ts.map (·.item)) rest) :
    e.IsTruthful source (front ++ blanks) rest ts := by
  have htext : source.toList = front ++ blanks ++ rest := by
    rw [h.text, hrest, List.append_assoc]
  have hfront : front ++ blanks <+: source.toList := ⟨rest, htext.symm⟩
  refine ⟨htext, hplace, ?_, h.outside.append hblanks.outsideStrings, ?_,
    h.opens.beginsReadable ?_, hso⟩
  · intro other hother heq
    exact Position.eq_of_behind hother hfront (heq.symm.trans hplace)
  · rw [h.gives.outcomes, Scanner.outcomes, hfound]
    rfl
  · simpa using h.proper

theorem isTruthful_of_next_error {fault : ScanFault} {place : Position}
    (h : Walked source front ts frames s) (hnext : s.next.1 = .error ⟨fault, place⟩) :
    ∃ front rest ts, ReadError.IsTruthful source front rest ts ⟨.scan fault, place⟩ := by
  obtain ⟨front', hfinds, -⟩ := Scanner.finds_next h.place
  rw [hnext] at hfinds
  generalize hrest : s.rest = text, s.next.2.rest = text' at hfinds
  cases hfinds with
  | unterminatedString hblanks hopen =>
    exact ⟨_, _, ts, h.isTruthful hrest hblanks rfl hnext ⟨_, rfl, hopen⟩⟩
  | @unexpectedCharacter _ _ c hblanks hblank hmark hdigit hstart =>
    have hnone : ¬ StartsToken c := by
      rw [startsToken_iff, hdigit, hstart]
      simpa using hmark
    exact ⟨_, _, ts, h.isTruthful hrest hblanks rfl hnext ⟨⟨_, rfl⟩, hblank, hnone⟩⟩

theorem isTruthful_of_fault {fault : ReadFault} (h : Walked source front ts frames s)
    (hnext : s.next = (.ok t, s')) (hp : Progress.ofToken frames t.item = .error fault) :
    ∃ front rest ts, ReadError.IsTruthful source front rest ts ⟨fault, t.position⟩ := by
  obtain ⟨front', hfinds, -⟩ := Scanner.finds_next h.place
  rw [hnext] at hfinds
  obtain ⟨blanks, hblanks, hrest, hplace, -⟩ := hfinds.exists_blanks
  have hfirst : s.next.1 = .ok t := congrArg Prod.fst hnext
  obtain ⟨item, place⟩ := t
  rcases Scanner.fault_cases hnext hp with ⟨hitem, -⟩ | ⟨hitem, -⟩
  · have hitem : item = .rightParen := hitem
    subst hitem
    obtain ⟨hfault, hso⟩ := h.opens.isSo_of_close hp s'.rest
    subst hfault
    have hsource : Token.rightParen.source = [')'] := rfl
    simp only [hsource, List.singleton_append] at hrest
    exact ⟨_, _, ts, h.isTruthful hrest hblanks hplace hfirst hso⟩
  · have hitem : item = .endOfInput := hitem
    subst hitem
    obtain ⟨hfault, hso⟩ := h.opens.isSo_of_end hp
    rw [(Scanner.rest_of_next_end hnext rfl).2] at hrest
    have hfound : s.next.1 = ReadError.found ⟨fault, place⟩ := by
      simp only [List.mem_cons, List.not_mem_nil, or_false] at hfault
      rcases hfault with rfl | rfl <;> exact hfirst
    exact ⟨_, _, ts, h.isTruthful hrest hblanks hplace hfound hso⟩

theorem isTruthful_of_readValue (h : Walked source front ts frames s)
    (hread : s.readValue frames = .error e) :
    ∃ front rest ts, e.IsTruthful source front rest ts := by
  fun_induction Scanner.readValue frames s generalizing front ts with
  | case1 frames s e₁ s₁ hs =>
    cases hread
    exact h.isTruthful_of_next_error (congrArg Prod.fst hs)
  | case2 frames s t s₁ hs fault hp =>
    cases hread
    exact h.isTruthful_of_fault hs hp
  | case3 => cases hread
  | case4 frames s t s₁ hs frames' hp hlt ih =>
    obtain ⟨front', hwalked⟩ := h.token hs hp
    exact ih hwalked hread

/-- Behind a value no frame is open. -/
theorem of_readValue (h : Walked source front ts frames s)
    (hread : s.readValue frames = .ok (v, s')) : ∃ front' ts', Walked source front' ts' [] s' := by
  fun_induction Scanner.readValue frames s generalizing front ts with
  | case1 => cases hread
  | case2 => cases hread
  | case3 frames s t s₁ hs w hp =>
    cases hread
    obtain ⟨front', hwalked⟩ := h.token hs hp
    exact ⟨front', _, hwalked⟩
  | case4 frames s t s₁ hs frames' hp hlt ih =>
    obtain ⟨front', hwalked⟩ := h.token hs hp
    exact ih hwalked hread

theorem isTruthful_of_readValues {done : List Value} (h : Walked source front ts [] s)
    (hread : s.readValues done = .error e) :
    ∃ front rest ts, e.IsTruthful source front rest ts := by
  fun_induction Scanner.readValues done s generalizing front ts with
  | case1 => cases hread
  | case2 done s hend e' he =>
    cases hread
    exact h.isTruthful_of_readValue he
  | case3 done s hend v s' hv hlt ih =>
    obtain ⟨front', ts', hwalked⟩ := h.of_readValue hv
    exact ih hwalked hread

end Walked

/-- An error with which a text, or its first value, cannot be read has the place of what is wrong
there, and in front of that nothing is wrong. -/
theorem error_places_are_truthful {source : String} {e : ReadError}
    (h : readOne source = .error e ∨ readAll source = .error e) :
    ∃ front rest ts, e.IsTruthful source front rest ts := by
  have hstart := Walked.start source
  rcases h with hone | hall
  · rcases readOne_eq_error_iff.1 hone with hread | ⟨v, s, hread, hnext⟩
    · exact hstart.isTruthful_of_readValue hread
    -- The value is there, and the scanner fails behind it.
    · obtain ⟨front, ts, hwalked⟩ := hstart.of_readValue hread
      obtain ⟨e', he', rfl⟩ := Reader.ofScanner_eq_error_iff.1 hnext
      exact hwalked.isTruthful_of_next_error he'
  · rw [readAll_eq] at hall
    exact hstart.isTruthful_of_readValues hall

/-- A closing parenthesis behind a quote mark, on the second line of a text with a string over the
end of the first. -/
theorem close_on_second_line_is_placed :
    readOne "(\"a\nb\" ')" = .error ⟨.unexpectedCloseParen, ⟨2, 5⟩⟩ ∧
      ∃ ts, ReadError.IsTruthful "(\"a\nb\" ')" "(\"a\nb\" '".toList [')'] ts
        ⟨.unexpectedCloseParen, ⟨2, 5⟩⟩ := by
  have hread : Scanner.readValue [] ⟨"(\"a\nb\" ')".toList, ⟨1, 1⟩⟩ =
      .error ⟨.unexpectedCloseParen, ⟨2, 5⟩⟩ := by
    calc _ = Scanner.readValue [.list []] ⟨"\"a\nb\" ')".toList, ⟨1, 2⟩⟩ :=
          Scanner.readValue_of_next (p := .within _) rfl rfl
      _ = Scanner.readValue [.list [.string "a\nb"]] ⟨" ')".toList, ⟨2, 3⟩⟩ :=
          Scanner.readValue_of_next (p := .within _) rfl rfl
      _ = Scanner.readValue [.quoted, .list [.string "a\nb"]] ⟨[')'], ⟨2, 5⟩⟩ :=
          Scanner.readValue_of_next (p := .within _) rfl rfl
      _ = .error ⟨.unexpectedCloseParen, ⟨2, 5⟩⟩ :=
          Scanner.readValue_of_fault (t := ⟨.rightParen, ⟨2, 5⟩⟩) rfl rfl
  have herror : readOne "(\"a\nb\" ')" = .error ⟨.unexpectedCloseParen, ⟨2, 5⟩⟩ :=
    readOne_eq_error_iff.2 (.inl hread)
  obtain ⟨front, rest, ts, htruthful⟩ := error_places_are_truthful (.inl herror)
  have hfront : "(\"a\nb\" '".toList = front :=
    htruthful.unique _ ⟨[')'], rfl⟩ (by decide)
  have htext : "(\"a\nb\" '".toList ++ [')'] = front ++ rest := htruthful.text
  subst hfront
  rw [← List.append_cancel_left htext] at htruthful
  exact ⟨herror, ts, htruthful⟩

end ScopedLisp
