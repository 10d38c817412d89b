import ScopedLisp.Proofs.Position.Counting
import ScopedLisp.Proofs.Reader.Viability
import ScopedLisp.Proofs.Token.Lexeme

namespace ScopedLisp

/-- The same thing, some lines further down. -/
def Placed.down {α : Type} (lines : Nat) (x : Placed α) : Placed α :=
  ⟨x.item, x.position.down lines⟩

namespace Scanner

variable {s s' : Scanner} {t : Placed Token} {frames : List Frame} {v : Value}

section Down

/-- The scanner of the same text, some lines further down. -/
def down (lines : Nat) (s : Scanner) : Scanner := ⟨s.rest, s.position.down lines⟩

variable (lines : Nat)

theorem skipBlanks_down (s : Scanner) : (s.down lines).skipBlanks = s.skipBlanks.down lines := by
  unfold skipBlanks down
  rw [Position.after_down]

theorem next_down_of_ok (h : s.next = (.ok t, s')) :
    (s.down lines).next = (.ok (t.down lines), s'.down lines) := by
  obtain ⟨taken, hcut, htplace, hplace⟩ := next_eq_ok_iff.1 h
  rw [next_eq_ok_iff, skipBlanks_down]
  refine ⟨taken, hcut, congrArg (Position.down lines) htplace, ?_⟩
  simp only [down, hplace, Position.after_down]

theorem next_down_of_error {e : ScanError} (h : s.next.1 = .error e) :
    (s.down lines).next.1 = .error (e.down lines) := by
  obtain ⟨houtcome, hplace⟩ := next_eq_error_iff.1 h
  rw [next_eq_error_iff, skipBlanks_down]
  exact ⟨houtcome, congrArg (Position.down lines) hplace⟩

theorem readValue_down (frames : List Frame) (s : Scanner) :
    (s.down lines).readValue frames = match s.readValue frames with
      | .error e => .error (e.down lines)
      | .ok (v, s') => .ok (v, s'.down lines) := by
  fun_induction readValue frames s with
  | case1 frames s e s₁ hs =>
    exact readValue_of_next_error (next_down_of_error lines (congrArg Prod.fst hs))
  | case2 frames s t s₁ hs fault hp => exact readValue_of_fault (next_down_of_ok lines hs) hp
  | case3 frames s t s₁ hs w hp => exact readValue_of_next (next_down_of_ok lines hs) hp
  | case4 frames s t s₁ hs frames' hp hlt ih =>
    rw [readValue_of_next (next_down_of_ok lines hs) hp]
    exact ih

theorem atEnd_down (s : Scanner) : (s.down lines).atEnd = s.atEnd := by
  unfold atEnd
  rw [skipBlanks_down]
  rfl

/-- Further down the same values are read, and errors have their places further down. -/
theorem readValues_down (done : List Value) (s : Scanner) :
    (s.down lines).readValues done = (s.readValues done).mapError (Placed.down lines) := by
  fun_induction readValues done s with
  | case1 done s hend => exact readValues_of_atEnd (atEnd_down lines s ▸ hend) done
  | case2 done s hend e hread =>
    rw [readValues_eq done (atEnd_down lines s ▸ hend), readValue_down, hread]
    rfl
  | case3 done s hend v s' hread hlt ih =>
    rw [readValues_eq done (atEnd_down lines s ▸ hend), readValue_down, hread]
    exact ih

end Down

theorem finish_readValue (h : s.readValue frames = .ok (v, s')) : s'.finish = s.finish := by
  fun_induction readValue frames s with
  | case1 => cases h
  | case2 => cases h
  | case3 frames s t s₁ hs w hp =>
    cases h
    exact finish_next hs
  | case4 frames s t s₁ hs frames' hp hlt ih => rw [ih h, finish_next hs]

/-- A text is read as what is left of it behind its first blanks. -/
theorem readValues_congr (h : s.skipBlanks = s'.skipBlanks) (done : List Value) :
    s.readValues done = s'.readValues done := by
  have hend : s.atEnd = s'.atEnd := by rw [atEnd, h, atEnd]
  have hnext : s.next = s'.next := by rw [next, h, next]
  have hread : s.readValue [] = s'.readValue [] := by rw [readValue_eq, hnext, ← readValue_eq]
  by_cases hs : s.atEnd
  · rw [readValues_of_atEnd hs, readValues_of_atEnd (hend ▸ hs)]
  · rw [readValues_eq done hs, readValues_eq done (hend ▸ hs), hread]

theorem readValues_append_done (done : List Value) (s : Scanner) (earlier : List Value) :
    s.readValues (done ++ earlier) = (s.readValues done).map (earlier.reverse ++ ·) := by
  fun_induction readValues done s with
  | case1 done s hend => rw [readValues_of_atEnd hend, List.reverse_append]; rfl
  | case2 done s hend e hread =>
    rw [readValues_eq _ hend, hread]
    rfl
  | case3 done s hend v s' hread hlt ih =>
    rw [readValues_eq _ hend, hread]
    exact ih

theorem atEnd_iff_blanks : s.atEnd ↔ Blanks s.rest :=
  atEnd_iff.trans List.dropWhile_eq_nil_iff

/-- A text that is read to its end ends there when a blank follows, and what is behind the blank is
read next. -/
theorem readValues_append_blank {done vs : List Value} (h : s.readValues done = .ok vs) {c : Char}
    (hc : isBlank c) (u : List Char) : (s.append (c :: u)).readValues done =
      Scanner.readValues vs.reverse ⟨u, s.finish.next c⟩ := by
  fun_induction readValues done s with
  | case1 done s hend =>
    cases h
    have hblank : ∀ d ∈ s.rest ++ [c], isBlank d := by
      have hrest := atEnd_iff_blanks.1 hend
      intro d hd
      rcases List.mem_append.1 hd with hd | hd
      · exact hrest d hd
      · rw [List.mem_singleton.1 hd]
        exact hc
    have hskip : (s.append (c :: u)).skipBlanks = skipBlanks ⟨u, s.finish.next c⟩ := by
      have hmove := skipBlanks_blanks_append hblank u s.position
      rw [List.append_assoc, Position.after_append] at hmove
      exact hmove
    rw [List.reverse_reverse]
    exact readValues_congr hskip done
  | case2 => cases h
  | case3 done s hend v s' hread hlt ih =>
    have hread' := readValue_append hread (.inr (delimits_of_isBlank hc u))
    rw [readValues_of_readValue hread', ← finish_readValue hread]
    exact ih h

end Scanner

/-- Behind a text that can be read and a newline, everything is as if the text started there, some
lines further down. -/
theorem readAll_append_newline {source : String} {vs : List Value} (h : readAll source = .ok vs)
    (more : String) : readAll (source ++ "\n" ++ more) =
      ((readAll more).map (vs ++ ·)).mapError (Placed.down (1 + source.toList.count '\n')) := by
  have hseam : Scanner.ofString (source ++ "\n" ++ more) =
      (Scanner.ofString source).append ('\n' :: more.toList) := by
    rw [String.append_assoc, Scanner.ofString_append, String.toList_append]
    rfl
  have hplace : (Scanner.ofString source).finish.next '\n' =
      Position.start.down (1 + source.toList.count '\n') := by
    rw [← Position.behind_newline, ← Position.after_start, Position.after_append]
    rfl
  rw [readAll_eq] at h
  rw [readAll_eq, readAll_eq, hseam, Scanner.readValues_append_blank h rfl, hplace]
  have hdown := Scanner.readValues_down (1 + source.toList.count '\n') vs.reverse
    (Scanner.ofString more)
  have hdone := Scanner.readValues_append_done [] (Scanner.ofString more) vs.reverse
  rw [List.nil_append, List.reverse_reverse] at hdone
  rw [← hdone, ← hdown]
  rfl

/-- Behind a text that can be read and a newline, a text is read to the same values or the same
error, whose place is as many lines further down as that newline and those in the first text make.
-/
theorem lines_are_read_in_turn {source : String} {vs : List Value} (h : readAll source = .ok vs)
    (more : String) :
    (∀ ws, readAll more = .ok ws → readAll (source ++ "\n" ++ more) = .ok (vs ++ ws)) ∧
    ∀ e, readAll more = .error e → readAll (source ++ "\n" ++ more) = .error
      ⟨e.item, e.position.line + (1 + source.toList.count '\n'), e.position.column⟩ := by
  have happend := readAll_append_newline h more
  refine ⟨fun ws hws => ?_, fun e he => ?_⟩
  · rw [happend, hws]
    rfl
  · rw [happend, he]
    rfl

/-- The newline ends the symbol that the first text ends with. -/
theorem close_behind_two_lines_is_found :
    readAll "'a\nb" = .ok [.list [.symbol "quote", .symbol "a"], .symbol "b"] ∧
      readAll "'a\nb\nc" =
        .ok [.list [.symbol "quote", .symbol "a"], .symbol "b", .symbol "c"] ∧
    readAll "\nc )" = .error ⟨.unexpectedCloseParen, ⟨2, 3⟩⟩ ∧
      readAll "'a\nb\n\nc )" = .error ⟨.unexpectedCloseParen, ⟨4, 3⟩⟩ := by
  have hquoted : (Scanner.ofString "'a\nb").readValue [] =
      .ok (.list [.symbol "quote", .symbol "a"], ⟨['\n', 'b'], ⟨1, 3⟩⟩) := by
    calc _ = Scanner.readValue [.quoted] ⟨['a', '\n', 'b'], ⟨1, 2⟩⟩ :=
          Scanner.readValue_of_next (p := .within _) rfl rfl
      _ = _ := Scanner.readValue_of_next (p := .done _) rfl rfl
  have hsymbol : Scanner.readValue [] ⟨['\n', 'b'], ⟨1, 3⟩⟩ = .ok (.symbol "b", ⟨[], ⟨2, 2⟩⟩) :=
    Scanner.readValue_of_next (p := .done _) rfl rfl
  have hsource : readAll "'a\nb" = .ok [.list [.symbol "quote", .symbol "a"], .symbol "b"] := by
    rw [readAll_eq, Scanner.readValues_of_readValue hquoted,
      Scanner.readValues_of_readValue hsymbol]
    exact Scanner.readValues_of_atEnd rfl _
  have hlast : (Scanner.ofString "c").readValue [] = .ok (.symbol "c", ⟨[], ⟨1, 2⟩⟩) :=
    Scanner.readValue_of_next (p := .done _) rfl rfl
  have hmore : readAll "c" = .ok [.symbol "c"] := by
    rw [readAll_eq, Scanner.readValues_of_readValue hlast]
    exact Scanner.readValues_of_atEnd rfl _
  have hbefore : (Scanner.ofString "\nc )").readValue [] =
      .ok (.symbol "c", ⟨[' ', ')'], ⟨2, 2⟩⟩) :=
    Scanner.readValue_of_next (p := .done _) rfl rfl
  have hclose : Scanner.readValue [] ⟨[' ', ')'], ⟨2, 2⟩⟩ =
      .error ⟨.unexpectedCloseParen, ⟨2, 3⟩⟩ :=
    Scanner.readValue_of_fault (t := ⟨.rightParen, ⟨2, 3⟩⟩) rfl rfl
  have hwrong : readAll "\nc )" = .error ⟨.unexpectedCloseParen, ⟨2, 3⟩⟩ := by
    rw [readAll_eq, Scanner.readValues_of_readValue hbefore,
      Scanner.readValues_eq _ (by decide), hclose]
  exact ⟨hsource, (lines_are_read_in_turn hsource "c").1 _ hmore, hwrong,
    (lines_are_read_in_turn hsource "\nc )").2 _ hwrong⟩

end ScopedLisp
