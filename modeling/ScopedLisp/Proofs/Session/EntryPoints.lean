import ScopedLisp.Proofs.Reader.Stepwise
import ScopedLisp.Proofs.Session.Contract

namespace ScopedLisp

theorem evalSource_of_readAll {source : String} {v : Value} (h : readAll source = .ok [v])
    (ext : Embedding) (limit : Nat) (ρ : ScopeId) :
    evalSource ext limit ρ source = runSource ext limit ρ source := by
  rw [runSource_of_read h, evalAll_singleton, evalSource, readOne_of_readAll h]
  rfl

/-- The first of the values of a text is what is read alone. A text without values is at its end, an
error at the first value is also the error of the whole text, and a first value is the first of all
values unless there is an error behind it. Values read one by one, up to the end or the first error,
are the values that are read at once, or there is the same error. With one value in it a text is
evaluated as it is run, to the same outcome and store. -/
theorem entry_points_agree (source : String) :
    (∀ v vs, readAll source = .ok (v :: vs) → readOne source = .ok v) ∧
    (readAll source = .ok [] →
      readOne source = .error ⟨.unexpectedEndOfInput, .behind source.toList⟩) ∧
    (∀ e, readOne source = .error e →
      (∀ p, (Scanner.ofString source).next.1 ≠ .ok ⟨.endOfInput, p⟩) →
        readAll source = .error e) ∧
    (∀ v, readOne source = .ok v →
      (∃ vs, readAll source = .ok (v :: vs)) ∨ ∃ e, readAll source = .error e) ∧
    (∀ r, Reader.ofString source = .ok r → (∃ vs stop r', r.OneByOne vs stop r') ∧
      ∀ vs stop r', r.OneByOne vs stop r' → r.readAll = (Reader.outcome vs stop, r')) ∧
    ∀ v, readAll source = .ok [v] → ∀ ext limit ρ,
      evalSource ext limit ρ source = runSource ext limit ρ source := by
  refine ⟨?_, ?_, ?_, ?_, ?_, ?_⟩
  · intro v vs h
    exact readOne_of_readAll h
  · intro h
    exact readOne_of_blanks (blanks_of_readAll h)
  · intro e h hsource
    refine readAll_of_readOne_error h fun hend => ?_
    obtain ⟨p, s, hnext⟩ := Scanner.next_of_atEnd hend
    exact hsource p (congrArg Prod.fst hnext)
  · intro v h
    exact readAll_of_readOne h
  · intro r _
    exact ⟨r.exists_oneByOne, fun vs stop r' h => h.readAllAfter []⟩
  · intro v h ext limit ρ
    exact evalSource_of_readAll h ext limit ρ

/-- Two symbols, a text without values, a symbol in front of a character that starts no token, and
one quoted symbol. -/
theorem short_texts_are_read_alike :
    (readAll "a b" = .ok [.symbol "a", .symbol "b"] ∧ readOne "a b" = .ok (.symbol "a") ∧
      ∃ r vs stop r', Reader.ofString "a b" = .ok r ∧ r.OneByOne vs stop r' ∧
        r.readAll = (Reader.outcome vs stop, r')) ∧
    (readAll " \n" = .ok [] ∧ readOne " \n" = .error ⟨.unexpectedEndOfInput, ⟨2, 1⟩⟩) ∧
    (readOne "a @" = .error ⟨.scan (.unexpectedCharacter '@'), ⟨1, 3⟩⟩ ∧
      readAll "a @" = .error ⟨.scan (.unexpectedCharacter '@'), ⟨1, 3⟩⟩) ∧
    readAll "'a" = .ok [.list [.symbol "quote", .symbol "a"]] ∧
      evalSource .empty 1 Session.root "'a" = runSource .empty 1 Session.root "'a" := by
  have hfirst : (Scanner.ofString "a b").readValue [] = .ok (.symbol "a", ⟨[' ', 'b'], ⟨1, 2⟩⟩) :=
    Scanner.readValue_of_next (p := .done _) rfl rfl
  have hsecond : Scanner.readValue [] ⟨[' ', 'b'], ⟨1, 2⟩⟩ = .ok (.symbol "b", ⟨[], ⟨1, 4⟩⟩) :=
    Scanner.readValue_of_next (p := .done _) rfl rfl
  have hboth : readAll "a b" = .ok [.symbol "a", .symbol "b"] := by
    rw [readAll_eq, Scanner.readValues_of_readValue hfirst,
      Scanner.readValues_of_readValue hsecond]
    exact Scanner.readValues_of_atEnd rfl _
  have hnone : readAll " \n" = .ok [] := by
    rw [readAll_eq]
    exact Scanner.readValues_of_atEnd rfl _
  have hsymbol : (Scanner.ofString "a @").readValue [] =
      .ok (.symbol "a", ⟨[' ', '@'], ⟨1, 2⟩⟩) :=
    Scanner.readValue_of_next (p := .done _) rfl rfl
  have hwrong : readOne "a @" = .error ⟨.scan (.unexpectedCharacter '@'), ⟨1, 3⟩⟩ :=
    readOne_eq_error_iff.2 (.inr ⟨_, _, hsymbol, rfl⟩)
  have hmark : (Scanner.ofString "'a").readValue [] =
      .ok (.list [.symbol "quote", .symbol "a"], ⟨[], ⟨1, 3⟩⟩) := by
    calc _ = Scanner.readValue [.quoted] ⟨['a'], ⟨1, 2⟩⟩ :=
          Scanner.readValue_of_next (p := .within _) rfl rfl
      _ = _ := Scanner.readValue_of_next (p := .done _) rfl rfl
  have hquoted : readAll "'a" = .ok [.list [.symbol "quote", .symbol "a"]] := by
    rw [readAll_eq, Scanner.readValues_of_readValue hmark]
    exact Scanner.readValues_of_atEnd rfl _
  obtain ⟨hone, -, -, -, hstepwise, -⟩ := entry_points_agree "a b"
  obtain ⟨-, hempty, -⟩ := entry_points_agree " \n"
  obtain ⟨-, -, herror, -⟩ := entry_points_agree "a @"
  obtain ⟨-, -, -, -, -, hevaluated⟩ := entry_points_agree "'a"
  obtain ⟨⟨vs, stop, r', hread⟩, hagrees⟩ := hstepwise _ rfl
  exact ⟨⟨hboth, hone _ _ hboth, _, vs, stop, r', rfl, hread, hagrees _ _ _ hread⟩,
    ⟨hnone, hempty hnone⟩, ⟨hwrong, herror _ hwrong nofun⟩, hquoted,
    hevaluated _ hquoted .empty 1 Session.root⟩

end ScopedLisp
