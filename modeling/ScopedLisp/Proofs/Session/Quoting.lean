import ScopedLisp.Proofs.Evaluation.Application
import ScopedLisp.Proofs.Reader.Context
import ScopedLisp.Proofs.Session.Calls

namespace ScopedLisp

open Scanner

theorem isOf_quoteMark : Token.quote.IsOf ['\''] := ⟨rfl, nofun⟩

theorem isOf_quoteName : (Token.symbol SpecialForm.quote.name).IsOf "quote".toList := ⟨rfl, nofun⟩

variable {source : String} {v : Value}

theorem readAll_quoteMark (h : readAll source = .ok [v]) :
    readAll ("'" ++ source) = .ok [v.quotation] := by
  have hsource : (Scanner.ofString ("'" ++ source)).rest = [] ++ ['\''] ++ source.toList :=
    String.toList_append
  obtain ⟨p, s₁, hmark, hs₁⟩ := next_of_isOf hsource blanks_nil isOf_quoteMark False.elim
  have hs₁ : s₁.rest = [] ++ (source.toList ++ []) := by rw [hs₁, List.append_nil, List.nil_append]
  obtain ⟨s₂, b, hb, hs₂, hread⟩ :=
    readValue_of_readAll h [.quoted] (u := []) hs₁ blanks_nil nofun
  have hquoted : (Scanner.ofString ("'" ++ source)).readValue [] = .ok (v.quotation, s₂) := by
    rw [readValue_of_next hmark rfl]
    exact hread
  exact readAll_of_readValue hquoted (atEnd_iff_blanks.2 (hs₂ ▸ hb.append blanks_nil))

theorem readAll_quoteForm (h : readAll source = .ok [v]) :
    readAll ("(quote " ++ source ++ ")") = .ok [v.quotation] := by
  have hsource : (Scanner.ofString ("(quote " ++ source ++ ")")).rest =
      [] ++ ['('] ++ ("quote".toList ++ ' ' :: (source.toList ++ [')'])) := by
    simp [Scanner.ofString]
  obtain ⟨p₁, s₁, hopen, hs₁⟩ := next_of_isOf hsource blanks_nil isOf_leftParen False.elim
  have hs₁ : s₁.rest = [] ++ "quote".toList ++ ' ' :: (source.toList ++ [')']) := hs₁
  obtain ⟨p₂, s₂, hname, hs₂⟩ := next_of_isOf hs₁ blanks_nil isOf_quoteName fun _ =>
    delimits_of_isBlank rfl _
  obtain ⟨s₃, b, hb, hs₃, hread⟩ := readValue_of_readAll h [.list [.symbol SpecialForm.quote.name]]
    (a := [' ']) hs₂ (by decide) (delimits_rightParen [])
  have hs₃ : s₃.rest = b ++ [')'] ++ [] := by rw [hs₃, List.append_nil]
  obtain ⟨p₄, s₄, hclose, hs₄⟩ := next_of_isOf hs₃ hb isOf_rightParen False.elim
  have hquoted : (Scanner.ofString ("(quote " ++ source ++ ")")).readValue [] =
      .ok (v.quotation, s₄) := by
    calc _ = s₁.readValue [.list []] := readValue_of_next (p := .within _) hopen rfl
      _ = s₂.readValue [.list [.symbol SpecialForm.quote.name]] :=
        readValue_of_next (p := .within _) hname rfl
      _ = s₃.readValue [.list [v, .symbol SpecialForm.quote.name]] := hread
      _ = .ok (v.quotation, s₄) := readValue_of_next (p := .done _) hclose rfl
  exact readAll_of_readValue hquoted (atEnd_of_rest_nil hs₄)

theorem evalSource_of_readAll_quotation (h : readAll source = .ok [v.quotation]) (ext : Embedding)
    (limit : Nat) (ρ : ScopeId) (σ : Store) :
    evalSource ext (limit + 1) ρ source σ = some (.ok v, σ) := by
  rw [evalSource, readOne_of_readAll h]
  rfl

/-- A text with one value in it gives that value back when it is quoted, with the mark or with the
form, in every scope of every store, and the store stays as it was. -/
theorem quoting_gives_back (h : readAll source = .ok [v]) (ext : Embedding) (limit : Nat)
    (ρ : ScopeId) (σ : Store) :
    evalSource ext (limit + 1) ρ ("'" ++ source) σ = some (.ok v, σ) ∧
      evalSource ext (limit + 1) ρ ("(quote " ++ source ++ ")") σ = some (.ok v, σ) :=
  ⟨evalSource_of_readAll_quotation (readAll_quoteMark h) ext limit ρ σ,
    evalSource_of_readAll_quotation (readAll_quoteForm h) ext limit ρ σ⟩

/-- A symbol quoted twice, between blanks, where the name `quote` is bound to a number. -/
theorem quotes_are_given_back :
    readAll " ''a\n" = .ok [.quotation (.quotation (.symbol "a"))] ∧
      evalSource .empty 1 0 "' ''a\n" (Store.empty.newGlobal.2.bind 0 "quote" (.number 1)) =
        some (.ok (.quotation (.quotation (.symbol "a"))),
          Store.empty.newGlobal.2.bind 0 "quote" (.number 1)) ∧
      evalSource .empty 1 0 "(quote  ''a\n)" (Store.empty.newGlobal.2.bind 0 "quote" (.number 1)) =
        some (.ok (.quotation (.quotation (.symbol "a"))),
          Store.empty.newGlobal.2.bind 0 "quote" (.number 1)) := by
  have hvalue : (Scanner.ofString " ''a\n").readValue [] =
      .ok (.quotation (.quotation (.symbol "a")), ⟨['\n'], ⟨1, 5⟩⟩) := by
    calc _ = Scanner.readValue [.quoted] ⟨['\'', 'a', '\n'], ⟨1, 3⟩⟩ :=
          readValue_of_next (p := .within _) rfl rfl
      _ = Scanner.readValue [.quoted, .quoted] ⟨['a', '\n'], ⟨1, 4⟩⟩ :=
          readValue_of_next (p := .within _) rfl rfl
      _ = _ := readValue_of_next (p := .done _) rfl rfl
  have hsource : readAll " ''a\n" = .ok [.quotation (.quotation (.symbol "a"))] :=
    readAll_of_readValue hvalue rfl
  exact ⟨hsource, quoting_gives_back hsource .empty 0 0 _⟩

end ScopedLisp
