import Mathlib.Data.List.Chain
import ScopedLisp.Proofs.Token.Longest

namespace ScopedLisp

/-- No symbol starts with a digit. -/
theorem isDigit_of_isSymbolStart {c : Char} (h : isSymbolStart c) : c.isDigit = false := by
  by_contra hdigit
  have hcode : 48 ≤ c.toNat ∧ c.toNat ≤ 57 := isDigit_iff_toNat.1 (by simpa using hdigit)
  simp only [isSymbolStart, Bool.or_eq_true, isAlpha_iff_toNat, beq_iff_eq] at h
  rcases h with (((((((h | rfl) | rfl) | rfl) | rfl) | rfl) | rfl) | rfl) | rfl
  · omega
  all_goals simp at hdigit

namespace Token

/-- The text of the token has the pattern of its kind. -/
def IsProper : Token → Prop
  | leftParen | rightParen | quote => True
  | number lexeme => IsNumberText lexeme.toList
  | string content => '"' ∉ content.toList
  | symbol name => IsSymbolText name.toList ∧
      ∀ d ds, name.toList = '-' :: d :: ds → d.isDigit = false
  | endOfInput => False

variable {t : Token}

/-- What a cut finds is proper. -/
theorem isProper_of_ofText {cs : List Char} (h : (Cut.ofText cs).outcome = .ok t)
    (ht : t ≠ .endOfInput) : t.IsProper := by
  obtain ⟨htaken, hfits⟩ := Cut.taken_of_ofText h
  have hcs : t.source ++ (Cut.ofText cs).rest = cs := by
    rw [← htaken]
    exact Cut.ofText_append cs
  cases t with
  | leftParen | rightParen | quote => trivial
  | number lexeme => exact hfits.holds
  | string content => exact hfits
  | symbol name =>
    obtain ⟨hlongest, hnone⟩ := hfits
    refine ⟨hlongest.holds, ?_⟩
    intro d ds hname
    by_contra hdigit
    have hdigit : d.isDigit := by simpa using hdigit
    have hnumber : IsNumberText ['-', d] := .negative (.whole (by simp) (by simp [hdigit]))
    have hfront : ['-', d] <+: cs := by
      have hsource : (symbol name).source = '-' :: d :: ds := hname
      rw [← hcs, hsource]
      exact ⟨ds ++ (Cut.ofText cs).rest, rfl⟩
    exact hnone _ hnumber hfront
  | endOfInput => exact absurd rfl ht

theorem isOf_of_isNumberText {lexeme : String} (h : IsNumberText lexeme.toList) :
    (number lexeme).IsOf lexeme.toList := by
  have hstarts := Cut.startsNumeral_of_isNumberText h (List.prefix_refl _)
  have hspan := Cut.spanNumeral_append lexeme.toList
  obtain ⟨more, hmore⟩ := Cut.isPrefix_spanNumeral h (List.prefix_refl _)
  -- The span is part of the text and has the text in front: it is the text.
  have hnil : more = [] ∧ (Cut.spanNumeral lexeme.toList).2 = [] := by
    have hlength := congrArg List.length hspan
    rw [← hmore] at hlength
    simp only [List.length_append] at hlength
    constructor <;> apply List.length_eq_zero_iff.1 <;> omega
  obtain ⟨rfl, hrest⟩ := hnil
  have hfirst : (Cut.spanNumeral lexeme.toList).1 = lexeme.toList := by
    rw [← hmore, List.append_nil]
  refine ⟨?_, Token.noConfusion⟩
  rw [(Cut.Starts.number hstarts).ofText_eq, hfirst, hrest, String.ofList_toList]

theorem isOf_of_isSymbolText {name : String} (h : IsSymbolText name.toList)
    (hminus : ∀ d ds, name.toList = '-' :: d :: ds → d.isDigit = false) :
    (symbol name).IsOf name.toList := by
  generalize hname : name.toList = text at h hminus
  cases h with
  | @intro c cs hc hcs =>
    have hnumeral : ¬ Cut.startsNumeral (c :: cs) := by
      intro hstarts
      by_cases hsign : c = '-'
      · subst hsign
        cases cs with
        | nil => cases hstarts
        | cons d ds =>
          have hdigit : d.isDigit := hstarts
          rw [hminus d ds rfl] at hdigit
          cases hdigit
      · rw [Cut.startsNumeral_of_ne hsign, isDigit_of_isSymbolStart hc] at hstarts
        cases hstarts
    have htake := List.takeWhile_eq_self_iff.2 hcs
    have hdrop := List.dropWhile_eq_nil_iff.2 hcs
    refine ⟨?_, Token.noConfusion⟩
    rw [(Cut.Starts.symbol hnumeral hc).ofText_eq, htake, hdrop, ← hname, String.ofList_toList]

/-- A proper token is all that there is in its text. -/
theorem IsProper.isOf (h : t.IsProper) : t.IsOf t.source := by
  cases t with
  | leftParen | rightParen | quote => exact ⟨rfl, Token.noConfusion⟩
  | number lexeme => exact isOf_of_isNumberText h
  | string content => exact Cut.isOf_string h
  | symbol name => exact isOf_of_isSymbolText h.1 h.2
  | endOfInput => exact h.elim

/-- A parenthesis, a quote mark and a string each set apart what stands in front of them. -/
theorem IsProper.delimits (h : t.IsProper) (ht : ¬ t.MayGoOn) (u : List Char) :
    Delimits (t.source ++ u) := by
  cases t with
  | leftParen | rightParen | quote | string =>
    intro c hc
    cases hc
    exact ⟨rfl, by decide⟩
  | number | symbol => exact absurd trivial ht
  | endOfInput => exact h.elim

end Token

/-- A token to be written, with the blanks in front of it. -/
structure Spaced where
  blanks : List Char
  token : Token

namespace Spaced

def chars (x : Spaced) : List Char := x.blanks ++ x.token.source

def IsProper (x : Spaced) : Prop := Blanks x.blanks ∧ x.token.IsProper

/-- A blank stands in front of the second token if both are numbers or symbols. -/
def Apart (x y : Spaced) : Prop := x.token.MayGoOn → y.token.MayGoOn → y.blanks ≠ []

variable {x : Spaced} {xs : List Spaced} {last : List Char}

/-- What is written behind a number or a symbol sets it apart. -/
theorem delimits_chars (hxs : ∀ y ∈ xs, y.IsProper) (hapart : (x :: xs).IsChain Apart)
    (hlast : Blanks last) (hx : x.token.MayGoOn) : Delimits (xs.flatMap chars ++ last) := by
  cases xs with
  | nil =>
    have hend := hlast.delimits (u := []) nofun
    rwa [List.append_nil] at hend
  | cons y xs =>
    obtain ⟨hblanks, hproper⟩ := hxs y (.head _)
    have hgap := (List.isChain_cons_cons.1 hapart).1
    rw [List.flatMap_cons, chars, List.append_assoc, List.append_assoc]
    by_cases hy : y.token.MayGoOn
    · obtain ⟨c, cs, hcs⟩ := List.exists_cons_of_ne_nil (hgap hx hy)
      rw [hcs] at hblanks ⊢
      exact delimits_of_isBlank (hblanks c (.head _)) _
    · exact hblanks.delimits (hproper.delimits hy _)

end Spaced

/-- What is written is what the scanner finds. -/
theorem Scanner.tokens_of_spaced {s : Scanner} {xs : List Spaced} {last : List Char}
    (hxs : ∀ x ∈ xs, x.IsProper) (hapart : xs.IsChain Spaced.Apart) (hlast : Blanks last)
    (h : s.rest = xs.flatMap Spaced.chars ++ last) :
    ∃ ts, s.tokens = .ok ts ∧ ts.map (·.item) = xs.map (·.token) ++ [.endOfInput] := by
  induction xs generalizing s with
  | nil =>
    have hend := next_of_blanks (s := s) (h ▸ hlast)
    exact ⟨_, tokens_of_next_end hend rfl, rfl⟩
  | cons x xs ih =>
    obtain ⟨hblanks, hproper⟩ := hxs x (.head _)
    have hmore : ∀ y ∈ xs, y.IsProper := fun y hy => hxs y (.tail _ hy)
    have hrest : s.rest = x.blanks ++ x.token.source ++ (xs.flatMap Spaced.chars ++ last) := by
      rw [h, List.flatMap_cons, Spaced.chars, List.append_assoc]
    obtain ⟨p, s', hnext, hrest'⟩ := next_of_isOf hrest hblanks hproper.isOf
      (Spaced.delimits_chars hmore hapart hlast)
    obtain ⟨ts, hts, hitems⟩ := ih hmore (List.isChain_of_isChain_cons hapart) hrest'
    refine ⟨⟨x.token, p⟩ :: ts, ?_, ?_⟩
    · rw [tokens_of_next hnext hproper.isOf.2, hts]
      rfl
    · rw [List.map_cons, hitems]
      rfl

/-- Proper tokens that are written one behind the other, with blanks wherever one likes and at least
one between two numbers or symbols, are what the scanner finds in the text, and then its end. -/
theorem scanning_undoes_writing {xs : List Spaced} {last : List Char} {source : String}
    (hxs : ∀ x ∈ xs, x.IsProper) (hapart : xs.IsChain Spaced.Apart) (hlast : Blanks last)
    (hsource : source.toList = xs.flatMap Spaced.chars ++ last) :
    ∃ ts, (Scanner.ofString source).tokens = .ok ts ∧
      ts.map (·.item) = xs.map (·.token) ++ [.endOfInput] :=
  Scanner.tokens_of_spaced hxs hapart hlast hsource

/-- A number that ends with its point, a string that looks like other tokens, and two symbols that
start with a sign; only the second of these has a number behind it. -/
private def signs : List Spaced :=
  [⟨[], .number "-1."⟩, ⟨[], .string "(2 '"⟩, ⟨[], .symbol "-x"⟩, ⟨[], .quote⟩, ⟨[], .symbol "+"⟩,
    ⟨[' '], .number "2"⟩, ⟨[], .rightParen⟩]

theorem written_signs_are_found :
    (∀ x ∈ signs, x.IsProper) ∧ signs.IsChain Spaced.Apart ∧ Blanks ['\n'] ∧
      ∃ ts, (Scanner.ofString "-1.\"(2 '\"-x'+ 2)\n").tokens = .ok ts ∧
        ts.map (·.item) = [.number "-1.", .string "(2 '", .symbol "-x", .quote, .symbol "+",
          .number "2", .rightParen, .endOfInput] := by
  have hnumber : IsNumberText "-1.".toList :=
    .negative (@IsUnsigned.point ['1'] [] (by simp) (List.forall_mem_singleton.2 rfl) nofun)
  have hstring : '"' ∉ "(2 '".toList := by decide
  have hsymbol : IsSymbolText "-x".toList ∧
      ∀ d ds, "-x".toList = '-' :: d :: ds → d.isDigit = false := by
    refine ⟨.intro rfl (List.forall_mem_singleton.2 rfl), ?_⟩
    intro d ds h
    cases h
    rfl
  have hsign : IsSymbolText "+".toList ∧
      ∀ d ds, "+".toList = '-' :: d :: ds → d.isDigit = false := ⟨.intro rfl nofun, nofun⟩
  have hwhole : IsNumberText "2".toList :=
    .positive (.whole (by simp) (List.forall_mem_singleton.2 rfl))
  have hproper : ∀ x ∈ signs, x.IsProper := by
    simp only [signs, List.forall_mem_cons]
    exact ⟨⟨nofun, hnumber⟩, ⟨nofun, hstring⟩, ⟨nofun, hsymbol⟩, ⟨nofun, trivial⟩,
      ⟨nofun, hsign⟩, ⟨by decide, hwhole⟩, ⟨nofun, trivial⟩, nofun⟩
  have hapart : signs.IsChain Spaced.Apart := by
    simp [signs, List.isChain_cons_cons, Spaced.Apart, Token.MayGoOn]
  have hlast : Blanks ['\n'] := by decide
  exact ⟨hproper, hapart, hlast, scanning_undoes_writing hproper hapart hlast rfl⟩

end ScopedLisp
