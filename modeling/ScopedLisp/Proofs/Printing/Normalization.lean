import ScopedLisp.Proofs.Printing.Marks
import ScopedLisp.Proofs.Reader.Acceptance

namespace ScopedLisp

/-- What is written for a token that is a datum by itself. -/
def Token.normalChars : Token → List Char
  | number lexeme =>
    match Numeral.ofChars? lexeme.toList with
    | some n => Layout.display.write n.value
    | none => []
  | symbol name =>
    if name = "t" then ['T'] else if name = "nil" then ['N', 'I', 'L'] else name.toList
  | t => t.source

/-- The marks that the tokens are rewritten to. Of the quote marks whose data have not yet ended,
`quotes` stand right in front, and `outer` counts those in front of each open parenthesis. -/
def normalMarks (quotes : Nat) (outer : List Nat) : List Token → List Mark
  | .quote :: ts =>
    .opening :: .atom SpecialForm.quote.name.toList :: normalMarks (quotes + 1) outer ts
  | .leftParen :: .rightParen :: ts =>
    .atom ['N', 'I', 'L'] :: (List.replicate quotes .closing ++ normalMarks 0 outer ts)
  | .leftParen :: ts => .opening :: normalMarks 0 (quotes :: outer) ts
  | .rightParen :: ts =>
    match outer with
    | [] => []
    | quotes :: outer =>
      .closing :: (List.replicate quotes .closing ++ normalMarks 0 outer ts)
  | .endOfInput :: _ => []
  | t :: ts => .atom t.normalChars :: (List.replicate quotes .closing ++ normalMarks 0 outer ts)
  | [] => []

/-- A space, if something stands in front that it has to set apart. -/
def gapIf (apart : Bool) : List Char := if apart then [' '] else []

/-- The marks with one space between consecutive elements, none after an opening parenthesis and
none before a closing one. -/
def spacedChars (apart : Bool) : List Mark → List Char
  | [] => []
  | .opening :: ms => gapIf apart ++ '(' :: spacedChars false ms
  | .closing :: ms => ')' :: spacedChars true ms
  | .gap :: ms => ' ' :: spacedChars false ms
  | .atom text :: ms => gapIf apart ++ text ++ spacedChars true ms

/-- What the tokens are rewritten to. -/
def normalText (ts : List Token) : String := String.ofList (spacedChars false (normalMarks 0 [] ts))

theorem chars_list_cons (v : Value) (vs : List Value) :
    (Value.list (v :: vs)).chars = '(' :: v.chars ++ (Value.list vs).tailChars :=
  Value.chars_pair v (.list vs)

theorem tailChars_list_cons (v : Value) (vs : List Value) :
    (Value.list (v :: vs)).tailChars = ' ' :: v.chars ++ (Value.list vs).tailChars :=
  Value.tailChars_pair v (.list vs)

theorem Token.normalChars_symbol (name : String) :
    (Token.symbol name).normalChars = (Progress.ofSymbol name).chars := by
  rw [Token.normalChars, Progress.ofSymbol]
  by_cases ht : name = "t"
  · rw [if_pos ht, if_pos ht]
    rfl
  · rw [if_neg ht, if_neg ht]
    by_cases hnil : name = "nil"
    · rw [if_pos hnil, if_pos hnil]
      rfl
    · rw [if_neg hnil, if_neg hnil]
      exact (chars_symbol name).symm

theorem spacedChars_closings (quotes : Nat) (ms : List Mark) :
    spacedChars true (List.replicate (quotes + 1) .closing ++ ms) =
      ')' :: spacedChars true (List.replicate quotes .closing ++ ms) := rfl

/-- An empty list is written as nil, any other parenthesis as itself. -/
theorem normalMarks_open (quotes : Nat) (outer : List Nat) {t : Token} (ht : t ≠ .rightParen)
    (ts : List Token) : normalMarks quotes outer (.leftParen :: t :: ts) =
      .opening :: normalMarks 0 (quotes :: outer) (t :: ts) := by
  cases t with
  | rightParen => exact absurd rfl ht
  | _ => rfl

namespace Datum

mutual

/-- The tokens of a datum are rewritten to the printed form of its value, and then the lists of the
quote marks right in front of it are closed. -/
theorem spacedChars_datum : ∀ (d : Datum) {v : Value} (quotes : Nat) (outer : List Nat)
    (apart : Bool) (us : List Token), d.reading = some v →
      spacedChars apart (normalMarks quotes outer (d.tokens ++ us)) = gapIf apart ++ v.chars ++
        spacedChars true (List.replicate quotes .closing ++ normalMarks 0 outer us)
  | .number lexeme, v, quotes, outer, apart, us, hv => by
    obtain ⟨n, hn, rfl⟩ := Option.map_eq_some_iff.1 hv
    have hword : (Token.number lexeme).normalChars = (Value.number n.value).chars := by
      rw [Token.normalChars, hn, chars_number]
    rw [← hword]
    rfl
  | .string content, v, quotes, outer, apart, us, hv => by
    cases hv
    have hword : (Token.string content).normalChars = (Value.string content).chars :=
      (List.append_nil _).symm
    rw [← hword]
    rfl
  | .symbol name, v, quotes, outer, apart, us, hv => by
    rw [Reader.reading_symbol] at hv
    cases hv
    rw [← Token.normalChars_symbol]
    rfl
  | .quoted d, v, quotes, outer, apart, us, hv => by
    obtain ⟨w, hw, rfl⟩ := Option.map_eq_some_iff.1 hv
    have hmarks : normalMarks quotes outer ((Datum.quoted d).tokens ++ us) =
        .opening :: .atom SpecialForm.quote.name.toList ::
          normalMarks (quotes + 1) outer (d.tokens ++ us) := rfl
    have hchars : (Value.list [.symbol "quote", w]).chars =
        '(' :: SpecialForm.quote.name.toList ++ (' ' :: w.chars ++ [')']) := by
      rw [chars_list_cons, tailChars_list_cons, chars_symbol]
      rfl
    rw [hmarks, spacedChars, spacedChars, spacedChars_datum d (quotes + 1) outer true us hw,
      spacedChars_closings, hchars]
    simp [gapIf]
  | .list ds, v, quotes, outer, apart, us, hv => by
    obtain ⟨vs, hvs, rfl⟩ := Option.map_eq_some_iff.1 hv
    have htokens : (Datum.list ds).tokens ++ us =
        .leftParen :: (allTokens ds ++ .rightParen :: us) := by
      rw [tokens, List.cons_append, List.append_assoc]
      rfl
    rw [htokens]
    match ds, vs, hvs with
    | [], _, rfl => rfl
    | d :: ds, _, hvs =>
      obtain ⟨v, ws, hd, hws, rfl⟩ := allReadings_cons_eq_some_iff.1 hvs
      obtain ⟨t, more, hfirst, ht, -⟩ := d.tokens_eq_cons
      have hopen : normalMarks quotes outer (.leftParen :: (d.tokens ++ (allTokens ds ++
          .rightParen :: us))) = .opening :: normalMarks 0 (quotes :: outer) (d.tokens ++
            (allTokens ds ++ .rightParen :: us)) := by
        rw [hfirst, List.cons_append, normalMarks_open quotes outer ht]
      have hhead := spacedChars_datum d 0 (quotes :: outer) false
        (allTokens ds ++ .rightParen :: us) hd
      rw [allTokens, List.append_assoc, hopen, spacedChars, hhead, chars_list_cons]
      have htail := spacedChars_data ds quotes outer us hws
      simp [gapIf, htail]

/-- The elements of a list but the first, and its end. -/
theorem spacedChars_data : ∀ (ds : List Datum) {vs : List Value} (quotes : Nat) (outer : List Nat)
    (us : List Token), allReadings ds = some vs →
      spacedChars true (normalMarks 0 (quotes :: outer) (allTokens ds ++ .rightParen :: us)) =
        (Value.list vs).tailChars ++
          spacedChars true (List.replicate quotes .closing ++ normalMarks 0 outer us)
  | [], vs, quotes, outer, us, hvs => by
    cases hvs
    rfl
  | d :: ds, vs, quotes, outer, us, hvs => by
    obtain ⟨v, ws, hv, hws, rfl⟩ := allReadings_cons_eq_some_iff.1 hvs
    have hfirst := spacedChars_datum d 0 (quotes :: outer) true (allTokens ds ++ .rightParen :: us)
      hv
    have hrest := spacedChars_data ds quotes outer us hws
    rw [allTokens, List.append_assoc, hfirst, tailChars_list_cons]
    simp [gapIf, hrest]

end

/-- At the end of the text, every further value stands after one space. -/
theorem spacedChars_allTokens {ds : List Datum} {vs : List Value} (h : allReadings ds = some vs) :
    spacedChars true (normalMarks 0 [] (allTokens ds ++ [.endOfInput])) =
      vs.flatMap fun v => ' ' :: v.chars := by
  induction ds generalizing vs with
  | nil =>
    cases h
    rfl
  | cons d ds ih =>
    obtain ⟨v, ws, hv, hws, rfl⟩ := allReadings_cons_eq_some_iff.1 h
    rw [allTokens, List.append_assoc, spacedChars_datum d 0 [] true _ hv, List.flatMap_cons,
      ← ih hws]
    rfl

end Datum

theorem toList_intercalate_text (v : Value) (vs : List Value) :
    (" ".intercalate ((v :: vs).map Value.text)).toList =
      v.chars ++ vs.flatMap fun w => ' ' :: w.chars := by
  induction vs generalizing v with
  | nil => simp [Value.text]
  | cons w vs ih =>
    rw [List.map_cons, List.map_cons, String.intercalate_cons_cons, String.toList_append,
      String.toList_append, ← List.map_cons, ih w, List.flatMap_cons, Value.text,
      String.toList_ofList, List.append_assoc]
    rfl

/-- What is printed for the values of a text, with spaces between them, is its tokens rewritten. -/
theorem printing_normalizes_tokens {source : String} {vs : List Value}
    (h : readAll source = .ok vs) : ∃ ts, (Scanner.ofString source).tokens = .ok ts ∧
      " ".intercalate (vs.map Value.text) = normalText (ts.map (·.item)) := by
  obtain ⟨ds, ⟨ts, htokens, hitems⟩, hvs⟩ := (readAll_eq_ok_iff source vs).1 h
  refine ⟨ts, htokens, String.toList_inj.1 ?_⟩
  rw [normalText, String.toList_ofList, hitems]
  cases ds with
  | nil =>
    cases hvs
    rfl
  | cons d ds =>
    obtain ⟨v, ws, hv, hws, rfl⟩ := Datum.allReadings_cons_eq_some_iff.1 hvs
    rw [Datum.allTokens, List.append_assoc, Datum.spacedChars_datum d 0 [] false _ hv,
      toList_intercalate_text, ← Datum.spacedChars_allTokens hws]
    rfl

/-- Quote marks of which one stands inside the other, an empty list, a constant and a number with a
digit to spare. -/
private def quotedTwice : String := "'('t () \"a  b\")\n-0.50"

private def quotedTwiceTokens : List (Placed Token) :=
  [⟨.quote, ⟨1, 1⟩⟩, ⟨.leftParen, ⟨1, 2⟩⟩, ⟨.quote, ⟨1, 3⟩⟩, ⟨.symbol "t", ⟨1, 4⟩⟩,
    ⟨.leftParen, ⟨1, 6⟩⟩, ⟨.rightParen, ⟨1, 7⟩⟩, ⟨.string "a  b", ⟨1, 9⟩⟩,
    ⟨.rightParen, ⟨1, 15⟩⟩, ⟨.number "-0.50", ⟨2, 1⟩⟩, ⟨.endOfInput, ⟨2, 6⟩⟩]

theorem tokens_quotedTwice :
    (Scanner.ofString quotedTwice).tokens = .ok quotedTwiceTokens := by
  have hquote : (Scanner.ofString quotedTwice).next =
      (.ok ⟨.quote, ⟨1, 1⟩⟩, ⟨"('t () \"a  b\")\n-0.50".toList, ⟨1, 2⟩⟩) := rfl
  have hopen : Scanner.next ⟨"('t () \"a  b\")\n-0.50".toList, ⟨1, 2⟩⟩ =
      (.ok ⟨.leftParen, ⟨1, 2⟩⟩, ⟨"'t () \"a  b\")\n-0.50".toList, ⟨1, 3⟩⟩) := rfl
  have hinner : Scanner.next ⟨"'t () \"a  b\")\n-0.50".toList, ⟨1, 3⟩⟩ =
      (.ok ⟨.quote, ⟨1, 3⟩⟩, ⟨"t () \"a  b\")\n-0.50".toList, ⟨1, 4⟩⟩) := rfl
  have hconstant : Scanner.next ⟨"t () \"a  b\")\n-0.50".toList, ⟨1, 4⟩⟩ =
      (.ok ⟨.symbol "t", ⟨1, 4⟩⟩, ⟨" () \"a  b\")\n-0.50".toList, ⟨1, 5⟩⟩) := rfl
  have hempty : Scanner.next ⟨" () \"a  b\")\n-0.50".toList, ⟨1, 5⟩⟩ =
      (.ok ⟨.leftParen, ⟨1, 6⟩⟩, ⟨") \"a  b\")\n-0.50".toList, ⟨1, 7⟩⟩) := rfl
  have hclosed : Scanner.next ⟨") \"a  b\")\n-0.50".toList, ⟨1, 7⟩⟩ =
      (.ok ⟨.rightParen, ⟨1, 7⟩⟩, ⟨" \"a  b\")\n-0.50".toList, ⟨1, 8⟩⟩) := rfl
  have hstring : Scanner.next ⟨" \"a  b\")\n-0.50".toList, ⟨1, 8⟩⟩ =
      (.ok ⟨.string "a  b", ⟨1, 9⟩⟩, ⟨")\n-0.50".toList, ⟨1, 15⟩⟩) := rfl
  have hclose : Scanner.next ⟨")\n-0.50".toList, ⟨1, 15⟩⟩ =
      (.ok ⟨.rightParen, ⟨1, 15⟩⟩, ⟨"\n-0.50".toList, ⟨1, 16⟩⟩) := rfl
  have hnumber : Scanner.next ⟨"\n-0.50".toList, ⟨1, 16⟩⟩ =
      (.ok ⟨.number "-0.50", ⟨2, 1⟩⟩, ⟨[], ⟨2, 6⟩⟩) := rfl
  have hend : Scanner.next ⟨[], ⟨2, 6⟩⟩ = (.ok ⟨.endOfInput, ⟨2, 6⟩⟩, ⟨[], ⟨2, 6⟩⟩) := rfl
  rw [Scanner.tokens_of_next hquote nofun, Scanner.tokens_of_next hopen nofun,
    Scanner.tokens_of_next hinner nofun, Scanner.tokens_of_next hconstant nofun,
    Scanner.tokens_of_next hempty nofun, Scanner.tokens_of_next hclosed nofun,
    Scanner.tokens_of_next hstring nofun, Scanner.tokens_of_next hclose nofun,
    Scanner.tokens_of_next hnumber nofun, Scanner.tokens_of_next_end hend rfl]
  rfl

theorem nested_quotes_normalized : ∃ vs, readAll quotedTwice = .ok vs ∧
    " ".intercalate (vs.map Value.text) = "(quote ((quote T) NIL \"a  b\")) -0.5" := by
  have hnumeral : Numeral.ofChars? "-0.50".toList = some ⟨true, 50, -2⟩ := by decide
  have hnumber : (Datum.number "-0.50").reading =
      some (.number (Numeral.mk true 50 (-2)).value) := by
    rw [Datum.reading, hnumeral]
    rfl
  have hreadings : Datum.allReadings
      [.quoted (.list [.quoted (.symbol "t"), .list [], .string "a  b"]), .number "-0.50"] = some
        [.list [.symbol "quote", .list [.list [.symbol "quote", .boolean true], .nil,
          .string "a  b"]], .number (Numeral.mk true 50 (-2)).value] :=
    Datum.allReadings_cons_eq_some_iff.2 ⟨_, _, rfl,
      Datum.allReadings_cons_eq_some_iff.2 ⟨_, _, hnumber, rfl, rfl⟩, rfl⟩
  have hread := (readAll_eq_ok_iff quotedTwice _).2 ⟨_, ⟨_, tokens_quotedTwice, rfl⟩, hreadings⟩
  obtain ⟨ts, hts, htext⟩ := printing_normalizes_tokens hread
  rw [tokens_quotedTwice] at hts
  cases hts
  exact ⟨_, hread, htext.trans (by decide +kernel)⟩

end ScopedLisp
