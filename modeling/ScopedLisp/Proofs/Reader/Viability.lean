import ScopedLisp.Proofs.Reader.Direct

namespace ScopedLisp

namespace ReadFault

/-- What has been read so far is wrong. -/
def IsFinal : ReadFault → Prop
  | scan (.unexpectedCharacter _) | unexpectedCloseParen => True
  | _ => False

/-- What has been read so far lacks something. -/
def IsIncomplete : ReadFault → Prop
  | scan .unterminatedString | unexpectedEndOfInput | unterminatedList => True
  | _ => False

theorem IsIncomplete.not_isFinal {fault : ReadFault} (h : fault.IsIncomplete) :
    ¬ fault.IsFinal := by
  match fault, h with
  | .scan .unterminatedString, _ | .unexpectedEndOfInput, _ | .unterminatedList, _ => exact id

end ReadFault

namespace Scanner

variable {s s' : Scanner} {frames : List Frame} {t : Placed Token} {v : Value} {e : ReadError}
  {u : List Char}

/-- Only a closing parenthesis and the end of the text can be wrong after what was read. -/
theorem fault_cases {fault : ReadFault} (h : s.next = (.ok t, s'))
    (hp : Progress.ofToken frames t.item = .error fault) :
    (t.item = .rightParen ∧ fault = .unexpectedCloseParen) ∨
      (t.item = .endOfInput ∧ fault.IsIncomplete) := by
  have houtcome := next_outcome_ok (congrArg Prod.fst h)
  obtain ⟨item, p⟩ := t
  cases item with
  | leftParen | quote | string | symbol => cases hp
  | number lexeme =>
    obtain ⟨n, hn⟩ := Option.isSome_iff_exists.1 (Cut.isSome_numeral_of_outcome houtcome)
    rw [Progress.ofToken, hn] at hp
    cases hp
  | rightParen =>
    match frames with
    | .list _ :: _ => cases hp
    | [] | .quoted :: _ =>
      cases hp
      exact .inl ⟨rfl, rfl⟩
  | endOfInput =>
    match frames with
    | .list _ :: _ | [] | .quoted :: _ =>
      cases hp
      exact .inr ⟨rfl, trivial⟩

theorem isFinal_or_isIncomplete (h : s.readValue frames = .error e) :
    e.item.IsFinal ∨ e.item.IsIncomplete := by
  fun_induction readValue frames s with
  | case1 frames s e₁ s₁ hs =>
    cases h
    obtain ⟨fault, p⟩ := e₁
    cases fault with
    | unterminatedString => exact .inr trivial
    | unexpectedCharacter c => exact .inl trivial
  | case2 frames s t s₁ hs fault hp =>
    cases h
    rcases fault_cases hs hp with ⟨-, rfl⟩ | ⟨-, hincomplete⟩
    · exact .inl trivial
    · exact .inr hincomplete
  | case3 => cases h
  | case4 frames s t s₁ hs frames' hp hlt ih => exact ih h

/-- An error at the end of the text is no final one. -/
theorem not_atEnd_of_isFinal (h : s.readValue frames = .error e) (he : e.item.IsFinal) :
    ¬ s.atEnd := by
  intro hend
  obtain ⟨p, s', hs⟩ := next_of_atEnd hend
  cases hp : Progress.ofToken frames .endOfInput with
  | error fault =>
    rw [readValue_of_fault hs hp] at h
    cases h
    rcases fault_cases hs hp with ⟨hitem, -⟩ | ⟨-, hincomplete⟩
    · cases hitem
    · exact hincomplete.not_isFinal he
  | ok progress => exact Progress.ofToken_endOfInput frames progress hp

/-- What is wrong stays wrong, and nothing is found wrong before it. -/
theorem readValue_append_of_isFinal (h : s.readValue frames = .error e) (he : e.item.IsFinal)
    (u : List Char) : (s.append u).readValue frames = .error e := by
  fun_induction readValue frames s with
  | case1 frames s e₁ s₁ hs =>
    cases h
    obtain ⟨fault, p⟩ := e₁
    cases fault with
    | unterminatedString => cases he
    | unexpectedCharacter c =>
      exact readValue_of_next_error (next_append_of_unexpected (congrArg Prod.fst hs) u)
  | case2 frames s t s₁ hs fault hp =>
    cases h
    rcases fault_cases hs hp with ⟨hclose, -⟩ | ⟨-, hincomplete⟩
    · refine readValue_of_fault (next_append_of_ok hs ?_ ?_) hp
      · simp [hclose]
      · simp [hclose, Token.MayGoOn]
    · exact absurd he hincomplete.not_isFinal
  | case3 => cases h
  | case4 frames s t s₁ hs frames' hp hlt ih =>
    have hrest := rest_ne_nil_of_not_atEnd (not_atEnd_of_isFinal h he)
    rw [readValue_of_next (next_append_of_ok hs (Progress.ne_endOfInput hp) fun _ => .inl hrest) hp]
    exact ih h

/-- A value stays the same in a longer text, unless its last token goes on. -/
theorem readValue_append (h : s.readValue frames = .ok (v, s')) (hu : s'.rest ≠ [] ∨ Delimits u) :
    (s.append u).readValue frames = .ok (v, s'.append u) := by
  fun_induction readValue frames s with
  | case1 => cases h
  | case2 => cases h
  | case3 frames s t s₁ hs w hp =>
    cases h
    exact readValue_of_next (next_append_of_ok hs (Progress.ne_endOfInput hp) fun _ => hu) hp
  | case4 frames s t s₁ hs frames' hp hlt ih =>
    have hrest := rest_ne_nil_of_not_atEnd (not_atEnd_of_readValue h)
    rw [readValue_of_next (next_append_of_ok hs (Progress.ne_endOfInput hp) fun _ => .inl hrest) hp]
    exact ih h

/-- What closes the open lists. -/
def closing : List Frame → List Char
  | [] => []
  | .list _ :: frames => ')' :: closing frames
  | .quoted :: frames => closing frames

/-- What completes the value that the open frames wait for. -/
def completion : List Frame → List Char
  | .list items :: frames => closing (.list items :: frames)
  | frames => '(' :: closing (.list [] :: frames)

theorem delimits_cons {c : Char} (h : c ∈ ['(', ')', '"']) (cs : List Char) :
    Delimits (c :: cs) := by
  intro d hd
  cases hd
  simp only [List.mem_cons, List.not_mem_nil, or_false] at h
  rcases h with rfl | rfl | rfl <;> exact ⟨rfl, by decide⟩

theorem delimits_completion (frames : List Frame) : Delimits (completion frames) := by
  match frames with
  | .list _ :: _ => exact delimits_cons (by simp) _
  | [] | .quoted :: _ => exact delimits_cons (by simp) _

theorem readValue_close (frames : List Frame) (items : List Value) {cs : List Char}
    (h : s.rest = ')' :: cs) :
    ∃ s' : Scanner, s'.rest = cs ∧ s.readValue (.list items :: frames) =
      s'.goOn (.ofValue frames (.list items.reverse)) := by
  have hcut : Cut.ofText s.rest = ⟨.ok .rightParen, [')'], cs⟩ := by rw [h]; rfl
  have hnext := next_of_ofText (by rw [h]; rintro c ⟨⟩; rfl) hcut
  exact ⟨_, rfl, readValue_of_next hnext rfl⟩

/-- With a value handed to the open frames, closing them completes them. -/
theorem goOn_closing (frames : List Frame) (v : Value) (h : s.rest = closing frames) :
    ∃ w s', s.goOn (.ofValue frames v) = .ok (w, s') ∧ s'.rest = [] := by
  induction frames generalizing s v with
  | nil => exact ⟨v, s, rfl, h⟩
  | cons frame frames ih =>
    cases frame with
    | quoted => exact ih _ h
    | list items =>
      obtain ⟨s₁, hrest, hclose⟩ := readValue_close frames (v :: items) h
      obtain ⟨w, s', hgo, hnil⟩ := ih (.list (v :: items).reverse) hrest
      exact ⟨w, s', hclose.trans hgo, hnil⟩

theorem readValue_completion (h : s.rest = completion frames) :
    ∃ w s', s.readValue frames = .ok (w, s') ∧ s'.rest = [] := by
  have hlist : ∀ {s : Scanner} {items frames}, s.rest = closing (.list items :: frames) →
      ∃ w s', s.readValue (.list items :: frames) = .ok (w, s') ∧ s'.rest = [] := by
    intro s items frames h
    obtain ⟨s₁, hrest, hclose⟩ := readValue_close frames items h
    obtain ⟨w, s', hgo, hnil⟩ := goOn_closing frames (.list items.reverse) hrest
    exact ⟨w, s', hclose.trans hgo, hnil⟩
  have hopen : s.rest = '(' :: closing (.list [] :: frames) →
      ∃ w s', s.readValue frames = .ok (w, s') ∧ s'.rest = [] := by
    intro h
    have hcut : Cut.ofText s.rest = ⟨.ok .leftParen, ['('], closing (.list [] :: frames)⟩ := by
      rw [h]
      rfl
    have hnext := next_of_ofText (by rw [h]; rintro c ⟨⟩; rfl) hcut
    rw [readValue_of_next hnext rfl]
    exact hlist rfl
  match frames with
  | .list _ :: _ => exact hlist h
  | [] => exact hopen h
  | .quoted :: _ => exact hopen h

/-- What is incomplete can be completed. -/
theorem readValue_append_of_isIncomplete (h : s.readValue frames = .error e)
    (he : e.item.IsIncomplete) :
    ∃ u v s', Delimits u ∧ (s.append u).readValue frames = .ok (v, s') ∧ s'.rest = [] := by
  fun_induction readValue frames s with
  | case1 frames s e₁ s₁ hs =>
    cases h
    obtain ⟨fault, p⟩ := e₁
    cases fault with
    | unexpectedCharacter c => cases he
    | unterminatedString =>
      obtain ⟨content, s', hnext, hrest⟩ :=
        next_append_of_unterminated (congrArg Prod.fst hs) (closing frames)
      obtain ⟨w, s'', hgo, hnil⟩ := goOn_closing frames (.string content) hrest
      refine ⟨'"' :: closing frames, w, s'', delimits_cons (by simp) _, ?_, hnil⟩
      rw [readValue_of_next hnext rfl, hgo]
  | case2 frames s t s₁ hs fault hp =>
    cases h
    rcases fault_cases hs hp with ⟨-, rfl⟩ | ⟨hend, -⟩
    · cases he
    · have hnext := next_append_of_end hs hend (completion frames)
      have hrest : (s₁.append (completion frames)).rest = completion frames := by
        rw [append, (rest_of_next_end hs hend).2]
        rfl
      obtain ⟨w, s', hread, hnil⟩ := readValue_completion hrest
      refine ⟨completion frames, w, s', delimits_completion frames, ?_, hnil⟩
      rw [readValue_eq, hnext, ← readValue_eq, hread]
  | case3 => cases h
  | case4 frames s t s₁ hs frames' hp hlt ih =>
    obtain ⟨u, v, s', hu, hread, hnil⟩ := ih h
    refine ⟨u, v, s', hu, ?_, hnil⟩
    rw [readValue_of_next (next_append_of_ok hs (Progress.ne_endOfInput hp) fun _ => .inr hu) hp]
    exact hread

theorem readValues_isFinal_or_isIncomplete {done : List Value}
    (h : s.readValues done = .error e) : e.item.IsFinal ∨ e.item.IsIncomplete := by
  fun_induction readValues done s with
  | case1 => cases h
  | case2 done s hend e' hread =>
    cases h
    exact isFinal_or_isIncomplete hread
  | case3 done s hend v s' hread hlt ih => exact ih h

theorem readValues_append_of_isFinal {done : List Value} (h : s.readValues done = .error e)
    (he : e.item.IsFinal) (u : List Char) : (s.append u).readValues done = .error e := by
  fun_induction readValues done s with
  | case1 => cases h
  | case2 done s hend e' hread =>
    cases h
    have hread' := readValue_append_of_isFinal hread he u
    rw [readValues_eq done (not_atEnd_of_isFinal hread' he), hread']
  | case3 done s hend v s' hread hlt ih =>
    have hrest : s'.rest ≠ [] := by
      refine rest_ne_nil_of_not_atEnd fun hend' => ?_
      rw [readValues_of_atEnd hend'] at h
      cases h
    have hread' := readValue_append hread (.inl hrest) (u := u)
    rw [readValues_of_readValue hread']
    exact ih h

theorem readValues_append_of_isIncomplete {done : List Value} (h : s.readValues done = .error e)
    (he : e.item.IsIncomplete) :
    ∃ u vs, Delimits u ∧ (s.append u).readValues done = .ok vs := by
  fun_induction readValues done s with
  | case1 => cases h
  | case2 done s hend e' hread =>
    cases h
    obtain ⟨u, v, s', hu, hread', hnil⟩ := readValue_append_of_isIncomplete hread he
    have hend' : s'.atEnd := atEnd_of_rest_nil hnil
    refine ⟨u, (v :: done).reverse, hu, ?_⟩
    rw [readValues_of_readValue hread']
    exact readValues_of_atEnd hend' _
  | case3 done s hend v s' hread hlt ih =>
    obtain ⟨u, vs, hu, hvs⟩ := ih h
    have hread' := readValue_append hread (.inr hu)
    refine ⟨u, vs, hu, ?_⟩
    rw [readValues_of_readValue hread']
    exact hvs

end Scanner

/-- Every error with which a text cannot be read is final or says that the text is incomplete. With
a final one no longer text can be read either, and the error stays the same; an incomplete text
begins one that can be read. -/
def ErrorsTell {α : Type} (read : String → Except ReadError α) : Prop :=
  ∀ source e, read source = .error e →
    (e.item.IsFinal → ∀ more, read (source ++ more) = .error e) ∧
    (e.item.IsIncomplete → ∃ more outcome, read (source ++ more) = .ok outcome) ∧
    (e.item.IsFinal ∨ e.item.IsIncomplete)

theorem Scanner.ofString_append (source more : String) :
    Scanner.ofString (source ++ more) = (Scanner.ofString source).append more.toList := by
  rw [Scanner.ofString, String.toList_append]
  rfl

theorem errorsTell_readAll : ErrorsTell readAll := by
  intro source e h
  rw [readAll_eq] at h
  refine ⟨fun he more => ?_, fun he => ?_, Scanner.readValues_isFinal_or_isIncomplete h⟩
  · rw [readAll_eq, Scanner.ofString_append]
    exact Scanner.readValues_append_of_isFinal h he _
  · obtain ⟨u, vs, -, hvs⟩ := Scanner.readValues_append_of_isIncomplete h he
    refine ⟨String.ofList u, vs, ?_⟩
    rw [readAll_eq, Scanner.ofString_append, String.toList_ofList, hvs]

theorem errorsTell_readOne : ErrorsTell readOne := by
  intro source e h
  rcases readOne_eq_error_iff.1 h with hread | ⟨v, s, hread, hnext⟩
  · refine ⟨fun he more => ?_, fun he => ?_, Scanner.isFinal_or_isIncomplete hread⟩
    · rw [readOne_eq_error_iff, Scanner.ofString_append]
      exact .inl (Scanner.readValue_append_of_isFinal hread he _)
    · obtain ⟨u, w, s', -, hread', hnil⟩ := Scanner.readValue_append_of_isIncomplete hread he
      have hend : s'.atEnd := Scanner.atEnd_of_rest_nil hnil
      obtain ⟨p, s₁, hs₁⟩ := Scanner.next_of_atEnd hend
      refine ⟨String.ofList u, w, readOne_eq_ok_iff.2 ⟨s', ⟨s₁, ⟨.endOfInput, p⟩⟩, ?_, ?_⟩⟩
      · rw [Scanner.ofString_append, String.toList_ofList, hread']
      · exact Reader.ofScanner_eq_ok_iff.2 hs₁
  -- The value is there, and it is the token after it that is wrong.
  · obtain ⟨⟨fault, p⟩, hs, rfl⟩ := Reader.ofScanner_eq_error_iff.1 hnext
    have hrest : s.rest ≠ [] := by
      refine Scanner.rest_ne_nil_of_not_atEnd fun hend => ?_
      obtain ⟨q, s₁, hs₁⟩ := Scanner.next_of_atEnd hend
      rw [hs₁] at hs
      cases hs
    have hread' (u : List Char) := Scanner.readValue_append hread (.inl hrest) (u := u)
    cases fault with
    | unexpectedCharacter c =>
      refine ⟨fun he more => ?_, False.elim, .inl trivial⟩
      rw [readOne_eq_error_iff, Scanner.ofString_append]
      refine .inr ⟨v, _, hread' _, ?_⟩
      exact Reader.ofScanner_eq_error_iff.2 ⟨_, Scanner.next_append_of_unexpected hs _, rfl⟩
    | unterminatedString =>
      refine ⟨False.elim, fun he => ?_, .inr trivial⟩
      obtain ⟨content, s', hs', -⟩ := Scanner.next_append_of_unterminated hs []
      refine ⟨"\"", v, readOne_eq_ok_iff.2 ⟨_, ⟨s', _⟩, ?_, Reader.ofScanner_eq_ok_iff.2 hs'⟩⟩
      rw [Scanner.ofString_append]
      exact hread' _

theorem reader_error_tells_incomplete_from_wrong : ErrorsTell readAll ∧ ErrorsTell readOne :=
  ⟨errorsTell_readAll, errorsTell_readOne⟩

/-- The text ends between a quote mark and the end of a list; a closing parenthesis there makes it
wrong for good. -/
theorem quote_mark_before_end_tells :
    readOne "(a '" = .error ⟨.unexpectedEndOfInput, ⟨1, 5⟩⟩ ∧
      (∃ more v, readOne ("(a '" ++ more) = .ok v) ∧
    readOne "(a ')" = .error ⟨.unexpectedCloseParen, ⟨1, 5⟩⟩ ∧
      ∀ more, readOne ("(a ')" ++ more) = .error ⟨.unexpectedCloseParen, ⟨1, 5⟩⟩ := by
  have hquote (cs : List Char) : Scanner.readValue [] ⟨'(' :: 'a' :: ' ' :: '\'' :: cs, ⟨1, 1⟩⟩ =
      Scanner.readValue [.quoted, .list [.symbol "a"]] ⟨cs, ⟨1, 5⟩⟩ := by
    calc _ = Scanner.readValue [.list []] ⟨'a' :: ' ' :: '\'' :: cs, ⟨1, 2⟩⟩ :=
          Scanner.readValue_of_next (p := .within _) rfl rfl
      _ = Scanner.readValue [.list [.symbol "a"]] ⟨' ' :: '\'' :: cs, ⟨1, 3⟩⟩ :=
          Scanner.readValue_of_next (p := .within _) rfl rfl
      _ = _ := Scanner.readValue_of_next (p := .within _) rfl rfl
  have hopen : readOne "(a '" = .error ⟨.unexpectedEndOfInput, ⟨1, 5⟩⟩ :=
    readOne_eq_error_iff.2 <| .inl <| (hquote []).trans <|
      Scanner.readValue_of_fault (t := ⟨.endOfInput, ⟨1, 5⟩⟩) rfl rfl
  have hclosed : readOne "(a ')" = .error ⟨.unexpectedCloseParen, ⟨1, 5⟩⟩ :=
    readOne_eq_error_iff.2 <| .inl <| (hquote [')']).trans <|
      Scanner.readValue_of_fault (t := ⟨.rightParen, ⟨1, 5⟩⟩) rfl rfl
  obtain ⟨-, htells⟩ := reader_error_tells_incomplete_from_wrong
  exact ⟨hopen, (htells _ _ hopen).2.1 trivial, hclosed, (htells _ _ hclosed).1 trivial⟩

end ScopedLisp
