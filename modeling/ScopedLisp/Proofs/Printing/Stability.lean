import ScopedLisp.Proofs.Printing.Recovery

namespace ScopedLisp

namespace Value

/-- The atoms that a reader makes. -/
inductive IsRead : Value → Prop
  | number (x : Float) : IsRead (.number x)
  | string {content : String} (h : '"' ∉ content.toList) : IsRead (.string content)
  | symbol {name : String} (h : IsFound name) (ht : name ≠ "t") (hnil : name ≠ "nil") :
    IsRead (.symbol name)
  | true : IsRead (.boolean true)
  | nil : IsRead .nil

theorem made_list {items : List Value} (h : ∀ v ∈ items, v.Made IsRead) :
    (list items).Made IsRead := by
  cases items with
  | nil => exact .atom .nil
  | cons v items => exact .list h

end Value

theorem isFound_quote : IsFound SpecialForm.quote.name :=
  ⟨⟨"quote".toList, .start⟩, .start, ⟨[], ⟨1, 6⟩⟩, rfl⟩

/-- All that the frames hold was read. -/
def Frames.Read (frames : List Frame) : Prop :=
  ∀ items, .list items ∈ frames → ∀ v ∈ items, v.Made Value.IsRead

theorem Frames.read_nil : Frames.Read [] := fun _ hitems => absurd hitems List.not_mem_nil

namespace Progress

/-- What was read so far was made by a reader. -/
def Read : Progress → Prop
  | done v => v.Made Value.IsRead
  | within frames => Frames.Read frames

theorem read_ofValue {frames : List Frame} (hframes : Frames.Read frames) {v : Value}
    (hv : v.Made Value.IsRead) : (ofValue frames v).Read := by
  induction frames generalizing v with
  | nil => exact hv
  | cons frame frames ih =>
    have houter : Frames.Read frames := fun items hitems => hframes items (.tail _ hitems)
    cases frame with
    | quoted =>
      refine ih houter (.list ?_)
      rintro w (_ | ⟨_, _ | ⟨_, ⟨⟩⟩⟩)
      · exact .atom (.symbol isFound_quote (by decide) (by decide))
      · exact hv
    | list items =>
      intro items' hitems w hw
      rcases List.mem_cons.1 hitems with heq | hitems
      · cases heq
        rcases List.mem_cons.1 hw with rfl | hw
        · exact hv
        · exact hframes items (.head _) w hw
      · exact houter items' hitems w hw

theorem read_ofSymbol {name : String} (h : IsFound name) : (ofSymbol name).Made Value.IsRead := by
  unfold ofSymbol
  split
  · exact .atom .true
  · next ht =>
    split
    · exact .atom .nil
    · next hnil => exact .atom (.symbol h ht hnil)

/-- A token of a text lets only what readers make into the frames. -/
theorem read_ofToken {s s' : Scanner} {t : Placed Token} (hs : s.next = (.ok t, s'))
    {frames : List Frame} (hframes : Frames.Read frames) {p : Progress}
    (h : ofToken frames t.item = .ok p) : p.Read := by
  obtain ⟨item, place⟩ := t
  cases item with
  | leftParen =>
    cases h
    intro items hitems v hv
    rcases List.mem_cons.1 hitems with heq | hitems
    · cases heq
      cases hv
    · exact hframes items hitems v hv
  | quote =>
    cases h
    intro items hitems
    rcases List.mem_cons.1 hitems with heq | hitems
    · cases heq
    · exact hframes items hitems
  | number lexeme =>
    unfold ofToken at h
    dsimp only at h
    split at h
    · cases h
      exact read_ofValue hframes (.atom (.number _))
    · cases h
  | string content =>
    cases h
    have hcontent := Cut.not_mem_of_string (Scanner.next_outcome_ok (congrArg Prod.fst hs))
    exact read_ofValue hframes (.atom (.string hcontent))
  | symbol name =>
    cases h
    exact read_ofValue hframes (read_ofSymbol ⟨s, place, s', hs⟩)
  | rightParen =>
    match frames with
    | .list items :: outer =>
      cases h
      refine read_ofValue (fun items' hitems => hframes items' (.tail _ hitems)) ?_
      exact Value.made_list fun v hv => hframes items (.head _) v (List.mem_reverse.1 hv)
    | [] | .quoted :: _ => cases h
  | endOfInput => exact absurd h (ofToken_endOfInput frames p)

end Progress

/-- Values that are read have no other atoms than readers make. -/
theorem made_of_readValue {frames : List Frame} {s s' : Scanner} {v : Value}
    (h : s.readValue frames = .ok (v, s')) (hframes : Frames.Read frames) :
    v.Made Value.IsRead := by
  fun_induction Scanner.readValue frames s with
  | case1 => cases h
  | case2 => cases h
  | case3 frames s t s₁ hs w hp =>
    cases h
    exact Progress.read_ofToken hs hframes hp
  | case4 frames s t s₁ hs frames' hp hlt ih => exact ih h (Progress.read_ofToken hs hframes hp)

theorem made_of_readOne {source : String} {v : Value} (h : readOne source = .ok v) :
    v.Made Value.IsRead := by
  obtain ⟨s, r, hread, -⟩ := readOne_eq_ok_iff.1 h
  exact made_of_readValue hread Frames.read_nil

/-- Equal numbers are printed alike. -/
theorem write_congr {x y : Float} (h : x == y) :
    Layout.display.write x = Layout.display.write y := by
  obtain ⟨-, -, rfl | ⟨rfl, rfl⟩ | ⟨rfl, rfl⟩⟩ := Float.beq_iff_ne_nan_and_eq.1 h
  · rfl
  · decide +kernel
  · decide +kernel

theorem chars_list {vs ws : List Value} (h : List.Forall₂ (fun w v => w.chars = v.chars) ws vs) :
    (Value.list ws).chars = (Value.list vs).chars := by
  have htail : ∀ {ws vs : List Value}, List.Forall₂ (fun w v => w.chars = v.chars) ws vs →
      (Value.list ws).tailChars = (Value.list vs).tailChars := by
    intro ws vs h
    induction h with
    | nil => rfl
    | cons hhead _ ih =>
      rw [Value.list_cons, Value.list_cons, Value.tailChars_pair, Value.tailChars_pair, hhead, ih]
  cases h with
  | nil => rfl
  | cons hhead hrest =>
    rw [Value.list_cons, Value.list_cons, Value.chars_pair, Value.chars_pair, hhead, htail hrest]

/-- Every number printed without an exponent is one token; what is no number or infinite is printed
like a symbol. -/
theorem reread_any_number {x : Float} (hexponent : 'e' ∉ Layout.display.write x) :
    ∃ t w, t.IsOf (Layout.display.write x) ∧
      (∀ frames, Progress.ofToken frames t = .ok (.ofValue frames w)) ∧
        w.chars = (Value.number x).chars := by
  have hword : ∀ name : String, Layout.display.write x = name.toList →
      (Token.symbol name).IsOf name.toList → name ≠ "t" → name ≠ "nil" →
      ∃ t w, t.IsOf (Layout.display.write x) ∧
        (∀ frames, Progress.ofToken frames t = .ok (.ofValue frames w)) ∧
          w.chars = (Value.number x).chars := by
    intro name hwrite hname ht hnil
    rw [chars_number, hwrite]
    exact ⟨_, .symbol name, hname, Progress.ofToken_symbol ht hnil, chars_symbol name⟩
  cases hx : BinaryForm.ofFloat x with
  | notANumber =>
    refine hword "NaN" ?_ ⟨rfl, nofun⟩ (by decide) (by decide)
    rw [Layout.write, hx]
  | infinite negative =>
    cases negative with
    | false =>
      refine hword "+Inf" ?_ ⟨rfl, nofun⟩ (by decide) (by decide)
      rw [Layout.write, hx]
      rfl
    | true =>
      refine hword "-Inf" ?_ ⟨rfl, nofun⟩ (by decide) (by decide)
      rw [Layout.write, hx]
      rfl
  | finite negative m e =>
    obtain ⟨t, y, ht, hread, hvalue⟩ := reread_number hx hexponent
    refine ⟨t, .number y, ht, hread, ?_⟩
    rw [chars_number, chars_number, write_congr hvalue]

theorem rereads_read :
    Rereads (fun v => v.IsRead ∧ ∀ x, v = .number x → 'e' ∉ Layout.display.write x)
      fun w v => w.chars = v.chars where
  atom := by
    rintro v ⟨hv, hexponent⟩
    cases hv with
    | number x => exact ⟨nofun, reread_any_number (hexponent x rfl)⟩
    | @string content h =>
      exact ⟨nofun, _, .string content, Cut.isOf_string h, fun _ => rfl, rfl⟩
    | @symbol name h ht hnil =>
      obtain ⟨s, p, s', hnext⟩ := h
      exact ⟨nofun, _, .symbol name, Scanner.isOf_of_next_symbol hnext,
        Progress.ofToken_symbol ht hnil, rfl⟩
    | true => exact ⟨nofun, _, .symbol "T", ⟨rfl, nofun⟩, fun _ => rfl, rfl⟩
    | nil => exact ⟨nofun, _, .symbol "NIL", ⟨rfl, nofun⟩, fun _ => rfl, rfl⟩
  list _ _ h := chars_list h

/-- The printed form of what was read is stable, unless it has a number with an exponent. -/
theorem printed_form_is_stable {source : String} {v : Value} (h : readOne source = .ok v)
    (hexponent : ∀ x, (Value.number x).PartOf v → 'e' ∉ Layout.display.write x) :
    ∃ w, readOne v.text = .ok w ∧ w.text = v.text := by
  have hmade : v.Made fun w => w.IsRead ∧ ∀ x, w = .number x → 'e' ∉ Layout.display.write x :=
    (made_of_readOne h).mono fun w hw hread => ⟨hread, fun x heq => hexponent x (heq ▸ hw)⟩
  have hlaid : v.LaidOut v.text.toList := by
    rw [Value.text, String.toList_ofList]
    exact v.laidOut_chars
  obtain ⟨w, -, hread, hchars⟩ := read_of_laidOut rereads_read hmade hlaid
  exact ⟨w, hread, congrArg String.ofList hchars⟩

/-- A quote mark, a constant and a number that is no integer. -/
theorem quoted_constant_is_stable : ∃ v, readOne "('t -0.5)" = .ok v ∧
    v.text = "((quote T) -0.5)" ∧ ∃ w, readOne "((quote T) -0.5)" = .ok w ∧
      w.text = "((quote T) -0.5)" := by
  have hnumeral : Numeral.ofChars? "-0.5".toList = some ⟨true, 5, -1⟩ := by decide
  have hnumber : Progress.ofToken [.list [.list [.symbol "quote", .boolean true]]]
      (.number "-0.5") = .ok (.within [.list [.number (Numeral.mk true 5 (-1)).value,
        .list [.symbol "quote", .boolean true]]]) := Progress.ofToken_number hnumeral _
  have hsource : Scanner.ofString "('t -0.5)" =
      ⟨['(', '\'', 't', ' ', '-', '0', '.', '5', ')'], ⟨1, 1⟩⟩ := rfl
  have hread : (Scanner.ofString "('t -0.5)").readValue [] = .ok (.list
      [.list [.symbol "quote", .boolean true], .number (Numeral.mk true 5 (-1)).value],
        ⟨[], ⟨1, 10⟩⟩) := by
    rw [hsource]
    calc _ = Scanner.readValue [.list []] ⟨['\'', 't', ' ', '-', '0', '.', '5', ')'], ⟨1, 2⟩⟩ :=
          Scanner.readValue_of_next (p := .within _) rfl rfl
      _ = Scanner.readValue [.quoted, .list []] ⟨['t', ' ', '-', '0', '.', '5', ')'], ⟨1, 3⟩⟩ :=
          Scanner.readValue_of_next (p := .within _) rfl rfl
      _ = Scanner.readValue [.list [.list [.symbol "quote", .boolean true]]]
          ⟨[' ', '-', '0', '.', '5', ')'], ⟨1, 4⟩⟩ :=
          Scanner.readValue_of_next (p := .within _) rfl rfl
      _ = Scanner.readValue [.list [.number (Numeral.mk true 5 (-1)).value,
          .list [.symbol "quote", .boolean true]]] ⟨[')'], ⟨1, 9⟩⟩ :=
          Scanner.readValue_of_next (p := .within _) rfl hnumber
      _ = _ := Scanner.readValue_of_next (p := .done _) rfl rfl
  have hone := readOne_eq_ok_iff.2 ⟨_, ⟨⟨[], ⟨1, 10⟩⟩, ⟨.endOfInput, ⟨1, 10⟩⟩⟩, hread, rfl⟩
  have htext : (Value.list [.list [.symbol "quote", .boolean true],
      .number (Numeral.mk true 5 (-1)).value]).text = "((quote T) -0.5)" := by decide +kernel
  refine ⟨_, hone, htext, ?_⟩
  rw [← htext]
  refine printed_form_is_stable hone fun x hx => ?_
  have hatom {v : Value} (h : (Value.number x).PartOf v) (hv : v.kind ≠ .pair) : .number x = v :=
    (Value.partOf_atom hv).1 h
  simp only [Value.list_cons, Value.list_nil, Value.partOf_pair, reduceCtorEq, false_or] at hx
  rcases hx with (h | h | h) | h | h
  · cases hatom h nofun
  · cases hatom h nofun
  · cases hatom h nofun
  · cases hatom h nofun
    decide +kernel
  · cases hatom h nofun

theorem readOne_number {source lexeme : String} {n : Numeral} {p : Position} {s s' : Scanner}
    {t : Placed Token} (hs : (Scanner.ofString source).next = (.ok ⟨.number lexeme, p⟩, s))
    (ht : s.next = (.ok t, s')) (hn : Numeral.ofChars? lexeme.toList = some n) :
    readOne source = .ok (.number n.value) := by
  have hread : (Scanner.ofString source).readValue [] = .ok (.number n.value, s) :=
    Scanner.readValue_of_next hs (Progress.ofToken_number hn [])
  exact readOne_eq_ok_iff.2 ⟨s, ⟨s', t⟩, hread, Reader.ofScanner_eq_ok_iff.2 ht⟩

/-- A small number is printed with an exponent, of which only the digits before it are read. -/
theorem small_number_not_stable : ∃ v, readOne "0.00001" = .ok v ∧
    ¬∃ w, readOne v.text = .ok w ∧ w.text = v.text := by
  have hread : readOne "0.00001" = .ok (.number (Numeral.mk false 1 (-5)).value) :=
    readOne_number rfl rfl (by decide)
  have htext : (Value.number (Numeral.mk false 1 (-5)).value).text = "1e-05" := by decide +kernel
  have hreread : readOne "1e-05" = .ok (.number (Numeral.mk false 1 0).value) :=
    readOne_number rfl rfl (by decide)
  have htext' : (Value.number (Numeral.mk false 1 0).value).text = "1" := by decide +kernel
  refine ⟨_, hread, ?_⟩
  rw [htext, hreread]
  rintro ⟨w, hw, heq⟩
  cases hw
  rw [htext'] at heq
  exact absurd heq (by decide)

end ScopedLisp
