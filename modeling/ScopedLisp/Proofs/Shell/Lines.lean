import ScopedLisp.Proofs.Reader.Stepwise
import ScopedLisp.Shell

namespace ScopedLisp

section Reading

variable {source : String} {vs : List Value}

theorem readAll_push_blank (h : readAll source = .ok vs) {c : Char} (hc : isBlank c) :
    readAll (source.push c) = .ok vs := by
  have hpush : Scanner.ofString (source.push c) = (Scanner.ofString source).append [c] := by
    rw [Scanner.ofString, String.toList_push]
    rfl
  rw [readAll_eq] at h
  rw [readAll_eq, hpush, Scanner.readValues_append_blank h hc, Scanner.readValues_of_atEnd rfl,
    List.reverse_reverse]

theorem readAll_blanks (h : Blanks source.toList) : readAll source = .ok [] := by
  have hend : (Scanner.ofString source).atEnd := Scanner.atEnd_iff_blanks.2 h
  rw [readAll_eq, Scanner.readValues_of_atEnd hend, List.reverse_nil]

end Reading

section WhiteSpace

variable {c : Char}

theorem toNat_of_isWhiteSpace (h : isWhiteSpace c) : c.toNat < 33 ∨ 123 ≤ c.toNat := by
  obtain ⟨range, hrange, hc⟩ := List.any_eq_true.1 h
  simp only [whiteSpaceRanges, List.mem_cons, List.not_mem_nil, or_false] at hrange
  simp only [Bool.and_eq_true, decide_eq_true_eq] at hc
  rcases hrange with rfl | rfl | rfl | rfl | rfl | rfl | rfl | rfl | rfl | rfl <;> omega

theorem toNat_of_isSymbolChar (h : isSymbolChar c) : 33 ≤ c.toNat ∧ c.toNat < 123 := by
  simp only [isSymbolChar, isSymbolStart, Bool.or_eq_true, isAlpha_iff_toNat, isDigit_iff_toNat,
    beq_iff_eq] at h
  rcases h with (hstart | hdigit) | rfl
  · rcases hstart with (((((((h | rfl) | rfl) | rfl) | rfl) | rfl) | rfl) | rfl) | rfl
    · omega
    all_goals decide
  · omega
  · decide

end WhiteSpace

/-- No token starts with white space. -/
theorem Cut.ofText_of_isWhiteSpace {c : Char} (h : isWhiteSpace c) (cs : List Char) :
    ofText (c :: cs) = ⟨.error (.unexpectedCharacter c), [], c :: cs⟩ := by
  have hsymbol : isSymbolChar c = false := by
    refine Bool.eq_false_iff.2 fun hsymbol => ?_
    have := toNat_of_isWhiteSpace h
    have := toNat_of_isSymbolChar hsymbol
    omega
  simp only [isSymbolChar, Bool.or_eq_false_iff] at hsymbol
  have hmark : c ∉ ['(', ')', '\'', '"'] := by
    intro hc
    simp only [List.mem_cons, List.not_mem_nil, or_false] at hc
    rcases hc with rfl | rfl | rfl | rfl <;> cases h
  exact (Starts.unexpected hmark hsymbol.1.2 hsymbol.1.1 cs).ofText_eq

namespace Shell

/-- A blank line has no value in it, if it can be read. -/
theorem eq_nil_of_isBlankLine {line : String} {vs : List Value} (hline : isBlankLine line)
    (h : readAll line = .ok vs) : vs = [] := by
  rw [readAll_eq] at h
  by_cases hend : (Scanner.ofString line).atEnd
  · rw [Scanner.readValues_of_atEnd hend] at h
    cases h
    rfl
  · obtain ⟨t, s', hnext⟩ := Scanner.exists_next_of_readValues h
    have hcut := Scanner.next_outcome_ok (congrArg Prod.fst hnext)
    cases hrest : (Scanner.ofString line).skipBlanks.rest with
    | nil => exact absurd (Scanner.atEnd_iff.2 hrest) hend
    | cons c cs =>
      have hdrop : line.toList.dropWhile isBlank = c :: cs := hrest
      have hc : c ∈ line.toList :=
        (List.dropWhile_sublist isBlank).mem (hdrop ▸ List.mem_cons_self)
      have hwhite : isWhiteSpace c := List.all_eq_true.1 hline c hc
      rw [hrest, Cut.ofText_of_isWhiteSpace hwhite] at hcut
      cases hcut

/-- The text has these lines, each of which ends with a newline, or with a carriage return and a
newline; the last one may be unfinished. -/
inductive HoldsLines : List String → String → Prop
  | none : HoldsLines [] ""
  | unfinished (line : String) : HoldsLines [line] line
  | newline {lines : List String} {content : String} (line : String)
      (h : HoldsLines lines content) : HoldsLines (line :: lines) (line ++ "\n" ++ content)
  | carriageReturn {lines : List String} {content : String} (line : String)
      (h : HoldsLines lines content) : HoldsLines (line :: lines) (line ++ "\r\n" ++ content)

theorem holdsLines_linesAfter (line cs : List Char) :
    HoldsLines (linesAfter line cs) (String.ofList (line.reverse ++ cs)) := by
  fun_induction linesAfter line cs with
  | case1 line hline =>
    rw [List.isEmpty_iff.1 hline]
    exact .none
  | case2 line hline =>
    rw [List.append_nil]
    exact .unfinished _
  | case3 line cs ih =>
    have hline := HoldsLines.newline (String.ofList line.reverse) ih
    have hseam : String.ofList line.reverse ++ "\n" ++ String.ofList ([].reverse ++ cs) =
        String.ofList (line.reverse ++ '\n' :: cs) := by
      rw [← String.toList_inj]
      simp
    rwa [hseam] at hline
  | case4 line cs ih =>
    have hline := HoldsLines.carriageReturn (String.ofList line.reverse) ih
    have hseam : String.ofList line.reverse ++ "\r\n" ++ String.ofList ([].reverse ++ cs) =
        String.ofList (line.reverse ++ '\r' :: '\n' :: cs) := by
      rw [← String.toList_inj]
      simp
    rwa [hseam] at hline
  | case5 line c cs _ _ ih =>
    rwa [List.reverse_cons, List.append_assoc] at ih

theorem holdsLines_lines (content : String) : HoldsLines (lines content) content := by
  have h := holdsLines_linesAfter [] content.toList
  rwa [List.reverse_nil, List.nil_append, String.ofList_toList] at h

/-- A line that is in the input with a carriage return and a newline is delivered as it is. -/
theorem linesAfter_append_ending {cs : List Char} (hcs : '\n' ∉ cs) (line rest : List Char) :
    linesAfter line (cs ++ '\r' :: '\n' :: rest) =
      String.ofList (line.reverse ++ cs) :: linesAfter [] rest := by
  induction cs generalizing line with
  | nil => rw [List.nil_append, linesAfter, List.append_nil]
  | cons c cs ih =>
    have hc : c ≠ '\n' := fun heq => hcs (heq ▸ List.mem_cons_self)
    have hrest : '\n' ∉ cs := fun hmem => hcs (List.mem_cons_of_mem c hmem)
    have hgoesOn : ∀ more, c = '\r' → cs ++ '\r' :: '\n' :: rest ≠ '\n' :: more := by
      rintro more - heq
      cases cs with
      | nil => cases heq
      | cons d cs =>
        cases heq
        exact hrest List.mem_cons_self
    rw [List.cons_append, linesAfter, ih hrest, List.reverse_cons, List.append_assoc]
    · rfl
    · exact hc
    · exact hgoesOn

/-- Whatever the lines are, there is an input that has them. -/
theorem exists_input {ls : List String} (hls : ∀ line ∈ ls, '\n' ∉ line.toList) :
    ∃ input, lines input = ls := by
  have hchars : ∃ cs, linesAfter [] cs = ls := by
    induction ls with
    | nil => exact ⟨[], rfl⟩
    | cons line ls ih =>
      obtain ⟨cs, hcs⟩ := ih fun l hl => hls l (List.mem_cons_of_mem line hl)
      refine ⟨line.toList ++ '\r' :: '\n' :: cs, ?_⟩
      rw [linesAfter_append_ending (hls line List.mem_cons_self), hcs]
      simp
  obtain ⟨cs, hcs⟩ := hchars
  exact ⟨String.ofList cs, by rw [lines, String.toList_ofList, hcs]⟩

/-- A text whose lines can all be read is read line by line. -/
theorem HoldsLines.readAll {lines : List String} {content : String} (h : HoldsLines lines content)
    {read : String → List Value}
    (hread : ∀ line ∈ lines, ScopedLisp.readAll line = .ok (read line)) :
    ScopedLisp.readAll content = .ok (lines.flatMap read) := by
  induction h with
  | none => exact readAll_blanks (by simp [Blanks])
  | unfinished line => simpa using hread line List.mem_cons_self
  | newline line _ ih =>
    have hrest := ih fun l hl => hread l (List.mem_cons_of_mem line hl)
    rw [readAll_append_newline (hread line List.mem_cons_self), hrest]
    rfl
  | carriageReturn line _ ih =>
    have hrest := ih fun l hl => hread l (List.mem_cons_of_mem line hl)
    have hline := readAll_push_blank (hread line List.mem_cons_self) (c := '\r') rfl
    have hending : line ++ "\r\n" = line.push '\r' ++ "\n" := by
      rw [String.push_eq_append, String.append_assoc]
      rfl
    rw [hending, readAll_append_newline hline, hrest]
    rfl

end Shell

end ScopedLisp
