import ScopedLisp.Proofs.Numeral.Written
import ScopedLisp.Proofs.Printing.Rereading
import ScopedLisp.Value.Equality

namespace ScopedLisp

/-- Somewhere the scanner finds the symbol as one token. -/
def IsFound (name : String) : Prop := ∃ s p s', Scanner.next s = (.ok ⟨.symbol name, p⟩, s')

namespace Value

/-- A finite number printed without an exponent, a string without a double quote, or a symbol that
can be found in a text and is none of the constants. -/
inductive IsPlain : Value → Prop
  | number {x : Float} (hfinite : x.isFinite) (hexponent : 'e' ∉ Layout.display.write x) :
    IsPlain (.number x)
  | string {content : String} (h : '"' ∉ content.toList) : IsPlain (.string content)
  | symbol {name : String} (h : IsFound name) (ht : name ≠ "t") (hnil : name ≠ "nil") :
    IsPlain (.symbol name)

end Value

namespace Progress

theorem ofToken_symbol {name : String} (ht : name ≠ "t") (hnil : name ≠ "nil")
    (frames : List Frame) :
    ofToken frames (.symbol name) = .ok (ofValue frames (.symbol name)) := by
  simp [ofToken, ofSymbol, ht, hnil]

theorem ofToken_number {lexeme : String} {n : Numeral} (h : Numeral.ofChars? lexeme.toList = some n)
    (frames : List Frame) :
    ofToken frames (.number lexeme) = .ok (ofValue frames (.number n.value)) := by
  simp [ofToken, h]

end Progress

open Layout in
/-- A finite number printed without an exponent is one token, read as an equal number. -/
theorem reread_number {x : Float} {negative : Bool} {m : Nat} {e : Int}
    (hx : BinaryForm.ofFloat x = .finite negative m e) (hexponent : 'e' ∉ display.write x) :
    ∃ t y, t.IsOf (display.write x) ∧
      (∀ frames, Progress.ofToken frames t = .ok (.ofValue frames (.number y))) ∧ y == x := by
  obtain ⟨n, hchars, hvalue⟩ := write_readsBack display hx
  refine ⟨_, n.value, Cut.isOf_number hchars hexponent, Progress.ofToken_number ?_, hvalue⟩
  rwa [String.toList_ofList]

theorem equal_list {vs ws : List Value} (h : List.Forall₂ (fun w v => w.equal v) ws vs) :
    (Value.list ws).equal (.list vs) := by
  induction h with
  | nil => rfl
  | cons hhead _ ih => simp [Value.equal, hhead, ih]

theorem rereads_plain : Rereads Value.IsPlain fun w v => w.equal v where
  atom := by
    intro v hv
    cases hv with
    | number hfinite hexponent =>
      obtain ⟨negative, m, e, hx⟩ := Rounding.exists_ofFloat_of_isFinite hfinite
      obtain ⟨t, y, ht, hread, hvalue⟩ := reread_number hx hexponent
      exact ⟨nofun, t, .number y, ht, hread, hvalue⟩
    | @string content h =>
      exact ⟨nofun, _, .string content, Cut.isOf_string h, fun _ => rfl, beq_self_eq_true content⟩
    | @symbol name h ht hnil =>
      obtain ⟨s, p, s', hnext⟩ := h
      exact ⟨nofun, _, .symbol name, Scanner.isOf_of_next_symbol hnext,
        Progress.ofToken_symbol ht hnil, beq_self_eq_true name⟩
  list _ _ h := equal_list h

/-- Reading undoes printing under any layout. The marks that are laid out are what is printed. -/
theorem reading_undoes_printing {v : Value} (hv : v.Made Value.IsPlain) :
    String.ofList (v.marks.flatMap Mark.chars) = v.text ∧
      ∀ source : String, v.LaidOut source.toList →
        ∃ w, readAll source = .ok [w] ∧ w.equal v := by
  constructor
  · rw [Value.flatMap_marks, Value.text]
  · intro source h
    obtain ⟨w, hread, -, hequal⟩ := read_of_laidOut rereads_plain hv h
    exact ⟨w, hread, hequal⟩

/-- A minus sign next to a negative number, blanks of all kinds, and a parenthesis in a string. -/
theorem nested_list_recovered :
    (Value.list [.symbol "-", .number (-1.5), .list [.string "(a b"]]).text =
        "(- -1.5 (\"(a b\"))" ∧
      ∃ w, readAll " (- \t-1.5\r\n( \"(a b\") )" = .ok [w] ∧
        w.equal (.list [.symbol "-", .number (-1.5), .list [.string "(a b"]]) := by
  have hminus : IsFound "-" := by
    refine ⟨⟨['-'], .start⟩, .start, ⟨[], ⟨1, 2⟩⟩, ?_⟩
    rfl
  have hnumber : Layout.display.write (-1.5) = "-1.5".toList := by decide +kernel
  have hplain : (Value.list [.symbol "-", .number (-1.5), .list [.string "(a b"]]).Made
      Value.IsPlain := by
    have hstring : (Value.list [.string "(a b"]).Made Value.IsPlain := by
      refine .list ?_
      rintro w (_ | ⟨_, ⟨⟩⟩)
      exact .atom (.string (by decide))
    refine .list ?_
    rintro w (_ | ⟨_, _ | ⟨_, _ | ⟨_, ⟨⟩⟩⟩⟩)
    · exact .atom (.symbol hminus (by decide) (by decide))
    · exact .atom (.number (by decide +kernel) (by rw [hnumber]; decide))
    · exact hstring
  obtain ⟨hmarks, hread⟩ := reading_undoes_printing hplain
  constructor
  · rw [← hmarks]
    decide +kernel
  · refine hread _ ⟨[], [" (".toList, "-".toList, " \t".toList, "-1.5".toList, "\r\n".toList,
      "( ".toList, "\"(a b\"".toList, ")".toList, " )".toList], [], blanks_nil, ?_, blanks_nil,
      by decide⟩
    refine .cons (@Mark.Written.opening [' '] [] (by decide) (by decide)) <| .cons (.atom _) <|
      .cons (.gap (by decide) (by decide)) <| .cons ?_ <| .cons (.gap (by decide) (by decide)) <|
      .cons (@Mark.Written.opening [] [' '] (by decide) (by decide)) <| .cons (.atom _) <|
      .cons (@Mark.Written.closing [] [] (by decide) (by decide)) <|
      .cons (@Mark.Written.closing [' '] [] (by decide) (by decide)) .nil
    rw [← hnumber]
    exact .atom _

end ScopedLisp
