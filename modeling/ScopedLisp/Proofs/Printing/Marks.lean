import Mathlib.Data.List.Forall2
import ScopedLisp.Proofs.Token.Lexeme
import ScopedLisp.Value.Text

namespace ScopedLisp

inductive Mark
  | opening
  | closing
  | gap
  | atom (text : List Char)

namespace Mark

def chars : Mark → List Char
  | opening => ['(']
  | closing => [')']
  | gap => [' ']
  | atom text => text

/-- The ways to write a mark. -/
inductive Written : Mark → List Char → Prop
  | opening {before after : List Char} (hbefore : Blanks before) (hafter : Blanks after) :
    Written opening (before ++ '(' :: after)
  | closing {before after : List Char} (hbefore : Blanks before) (hafter : Blanks after) :
    Written closing (before ++ ')' :: after)
  | gap {cs : List Char} (hblank : Blanks cs) (hne : cs ≠ []) : Written gap cs
  | atom (text : List Char) : Written (atom text) text

/-- Each mark may be written as it is printed. -/
theorem written_chars : ∀ m : Mark, m.Written m.chars
  | opening => .opening blanks_nil blanks_nil
  | closing => .closing blanks_nil blanks_nil
  | gap => .gap (by simp [Blanks, chars, isBlank]) (by simp [chars])
  | atom text => .atom text

end Mark

namespace Value

mutual

def marks : Value → List Mark
  | pair head tail => .opening :: marks head ++ tailMarks tail
  | v => [.atom v.atomChars]
termination_by structural v => v

/-- The marks after an element of a list. -/
def tailMarks : Value → List Mark
  | nil => [.closing]
  | pair head tail => .gap :: marks head ++ tailMarks tail
  | v => [.gap, .atom ['.'], .gap, .atom v.atomChars, .closing]
termination_by structural v => v

end

mutual

/-- The marks are the printed form. -/
theorem flatMap_marks : ∀ v : Value, v.marks.flatMap Mark.chars = v.chars
  | pair head tail => by
    rw [marks, chars_pair, ← flatMap_marks head, ← flatMap_tailMarks tail]
    simp [Mark.chars]
  | number _ | string _ | boolean _ | symbol _ | nil | closure .. | native .. => by
    simp [marks, chars, charsBefore, Mark.chars]

theorem flatMap_tailMarks : ∀ v : Value, v.tailMarks.flatMap Mark.chars = v.tailChars
  | nil => rfl
  | pair head tail => by
    rw [tailMarks, tailChars_pair, ← flatMap_marks head, ← flatMap_tailMarks tail]
    simp [Mark.chars]
  | number _ | string _ | boolean _ | symbol _ | closure .. | native .. => by
    simp [tailMarks, tailChars, tailCharsBefore, Mark.chars]

end

/-- The text is the printed form of the value, except for its blanks. -/
def LaidOut (v : Value) (cs : List Char) : Prop :=
  ∃ before pieces after, Blanks before ∧ List.Forall₂ Mark.Written v.marks pieces ∧ Blanks after ∧
    cs = before ++ pieces.flatten ++ after

/-- The printed form is one of its layouts. -/
theorem laidOut_chars (v : Value) : v.LaidOut v.chars := by
  refine ⟨[], v.marks.map Mark.chars, [], blanks_nil, ?_, blanks_nil, ?_⟩
  · generalize v.marks = marks
    induction marks with
    | nil => exact .nil
    | cons m marks ih => exact .cons m.written_chars ih
  · rw [← flatMap_marks, List.flatMap_def, List.nil_append, List.append_nil]

end Value

theorem chars_number (x : Float) : (Value.number x).chars = Layout.display.write x :=
  List.append_nil _

theorem chars_symbol (name : String) : (Value.symbol name).chars = name.toList :=
  List.append_nil _

end ScopedLisp
