import ScopedLisp.Numeral.Layout
import ScopedLisp.Value

namespace ScopedLisp.Value

/-- The printed form of a value that is no pair. -/
def atomChars : Value → List Char
  | number x => Layout.display.write x
  | string content => '"' :: content.toList ++ ['"']
  | boolean true => ['T']
  | symbol name => name.toList
  | closure .. => "#<FUNCTION>".toList
  | native label _ => "#<BUILTIN ".toList ++ label.toList ++ ['>']
  | _ => ['N', 'I', 'L']

mutual

/-- The printed form of a value with `rest` after it. -/
def charsBefore (rest : List Char) : Value → List Char
  | pair head tail => '(' :: charsBefore (tailCharsBefore rest tail) head
  | v => atomChars v ++ rest
termination_by structural v => v

/-- The rest of a list after one of its elements, and `rest` after its closing parenthesis. -/
def tailCharsBefore (rest : List Char) : Value → List Char
  | nil => ')' :: rest
  | pair head tail => ' ' :: charsBefore (tailCharsBefore rest tail) head
  | v => ' ' :: '.' :: ' ' :: atomChars v ++ ')' :: rest
termination_by structural v => v

end

def chars (v : Value) : List Char := charsBefore [] v

def tailChars (v : Value) : List Char := tailCharsBefore [] v

def text (v : Value) : String := String.ofList v.chars

mutual

theorem charsBefore_append (as bs : List Char) :
    ∀ v, charsBefore (as ++ bs) v = charsBefore as v ++ bs
  | pair head tail => by
    rw [charsBefore, charsBefore, tailCharsBefore_append as bs tail, charsBefore_append _ bs head]
    rfl
  | number _ | string _ | boolean _ | symbol _ | nil | closure .. | native .. => by
    simp [charsBefore]

theorem tailCharsBefore_append (as bs : List Char) :
    ∀ v, tailCharsBefore (as ++ bs) v = tailCharsBefore as v ++ bs
  | pair head tail => by
    rw [tailCharsBefore, tailCharsBefore, tailCharsBefore_append as bs tail,
      charsBefore_append _ bs head]
    rfl
  | number _ | string _ | boolean _ | symbol _ | nil | closure .. | native .. => by
    simp [tailCharsBefore]

end

theorem charsBefore_eq (rest : List Char) (v : Value) : charsBefore rest v = v.chars ++ rest :=
  charsBefore_append [] rest v

theorem chars_pair (head tail : Value) :
    (pair head tail).chars = '(' :: head.chars ++ tail.tailChars := by
  rw [chars, charsBefore, charsBefore_eq]
  rfl

theorem tailChars_pair (head tail : Value) :
    (pair head tail).tailChars = ' ' :: head.chars ++ tail.tailChars := by
  rw [tailChars, tailCharsBefore, charsBefore_eq]
  rfl

end ScopedLisp.Value
