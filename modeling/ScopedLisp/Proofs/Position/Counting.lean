import Mathlib.Data.List.DropRight
import ScopedLisp.Position

namespace ScopedLisp.Position

/-- The place behind a text: a line more than it has newlines, and a column more than it has
characters after the last of them. -/
def behind (cs : List Char) : Position :=
  ⟨1 + cs.count '\n', 1 + (cs.rtakeWhile (· != '\n')).length⟩

theorem after_start (cs : List Char) : start.after cs = behind cs := by
  induction cs using List.reverseRecOn with
  | nil => rfl
  | append_singleton cs c ih =>
    rw [after_append, ih, after_cons, after_nil, behind, behind, List.rtakeWhile_concat]
    by_cases hc : c = '\n'
    · simp [next, hc, Nat.add_assoc]
    · simp [next, hc, Nat.add_assoc]

theorem after_behind (before cs : List Char) :
    (behind before).after cs = behind (before ++ cs) := by
  rw [← after_start, ← after_start, after_append]

/-- On one line a place moves on by a column for each character. -/
theorem after_of_not_mem {cs : List Char} (h : '\n' ∉ cs) (p : Position) :
    p.after cs = ⟨p.line, p.column + cs.length⟩ := by
  induction cs generalizing p with
  | nil => rfl
  | cons c cs ih =>
    obtain ⟨hc, hcs⟩ := List.ne_and_not_mem_of_not_mem_cons h
    rw [after_cons, ih hcs, next, if_neg (Ne.symm hc), List.length_cons]
    simp only [Position.mk.injEq, true_and]
    omega

/-- Behind a longer text there is another place. -/
theorem eq_of_isPrefix_of_behind {as bs : List Char} (h : as <+: bs)
    (hplace : behind as = behind bs) : as = bs := by
  obtain ⟨more, rfl⟩ := h
  have hlines : more.count '\n' = 0 := by
    have hline := congrArg Position.line hplace
    simp only [behind, List.count_append] at hline
    omega
  have hcolumns := congrArg Position.column hplace
  rw [← after_behind, after_of_not_mem (List.count_eq_zero.1 hlines)] at hcolumns
  have hlength : more.length = 0 := by
    dsimp only at hcolumns
    omega
  rw [List.length_eq_zero_iff.1 hlength, List.append_nil]

/-- Each place in a text is behind one of its beginnings only. -/
theorem eq_of_behind {text as bs : List Char} (has : as <+: text) (hbs : bs <+: text)
    (h : behind as = behind bs) : as = bs := by
  rcases List.prefix_or_prefix_of_prefix has hbs with hprefix | hprefix
  · exact eq_of_isPrefix_of_behind hprefix h
  · exact (eq_of_isPrefix_of_behind hprefix h.symm).symm

/-- The same column, some lines further down. -/
def down (lines : Nat) (p : Position) : Position := ⟨p.line + lines, p.column⟩

theorem next_down (lines : Nat) (p : Position) (c : Char) :
    (p.down lines).next c = (p.next c).down lines := by
  unfold next down
  split
  · simp only [Position.mk.injEq, and_true]
    omega
  · rfl

theorem after_down (lines : Nat) (p : Position) (cs : List Char) :
    (p.down lines).after cs = (p.after cs).down lines := by
  induction cs generalizing p with
  | nil => rfl
  | cons c cs ih => rw [after_cons, next_down, ih, after_cons]

/-- Behind a newline a text starts again, as many lines further down as have been ended. -/
theorem behind_newline (cs : List Char) :
    behind (cs ++ ['\n']) = start.down (1 + cs.count '\n') := by
  simp only [behind, down, start, List.rtakeWhile_concat]
  simp
  omega

end ScopedLisp.Position
