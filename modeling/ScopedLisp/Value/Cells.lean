import ScopedLisp.Value.Equality

namespace ScopedLisp

/-- What there is to hold: a value that is no pair, or a cell by its address. -/
inductive Slot
  | atom (v : Value) (h : v.kind ≠ .pair)
  | cell (address : Nat)

/-- The cells by their addresses. A cell is made of what is there already, and it never changes. -/
structure Cells where
  head : Nat → Slot
  tail : Nat → Slot
  head_older : ∀ {address older}, head address = .cell older → older < address
  tail_older : ∀ {address older}, tail address = .cell older → older < address

def Slot.rank : Slot → Nat
  | atom .. => 0
  | cell address => 2 * address + 2

theorem Slot.rank_cell (address : Nat) : (cell address).rank = 2 * address + 2 := rfl

namespace Cells

theorem rank_head_lt (m : Cells) (a : Nat) : (m.head a).rank < 2 * a + 1 := by
  cases h : m.head a with
  | atom => exact Nat.zero_lt_succ _
  | cell b =>
    have := m.head_older h
    rw [Slot.rank_cell]
    omega

theorem rank_tail_lt (m : Cells) (a : Nat) : (m.tail a).rank < 2 * a + 1 := by
  cases h : m.tail a with
  | atom => exact Nat.zero_lt_succ _
  | cell b =>
    have := m.tail_older h
    rw [Slot.rank_cell]
    omega

/-- The value that a slot holds. -/
def value (m : Cells) : Slot → Value
  | .atom v _ => v
  | .cell a =>
    have := m.rank_head_lt a
    have := m.rank_tail_lt a
    .pair (m.value (m.head a)) (m.value (m.tail a))
termination_by s => s.rank
decreasing_by all_goals rw [Slot.rank_cell]; omega

/-- The elements of a proper list. -/
def items? (m : Cells) : Slot → Option (List Slot)
  | .atom .nil _ => some []
  | .atom .. => none
  | .cell a =>
    have := m.rank_tail_lt a
    (m.items? (m.tail a)).map (m.head a :: ·)
termination_by s => s.rank
decreasing_by rw [Slot.rank_cell]; omega

mutual

/-- A cell is equal to itself, whatever it holds. -/
def equal (m : Cells) : Slot → Slot → Bool
  | .atom v _, .atom w _ => v.equal w
  | .cell a, .cell b => a == b || m.walk a b
  | _, _ => false
termination_by s => s.rank
decreasing_by exact Nat.lt_succ_self _

/-- From the cells `a` and `b` on, head by head, as long as both chains go on. -/
def walk (m : Cells) (a b : Nat) : Bool :=
  have := m.rank_head_lt a
  have := m.rank_tail_lt a
  m.equal (m.head a) (m.head b) &&
    match _h : m.tail a, m.tail b with
    | .cell c, .cell d => c == d || m.walk c d
    | s, t => m.equal s t
termination_by 2 * a + 1
decreasing_by
  · omega
  · have := m.tail_older _h
    omega
  · rw [← _h]
    omega

end

end Cells

end ScopedLisp
