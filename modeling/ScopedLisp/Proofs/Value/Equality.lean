import Mathlib.Data.List.Forall2
import ScopedLisp.Proofs.Printing.Stability
import ScopedLisp.Value.Cells

namespace ScopedLisp

namespace Value

/-- Some part of the value is not a number. -/
def HasNaN (v : Value) : Prop := ∃ x : Float, x.isNaN ∧ (number x).PartOf v

variable {u v w : Value}

theorem hasNaN_pair : (pair v w).HasNaN ↔ v.HasNaN ∨ w.HasNaN := by
  simp only [HasNaN, partOf_pair, reduceCtorEq, false_or, and_or_left, exists_or]

theorem equal_symm (h : v.equal w) : w.equal v := by
  fun_induction equal v w with
  | case1 | case2 | case3 | case4 | case7 | case8 => exact BEq.symm h
  | case5 => rfl
  | case6 a b c d iha ihb =>
    obtain ⟨hac, hbd⟩ := Bool.and_eq_true_iff.1 h
    exact Bool.and_eq_true_iff.2 ⟨iha hac, ihb hbd⟩
  | case9 => cases h

theorem equal_trans (huv : u.equal v) (hvw : v.equal w) : u.equal w := by
  fun_induction equal u v generalizing w with
  | case1 x y =>
    cases w with
    | number z => exact BEq.trans huv hvw
    | _ => cases hvw
  | case2 | case3 | case4 | case7 | case8 => cases w <;> simp_all [equal]
  | case5 => exact hvw
  | case6 a b c d iha ihb =>
    cases w with
    | pair e f =>
      obtain ⟨hac, hbd⟩ := Bool.and_eq_true_iff.1 huv
      obtain ⟨hce, hdf⟩ := Bool.and_eq_true_iff.1 hvw
      exact Bool.and_eq_true_iff.2 ⟨iha hac hce, ihb hbd hdf⟩
    | _ => cases hvw
  | case9 => cases huv

theorem equal_self (h : ¬v.HasNaN) : v.equal v := by
  induction v with
  | number x =>
    have hx : ¬x.isNaN := fun hx => h ⟨x, hx, .self⟩
    exact Float.beq_self_iff.2 (by simpa using hx)
  | pair a b iha ihb =>
    rw [hasNaN_pair, not_or] at h
    exact Bool.and_eq_true_iff.2 ⟨iha h.1, ihb h.2⟩
  | nil => rfl
  | _ => exact BEq.refl _

/-- The values are the same but for the sign of zeros, for which closures they hold and for what
native procedures of one label do. -/
inductive Similar : Value → Value → Prop
  | refl (v : Value) : Similar v v
  | number {x y : Float} (h : x == y) : Similar (number x) (number y)
  | pair {a b c d : Value} (hhead : Similar a c) (htail : Similar b d) :
    Similar (pair a b) (pair c d)
  | closure (i j : ClosureId) (name name' : Option String) (params params' : List String)
    (body body' : Value) (scope scope' : ScopeId) :
    Similar (closure i name params body scope) (closure j name' params' body' scope')
  | native (label : String) (p q : Procedure) : Similar (native label p) (native label q)

theorem similar_of_equal (h : v.equal w) : Similar v w := by
  fun_induction equal v w with
  | case1 => exact .number h
  | case2 | case3 | case4 => exact eq_of_beq h ▸ .refl _
  | case5 => exact .refl _
  | case6 a b c d iha ihb =>
    obtain ⟨hac, hbd⟩ := Bool.and_eq_true_iff.1 h
    exact .pair (iha hac) (ihb hbd)
  | case7 => exact .closure _ _ _ _ _ _ _ _ _ _
  | case8 => exact eq_of_beq h ▸ .native _ _ _
  | case9 => cases h

theorem Similar.kind (h : Similar v w) : v.kind = w.kind := by
  cases h <;> rfl

theorem Similar.isTruthy (h : Similar v w) : v.isTruthy = w.isTruthy := by
  cases h <;> rfl

theorem Similar.chars (h : Similar v w) : v.chars = w.chars ∧ v.tailChars = w.tailChars := by
  induction h with
  | refl v => exact ⟨rfl, rfl⟩
  | @number x y h =>
    have hatom : (Value.number x).atomChars = (Value.number y).atomChars := write_congr h
    exact ⟨congrArg (· ++ []) hatom, congrArg (fun cs => ' ' :: '.' :: ' ' :: cs ++ [')']) hatom⟩
  | pair _ _ ihhead ihtail =>
    rw [chars_pair, chars_pair, tailChars_pair, tailChars_pair, ihhead.1, ihtail.2]
    exact ⟨rfl, rfl⟩
  | closure | native => exact ⟨rfl, rfl⟩

theorem rel_map_cons {α β : Type} {R : α → β → Prop} {a : α} {b : β} {as : Option (List α)}
    {bs : Option (List β)} (hhead : R a b) (h : Option.Rel (List.Forall₂ R) as bs) :
    Option.Rel (List.Forall₂ R) (as.map (a :: ·)) (bs.map (b :: ·)) := by
  cases h with
  | none => exact .none
  | some hrest => exact .some (.cons hhead hrest)

theorem Similar.text (h : Similar v w) : v.text = w.text := congrArg String.ofList h.chars.1

end Value

namespace Cells

variable {m : Cells} {s t u : Slot}

/-- What holds of atoms, and of a cell if it holds of its head and its tail, holds of all slots. -/
theorem induction {P : Slot → Prop} (hatom : ∀ v h, P (.atom v h))
    (hcell : ∀ a, P (m.head a) → P (m.tail a) → P (.cell a)) : ∀ s, P s
  | .atom v h => hatom v h
  | .cell a =>
    have := m.rank_head_lt a
    have := m.rank_tail_lt a
    hcell a (induction hatom hcell (m.head a)) (induction hatom hcell (m.tail a))
termination_by s => s.rank
decreasing_by all_goals rw [Slot.rank_cell]; omega

theorem value_atom {v : Value} (h : v.kind ≠ .pair) : m.value (.atom v h) = v := by
  rw [value]

theorem value_cell (a : Nat) :
    m.value (.cell a) = .pair (m.value (m.head a)) (m.value (m.tail a)) := by
  rw [value]

theorem walk_eq (a b : Nat) : m.walk a b =
    (m.equal (m.head a) (m.head b) && m.equal (m.tail a) (m.tail b)) := by
  rw [walk]
  congr 1
  split
  · next hc hd => rw [hc, hd, equal]
  · rfl

/-- A step of the walk: cells are equal if they are the same or their heads and tails are equal. -/
theorem equal_cell (a b : Nat) : m.equal (.cell a) (.cell b) =
    (a == b || m.equal (m.head a) (m.head b) && m.equal (m.tail a) (m.tail b)) := by
  rw [equal, walk_eq]

theorem equal_atom {v w : Value} (hv : v.kind ≠ .pair) (hw : w.kind ≠ .pair) :
    m.equal (.atom v hv) (.atom w hw) = v.equal w := by
  rw [equal]

theorem equal_atom_cell {v : Value} (h : v.kind ≠ .pair) (a : Nat) :
    m.equal (.atom v h) (.cell a) = false := by
  simp [equal]

theorem equal_cell_atom {v : Value} (h : v.kind ≠ .pair) (a : Nat) :
    m.equal (.cell a) (.atom v h) = false := by
  simp [equal]

theorem equal_cell_iff {a b : Nat} : m.equal (.cell a) (.cell b) ↔
    a = b ∨ m.equal (m.head a) (m.head b) ∧ m.equal (m.tail a) (m.tail b) := by
  simp [equal_cell]

theorem equal_symm (h : m.equal s t) : m.equal t s := by
  induction s using m.induction generalizing t with
  | hatom v hv =>
    cases t with
    | atom w hw =>
      rw [equal_atom] at h ⊢
      exact Value.equal_symm h
    | cell b => simp [equal_atom_cell] at h
  | hcell a ihhead ihtail =>
    cases t with
    | atom w hw => simp [equal_cell_atom] at h
    | cell b =>
      rw [equal_cell_iff] at h ⊢
      exact h.imp Eq.symm fun h => ⟨ihhead h.1, ihtail h.2⟩

theorem equal_trans (hst : m.equal s t) (htu : m.equal t u) : m.equal s u := by
  induction s using m.induction generalizing t u with
  | hatom v hv =>
    match t, u with
    | .atom w hw, .atom x hx =>
      rw [equal_atom] at hst htu ⊢
      exact Value.equal_trans hst htu
    | .cell b, _ => simp [equal_atom_cell] at hst
    | .atom w hw, .cell c => simp [equal_atom_cell] at htu
  | hcell a ihhead ihtail =>
    match t, u with
    | .atom w hw, _ => simp [equal_cell_atom] at hst
    | .cell b, .atom w hw => simp [equal_cell_atom] at htu
    | .cell b, .cell c =>
      rcases equal_cell_iff.1 hst with rfl | hab
      · exact htu
      rcases equal_cell_iff.1 htu with rfl | hbc
      · exact hst
      · exact equal_cell_iff.2 (.inr ⟨ihhead hab.1 hbc.1, ihtail hab.2 hbc.2⟩)

/-- From the slot, heads and tails lead to the cell. -/
inductive Holds (m : Cells) (address : Nat) : Slot → Prop
  | self : Holds m address (.cell address)
  | head {a : Nat} (h : Holds m address (m.head a)) : Holds m address (.cell a)
  | tail {a : Nat} (h : Holds m address (m.tail a)) : Holds m address (.cell a)

/-- Some cell that both sides hold has a NaN in it. -/
def SharesNaN (m : Cells) (s t : Slot) : Prop :=
  ∃ address, m.Holds address s ∧ m.Holds address t ∧ (m.value (.cell address)).HasNaN

theorem hasNaN_cell (a : Nat) : (m.value (.cell a)).HasNaN ↔
    (m.value (m.head a)).HasNaN ∨ (m.value (m.tail a)).HasNaN := by
  rw [value_cell, Value.hasNaN_pair]

theorem hasNaN_of_holds {address : Nat} (h : m.Holds address s)
    (hnan : (m.value (.cell address)).HasNaN) : (m.value s).HasNaN := by
  induction h with
  | self => exact hnan
  | head _ ih => exact (hasNaN_cell _).2 (.inl ih)
  | tail _ ih => exact (hasNaN_cell _).2 (.inr ih)

/-- The walk finds what recursion over the values finds, wherever it stops. -/
theorem equal_eq (h : ¬m.SharesNaN s t) : m.equal s t = (m.value s).equal (m.value t) := by
  induction s using m.induction generalizing t with
  | hatom v hv =>
    cases t with
    | atom w hw => rw [equal_atom, value_atom, value_atom]
    | cell b =>
      rw [equal_atom_cell, value_atom, value_cell]
      cases v with
      | pair => exact absurd rfl hv
      | _ => rfl
  | hcell a ihhead ihtail =>
    cases t with
    | atom w hw =>
      rw [equal_cell_atom, value_atom, value_cell]
      cases w with
      | pair => exact absurd rfl hw
      | _ => rfl
    | cell b =>
      by_cases hab : a = b
      · subst hab
        have hself : m.equal (.cell a) (.cell a) := equal_cell_iff.2 (.inl rfl)
        have hnan : ¬(m.value (.cell a)).HasNaN := fun hnan => h ⟨a, .self, .self, hnan⟩
        rw [hself, Value.equal_self hnan]
      · have hhead : ¬m.SharesNaN (m.head a) (m.head b) := fun ⟨c, ha, hb, hnan⟩ =>
          h ⟨c, .head ha, .head hb, hnan⟩
        have htail : ¬m.SharesNaN (m.tail a) (m.tail b) := fun ⟨c, ha, hb, hnan⟩ =>
          h ⟨c, .tail ha, .tail hb, hnan⟩
        rw [equal_cell, value_cell, value_cell, Value.equal, ← ihhead hhead, ← ihtail htail,
          beq_false_of_ne hab, Bool.false_or]

/-- Two copies of a value without a NaN are equal, in whatever cells they are. -/
theorem equal_of_value_eq (h : m.value s = m.value t) (hnan : ¬(m.value s).HasNaN) :
    m.equal s t := by
  have hshares : ¬m.SharesNaN s t := fun ⟨_, hs, _, hcell⟩ => hnan (hasNaN_of_holds hs hcell)
  rw [equal_eq hshares, ← h]
  exact Value.equal_self hnan

theorem similar_of_equal (h : m.equal s t) : Value.Similar (m.value s) (m.value t) := by
  induction s using m.induction generalizing t with
  | hatom v hv =>
    cases t with
    | atom w hw =>
      rw [equal_atom] at h
      rw [value_atom, value_atom]
      exact Value.similar_of_equal h
    | cell b => simp [equal_atom_cell] at h
  | hcell a ihhead ihtail =>
    cases t with
    | atom w hw => simp [equal_cell_atom] at h
    | cell b =>
      rcases equal_cell_iff.1 h with rfl | hparts
      · exact .refl _
      · rw [value_cell, value_cell]
        exact .pair (ihhead hparts.1) (ihtail hparts.2)

theorem items?_atom {v : Value} (h : v.kind ≠ .pair) :
    m.items? (.atom v h) = if v.kind = .nil then some [] else none := by
  cases v <;> simp [items?, Value.kind]

theorem items?_cell (a : Nat) :
    m.items? (.cell a) = (m.items? (m.tail a)).map (m.head a :: ·) := by
  rw [items?]

/-- Elements of equal lists are related if equal ones are, and those of one cell to themselves. -/
theorem items?_rel {R : Slot → Slot → Prop} (hequal : ∀ {x y}, m.equal x y → R x y)
    (hself : ∀ a, m.Holds a s → m.Holds a t → ∀ xs, m.items? (.cell a) = some xs →
      ∀ x ∈ xs, R x x) (h : m.equal s t) :
    Option.Rel (List.Forall₂ R) (m.items? s) (m.items? t) := by
  induction s using m.induction generalizing t with
  | hatom v hv =>
    cases t with
    | atom w hw =>
      rw [equal_atom] at h
      rw [items?_atom, items?_atom, (Value.similar_of_equal h).kind]
      split
      · exact .some .nil
      · exact .none
    | cell b => simp [equal_atom_cell] at h
  | hcell a ihhead ihtail =>
    cases t with
    | atom w hw => simp [equal_cell_atom] at h
    | cell b =>
      rcases equal_cell_iff.1 h with rfl | hparts
      · cases hxs : m.items? (.cell a) with
        | none => exact .none
        | some xs => exact .some (List.forall₂_same.2 (hself a .self .self xs hxs))
      · have htails := ihtail (fun c hs ht => hself c (.tail hs) (.tail ht)) hparts.2
        rw [items?_cell, items?_cell]
        exact Value.rel_map_cons (hequal hparts.1) htails

theorem hasNaN_of_mem_items? {xs : List Slot} {x : Slot} (h : m.items? s = some xs) (hx : x ∈ xs)
    (hnan : (m.value x).HasNaN) : (m.value s).HasNaN := by
  induction s using m.induction generalizing xs with
  | hatom v hv =>
    rw [items?_atom] at h
    split at h
    · cases h
      cases hx
    · cases h
  | hcell a ihhead ihtail =>
    rw [items?_cell] at h
    obtain ⟨ys, hys, rfl⟩ := Option.map_eq_some_iff.1 h
    rw [hasNaN_cell]
    rcases List.mem_cons.1 hx with rfl | hx
    · exact .inl hnan
    · exact .inr (ihtail hys hx)

end Cells

theorem Value.items?_rel {v w : Value} (h : v.equal w) :
    Option.Rel (List.Forall₂ fun a b => a.equal b) v.items? w.items? := by
  fun_induction Value.equal v w with
  | case5 => exact .some .nil
  | case6 a b c d iha ihb =>
    obtain ⟨hac, hbd⟩ := Bool.and_eq_true_iff.1 h
    exact rel_map_cons hac (ihb hbd)
  | case9 => cases h
  | _ => exact .none

/-- What is asked of an equality of things that hold values: it is symmetric and transitive, holds
between copies of a value without a NaN, and only between values that print alike, are of one kind
and are both true or both false. -/
structure IsSoundEquality {α : Type} (value : α → Value) (equal : α → α → Bool) : Prop where
  symm : ∀ a b, equal a b → equal b a
  trans : ∀ a b c, equal a b → equal b c → equal a c
  copies : ∀ a b, value a = value b → ¬(value a).HasNaN → equal a b
  text : ∀ a b, equal a b → (value a).text = (value b).text
  kind : ∀ a b, equal a b → (value a).kind = (value b).kind
  isTruthy : ∀ a b, equal a b → (value a).isTruthy = (value b).isTruthy

/-- Equality of values, by recursion and by the walk along cells, is sound. Equal lists have equal
elements; of lists that meet in a cell with a NaN in it, some elements may be the same instead. -/
theorem equality_is_sound :
    (IsSoundEquality id Value.equal ∧ ∀ v w : Value, v.equal w →
      Option.Rel (List.Forall₂ fun a b => a.equal b) v.items? w.items?) ∧
    ∀ m : Cells, IsSoundEquality m.value m.equal ∧ ∀ s t : Slot,
      (m.equal s t → Option.Rel (List.Forall₂ fun a b => a = b ∨ m.equal a b)
        (m.items? s) (m.items? t)) ∧
      (¬m.SharesNaN s t → m.equal s t = (m.value s).equal (m.value t) ∧ (m.equal s t →
        Option.Rel (List.Forall₂ fun a b => m.equal a b) (m.items? s) (m.items? t))) := by
  refine ⟨⟨⟨?_, ?_, ?_, ?_, ?_, ?_⟩, fun v w => Value.items?_rel⟩, fun m =>
    ⟨⟨?_, ?_, ?_, ?_, ?_, ?_⟩, fun s t => ⟨?_, fun hshares => ⟨Cells.equal_eq hshares, ?_⟩⟩⟩⟩
  · exact fun v w => Value.equal_symm
  · exact fun u v w => Value.equal_trans
  · rintro v _ rfl
    exact Value.equal_self
  · exact fun v w h => (Value.similar_of_equal h).text
  · exact fun v w h => (Value.similar_of_equal h).kind
  · exact fun v w h => (Value.similar_of_equal h).isTruthy
  · exact fun s t => Cells.equal_symm
  · exact fun s t u => Cells.equal_trans
  · exact fun s t => Cells.equal_of_value_eq
  · exact fun s t h => (Cells.similar_of_equal h).text
  · exact fun s t h => (Cells.similar_of_equal h).kind
  · exact fun s t h => (Cells.similar_of_equal h).isTruthy
  · exact Cells.items?_rel .inr fun _ _ _ _ _ _ _ => .inl rfl
  · refine Cells.items?_rel id fun a hs ht xs hxs x hx => Cells.equal_of_value_eq rfl fun hnan => ?_
    exact hshares ⟨a, hs, ht, Cells.hasNaN_of_mem_items? hxs hx hnan⟩

/-- All chains of a string and then the number `x`, in one shared cell. -/
private def meetingAt (x : Float) : Cells where
  head
    | 0 => .atom (.number x) nofun
    | _ + 1 => .atom (.string "a") nofun
  tail
    | 0 => .atom .nil nofun
    | _ + 1 => .cell 0
  head_older {address _} h := by cases address <;> cases h
  tail_older {address _} h := by
    cases address with
    | zero => cases h
    | succ a =>
      cases h
      exact Nat.zero_lt_succ a

private theorem value_meetingAt_zero (x : Float) :
    (meetingAt x).value (.cell 0) = .list [.number x] :=
  (Cells.value_cell 0).trans (congrArg₂ _ (Cells.value_atom _) (Cells.value_atom _))

private theorem value_meetingAt (x : Float) (a : Nat) :
    (meetingAt x).value (.cell (a + 1)) = .list [.string "a", .number x] :=
  (Cells.value_cell (a + 1)).trans (congrArg₂ _ (Cells.value_atom _) (value_meetingAt_zero x))

private theorem equal_meetingAt (x : Float) (a b : Nat) :
    (meetingAt x).equal (.cell (a + 1)) (.cell (b + 1)) := by
  have hhead : (meetingAt x).equal (.atom (.string "a") nofun) (.atom (.string "a") nofun) :=
    Cells.equal_atom _ _
  exact Cells.equal_cell_iff.2 (.inr ⟨hhead, Cells.equal_cell_iff.2 (.inl rfl)⟩)

/-- Two chains that meet are equal as their values are, except where they meet in a NaN. -/
theorem chains_meet_in_number :
    (meetingAt 0.5).equal (.cell 1) (.cell 2) = (Value.list [.string "a", .number 0.5]).equal
      (.list [.string "a", .number 0.5]) ∧
    (meetingAt .nan).equal (.cell 1) (.cell 2) ∧
    (Value.list [.string "a", .number .nan]).equal (.list [.string "a", .number .nan]) = false := by
  have hnan : ¬(Value.list [.string "a", .number 0.5]).HasNaN := by
    rintro ⟨x, hx, hpart⟩
    have hatom {v : Value} (h : (Value.number x).PartOf v) (hv : v.kind ≠ .pair) : .number x = v :=
      (Value.partOf_atom hv).1 h
    simp only [Value.list_cons, Value.list_nil, Value.partOf_pair, reduceCtorEq, false_or] at hpart
    rcases hpart with h | h | h
    · cases hatom h nofun
    · cases hatom h nofun
      revert hx
      decide +kernel
    · cases hatom h nofun
  have hshares : ¬(meetingAt 0.5).SharesNaN (.cell 1) (.cell 2) := fun ⟨_, hs, _, hcell⟩ =>
    hnan (value_meetingAt 0.5 0 ▸ Cells.hasNaN_of_holds hs hcell)
  have hequal := ((equality_is_sound.2 (meetingAt 0.5)).2 _ _).2 hshares
  rw [value_meetingAt, value_meetingAt] at hequal
  exact ⟨hequal.1, equal_meetingAt _ 0 1, by decide +kernel⟩

/-- One cell is equal to itself whatever it holds, but the number in it need not be. -/
theorem shared_nan_is_not_equal :
    (meetingAt .nan).value (.cell 0) = .list [.number .nan] ∧
    (meetingAt .nan).equal (.cell 0) (.cell 0) ∧
    ¬Option.Rel (List.Forall₂ fun a b => (meetingAt .nan).equal a b)
      ((meetingAt .nan).items? (.cell 0)) ((meetingAt .nan).items? (.cell 0)) := by
  have hitems : (meetingAt .nan).items? (.cell 0) = some [.atom (.number .nan) nofun] := by
    have hend : (meetingAt .nan).items? ((meetingAt .nan).tail 0) = some [] :=
      (Cells.items?_atom _).trans (if_pos rfl)
    rw [Cells.items?_cell, hend]
    rfl
  have hunequal : (meetingAt .nan).equal (.atom (.number .nan) nofun)
      (.atom (.number .nan) nofun) = false := by
    rw [Cells.equal_atom]
    decide +kernel
  refine ⟨value_meetingAt_zero .nan, Cells.equal_cell_iff.2 (.inl rfl), ?_⟩
  intro h
  rw [hitems] at h
  cases h with
  | some h =>
    cases h with
    | cons hequal _ =>
      rw [hunequal] at hequal
      cases hequal

end ScopedLisp
