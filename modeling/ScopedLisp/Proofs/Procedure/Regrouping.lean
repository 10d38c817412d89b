import ScopedLisp.Proofs.Numeral.Value
import ScopedLisp.Proofs.Procedure.Offenders

open Float.Model Float.Model.UnpackedFloat

namespace ScopedLisp

namespace Rounding

/-- A sum may start from negative zero, also if nothing but zeros is added. -/
theorem negativeZero_add (x : Float) : -0.0 + x = x := by
  have hform : BinaryForm.ofFloat (-0.0) = .finite true 0 (-1074) := by decide +kernel
  have hzero : (-0.0 : Float).toModel.unpack = .zero .negative := (unpack_of_ofFloat hform).1
  have hadd : UnpackedFloat.add .binary64 (.zero .negative) x.toModel.unpack =
      x.toModel.unpack := by
    cases x.toModel.unpack with
    | zero s => cases s <;> rfl
    | _ => rfl
  change Float.ofModel (.pack (UnpackedFloat.add _ (-0.0 : Float).toModel.unpack _)) = x
  rw [hzero, hadd, ofModel_pack_unpack]

/-- The product has the magnitude of the double, to which the double itself is nearest. -/
theorem unit_mul_unpacked {m : ℕ} {e : ℤ} (h : IsNormal m e) (negative : Bool) :
    UnpackedFloat.mul .binary64 (.finite .positive (2 ^ 52) (-52) (by decide))
      (unpacked negative m e) = unpacked negative m e := by
  by_cases hm : m = 0
  · rw [unpacked, dif_pos hm]
    cases negative <;> rfl
  have hpos : 0 < m := Nat.pos_of_ne_zero hm
  have hunit : ((2 ^ 52 : ℕ) : ℚ) * 2 ^ (-52 : ℤ) = 1 := by norm_num
  have hsign : Sign.positive * signOf negative = signOf negative := by cases negative <;> rfl
  rw [unpacked, dif_neg hm, mul_finite _ _ _ _ _ _ (Nat.le_mul_of_pos_right _ hpos), hunit,
    one_mul, hsign, nearest_of_isDouble _ hpos h.lt h.ge h.normal]

/-- A product may start from one. -/
theorem unit_mul (x : Float) : 1.0 * x = x := by
  have hform : BinaryForm.ofFloat 1.0 = .finite false (2 ^ 52) (-52) := by decide +kernel
  have hunit : (1.0 : Float).toModel.unpack = .finite .positive (2 ^ 52) (-52) (by decide) :=
    (unpack_of_ofFloat hform).1.trans (dif_neg (by decide))
  have hmul : UnpackedFloat.mul .binary64 (.finite .positive (2 ^ 52) (-52) (by decide))
      x.toModel.unpack = x.toModel.unpack := by
    cases hx : x.toModel.unpack with
    | finite =>
      have hfinite : x.toModel.unpack.isFinite := by rw [hx]; rfl
      obtain ⟨negative, m, e, hform⟩ := exists_ofFloat_of_isFinite hfinite
      obtain ⟨hunpack, hdouble⟩ := unpack_of_ofFloat hform
      rw [← hx, hunpack, unit_mul_unpacked hdouble.isNormal]
    | infinity s | zero s => cases s <;> rfl
    | notANumber => rfl
  change Float.ofModel (.pack (UnpackedFloat.mul _ (1.0 : Float).toModel.unpack _)) = x
  rw [hunit, hmul, ofModel_pack_unpack]

end Rounding

namespace Arithmetic

variable {op : Arithmetic} {xs ys : List Value} {as bs : List Float}

/-- The check of an operand that is not the first one. -/
def laterOperand : Arithmetic → Value → Except EvalError Float
  | divide => divisor
  | op => op.operand

/-- Operands may be taken together from the left where so many are in front and behind. Of a
difference or a quotient neither part may be too short to be one itself. -/
def MayGroup (op : Arithmetic) (front back : Nat) : Prop :=
  op = subtract ∨ op = divide → 2 ≤ front ∧ 1 ≤ back

theorem number_of_laterOperand {v : Value} {x : Float} (h : op.laterOperand v = .ok x) :
    v = .number x := by
  cases op with
  | divide => exact divisor_eq_ok h
  | add | subtract | multiply => exact operand_eq_ok_iff.1 h

/-- The operands in front are checked as they are alone, and then the others. -/
theorem checked_append (h : op.MayGroup xs.length ys.length) : op.checked (xs ++ ys) = do
    let as ← op.checked xs
    let bs ← ys.mapM op.laterOperand
    return as ++ bs := by
  cases op with
  | add | subtract | multiply => exact List.mapM_append
  | divide =>
    match xs, (h (.inr rfl)).1 with
    | v :: w :: vs, _ =>
      simp only [List.cons_append, checked]
      rw [← List.cons_append, List.mapM_append]
      simp [laterOperand]

theorem checked_number_cons {front : Nat} (h : op.MayGroup front ys.length) (x : Float) :
    op.checked (.number x :: ys) = (x :: ·) <$> ys.mapM op.laterOperand := by
  have hfirst : op.operand (.number x) = .ok x := rfl
  cases op with
  | add | subtract | multiply =>
    rw [checked, operands, List.mapM_cons, hfirst]
    rfl
  | divide =>
    obtain ⟨y, ys, rfl⟩ := List.exists_cons_of_length_pos (h (.inr rfl)).2
    rw [checked, hfirst]
    rfl

theorem sum_append (as bs : List Float) : sum (as ++ bs) = sum (sum as :: bs) := by
  rw [sum, List.foldl_append, sum, List.foldl_cons, Rounding.negativeZero_add, sum]

theorem product_append (as bs : List Float) : product (as ++ bs) = product (product as :: bs) := by
  rw [product, List.foldl_append, product, List.foldl_cons, Rounding.unit_mul, product]

/-- Numbers in front have a result, and that result stands for them. -/
theorem exists_combined {back : Nat} (h : op.MayGroup as.length back) :
    ∃ x, op.combined as = .ok x ∧
      ∀ bs : List Float, bs.length = back → op.combined (as ++ bs) = op.combined (x :: bs) := by
  cases op with
  | add => exact ⟨sum as, rfl, fun bs _ => congrArg Except.ok (sum_append as bs)⟩
  | multiply => exact ⟨product as, rfl, fun bs _ => congrArg Except.ok (product_append as bs)⟩
  | subtract | divide =>
    obtain ⟨hfront, hback⟩ := h (by simp)
    match as, hfront with
    | x :: y :: as, _ =>
      refine ⟨_, rfl, fun bs hbs => ?_⟩
      match bs, hbs ▸ hback with
      | b :: bs, _ => exact congrArg Except.ok List.foldl_append

/-- What offends in front is found before what offends behind; if nothing does in front, what is
behind is checked and computed with as it is behind the result. -/
theorem apply_append (h : op.MayGroup xs.length ys.length) :
    op.apply (xs ++ ys) = op.apply xs >>= fun r => op.apply (r :: ys) := by
  rw [apply_eq, apply_eq op xs, checked_append h]
  cases hxs : op.checked xs with
  | error e => rfl
  | ok as =>
    -- All operands in front are numbers, so they have a result, whatever is behind.
    obtain rfl := eq_map_of_checked hxs
    rw [List.length_map] at h
    obtain ⟨x, hx, hstands⟩ := exists_combined h
    change _ = (Value.number <$> op.combined as) >>= _
    rw [hx]
    change _ = op.apply (.number x :: ys)
    rw [apply_eq, checked_number_cons h]
    cases hys : ys.mapM op.laterOperand with
    | error e => rfl
    | ok bs =>
      obtain rfl := eq_map_of_mapM number_of_laterOperand hys
      change Value.number <$> op.combined (as ++ bs) = Value.number <$> op.combined (x :: bs)
      rw [hstands bs (List.length_map _).symm]

/-- Operands may be regrouped from the left. The front alone comes to a value that may stand for
it before any other operands, or to an error that the whole fails with. -/
theorem operands_regroup_from_left (op : Arithmetic) (xs ys : List Value)
    (h : op.MayGroup xs.length ys.length) :
    (∀ r, op.apply xs = .ok r → op.apply (xs ++ ys) = op.apply (r :: ys)) ∧
      ∀ e, op.apply xs = .error e → op.apply (xs ++ ys) = .error e := by
  rw [apply_append h]
  constructor
  · intro r hr
    rw [hr]
    rfl
  · intro e he
    rw [he]
    rfl

/-- A quotient in front stands for its operands also before a zero, and a string in front of the
zero decides the error. Not even an empty sum changes a negative zero. -/
theorem quotient_regroups_before_zero :
    divide.apply ([Value.number 1, .number 4] ++ [Value.number 0, .string "x"]) =
        divide.apply [.number (1 / 4), .number 0, .string "x"] ∧
      divide.apply ([Value.number 1, .string "x"] ++ [Value.number 0]) =
        .error (.typeMismatch "/" "number" .string) ∧
      add.apply ([] ++ [Value.number (-0.0)]) = add.apply [.number (-0.0), .number (-0.0)] := by
  have hquarter : divide.apply [.number 1, .number 4] = .ok (.number (1 / 4)) := rfl
  have hstring : divide.apply [.number 1, .string "x"] =
      .error (.typeMismatch "/" "number" .string) := rfl
  have hempty : add.apply [] = .ok (.number (-0.0)) := rfl
  exact ⟨(operands_regroup_from_left divide [.number 1, .number 4] [.number 0, .string "x"]
      fun _ => ⟨le_refl 2, by simp⟩).1 _ hquarter,
    (operands_regroup_from_left divide [.number 1, .string "x"] [.number 0]
      fun _ => ⟨le_refl 2, le_refl 1⟩).2 _ hstring,
    (operands_regroup_from_left add [] [.number (-0.0)] (by simp [MayGroup])).1 _ hempty⟩

end Arithmetic

end ScopedLisp
