import ScopedLisp.Proofs.Numeral.Nearest
import ScopedLisp.Proofs.Numeral.Written

open Float.Model Float.Model.UnpackedFloat

namespace ScopedLisp

namespace Rounding

variable {negative negative' : Bool} {m m' : ℕ} {e e' : ℤ}

theorem signOf_injective : Function.Injective signOf := by
  rintro (_ | _) (_ | _) h <;> first | rfl | cases h

theorem unpacked_injective (h : IsNormal m e) (h' : IsNormal m' e')
    (heq : unpacked negative m e = unpacked negative' m' e') :
    negative = negative' ∧ m = m' ∧ e = e' := by
  unfold unpacked at heq
  split at heq <;> split at heq
  · next hm hm' =>
    have he : e = -1074 := h.normal.resolve_left (by omega)
    have he' : e' = -1074 := h'.normal.resolve_left (by omega)
    exact ⟨signOf_injective (UnpackedFloat.zero.inj heq), hm.trans hm'.symm, he.trans he'.symm⟩
  · cases heq
  · cases heq
  · obtain ⟨hsign, hm, he⟩ := UnpackedFloat.finite.inj heq
    exact ⟨signOf_injective hsign, hm, he⟩

/-- The bits of a packed double hold what was packed. -/
theorem ofFloat_ofModel_pack (h : IsDouble m e) (negative : Bool) :
    BinaryForm.ofFloat (.ofModel (.pack (unpacked negative m e))) = .finite negative m e := by
  have hunpack := unpack_pack_unpacked h negative
  have hfinite : (Float.ofModel (.pack (unpacked negative m e))).isFinite := by
    change UnpackedFloat.isFinite _ = true
    rw [show (Float.ofModel (.pack (unpacked negative m e))).toModel.unpack = _ from hunpack]
    unfold unpacked
    split <;> rfl
  obtain ⟨negative', m', e', hform⟩ := exists_ofFloat_of_isFinite hfinite
  obtain ⟨hunpack', hdouble⟩ := unpack_of_ofFloat hform
  obtain ⟨rfl, rfl, rfl⟩ := unpacked_injective h.isNormal hdouble.isNormal
    (hunpack.symm.trans hunpack')
  exact hform

/-- The exponent field has no room for a greater exponent. -/
theorem pack_unpacked_of_lt (h : IsNormal m e) (he : 971 < e) :
    Float.Model.pack (unpacked false m e) = .pack (.infinity .positive) := by
  have hm : m ≠ 0 := by
    have := h.normal.resolve_right (by omega)
    omega
  have hfield : 2 ^ 11 ≤ (e + 1023 + 52).toNat + 1 := by omega
  have hpack : UnpackedFloat.pack .binary64 (unpacked false m e) =
      UnpackedFloat.pack .binary64 (.infinity .positive) := by
    rw [unpacked, dif_neg hm]
    exact if_pos hfield
  unfold Float.Model.pack
  simp only [hpack]

theorem two_pow_le_of_lt (h : IsNormal m e) (he : 971 < e) : (2 : ℚ) ^ 1024 ≤ m * 2 ^ e := by
  have hm : (2 : ℚ) ^ 52 ≤ m := by exact_mod_cast h.normal.resolve_right (by omega)
  have hpow : (2 : ℚ) ^ 972 ≤ 2 ^ e := by
    rw [← zpow_ofNat]
    exact zpow_le_zpow_right₀ one_le_two he
  rw [show 1024 = 52 + 972 from rfl, pow_add]
  gcongr

/-- Rounding gives the double that the magnitude is rounded to, or an infinity where that is too
large. -/
theorem ofFloat_double {q : ℚ} (hq : 0 ≤ q) (negative : Bool) :
    BinaryForm.ofFloat (if negative then -double q else double q) = .infinite negative ∧
        2 ^ 1024 ≤ rounded q ∨
      ∃ m e, BinaryForm.ofFloat (if negative then -double q else double q) =
          .finite negative m e ∧ rounded q = m * 2 ^ e ∧
        (2 ∣ (mantissaOf (q / 2 ^ lastPlace q)).roundedMantissa → 2 ∣ m) := by
  obtain ⟨m, e, hnormal, hrounded, hnearest, heven⟩ := exists_nearest hq
  have hdouble : double q = .ofModel (.pack (unpacked false m e)) := by
    rw [← hnearest]
    rfl
  rcases le_or_gt e 971 with he | he
  · have h : IsDouble m e := ⟨hnormal.lt, hnormal.ge, he, hnormal.normal⟩
    refine .inr ⟨m, e, ?_, hrounded, heven⟩
    rw [hdouble, neg_ofModel_pack h]
    cases negative
    · exact ofFloat_ofModel_pack h false
    · exact ofFloat_ofModel_pack h true
  · refine .inl ⟨?_, hrounded ▸ two_pow_le_of_lt hnormal he⟩
    rw [hdouble, pack_unpacked_of_lt hnormal he]
    cases negative <;> decide +kernel

end Rounding

open Rounding

namespace Numeral

theorem magnitude_nonneg (n : Numeral) : 0 ≤ n.magnitude := by
  unfold magnitude
  positivity

variable {x : Float} {negative : Bool} {m : ℕ} {e : ℤ} {n : Numeral}

theorem eq_of_value_beq (hx : BinaryForm.ofFloat x = .finite negative m e) (hm : m ≠ 0)
    (h : n.value == x) : n.value = x := by
  have hzero {y : Float} (negative' : Bool)
      (hy : BinaryForm.ofFloat y = .finite negative' 0 (-1074)) : x ≠ y := by
    rintro rfl
    rw [hx] at hy
    cases hy
    exact hm rfl
  obtain ⟨-, -, heq | ⟨-, heq⟩ | ⟨-, heq⟩⟩ := Float.beq_iff_ne_nan_and_eq.1 h
  · exact heq
  · exact absurd heq (hzero true (by decide +kernel))
  · exact absurd heq (hzero false (by decide +kernel))

/-- A numeral of the same sign is read back to a double if its magnitude is rounded to that of the
double. -/
theorem value_beq_iff (hx : BinaryForm.ofFloat x = .finite negative m e) (hm : m ≠ 0)
    (hn : n.negative = negative) : n.value == x ↔ rounded n.magnitude = m * 2 ^ e := by
  constructor
  · intro h
    have hform := ofFloat_double n.magnitude_nonneg n.negative
    rw [← value_eq, eq_of_value_beq hx hm h, hx] at hform
    rcases hform with ⟨hform, -⟩ | ⟨m', e', hform, hrounded, -⟩
    · cases hform
    · cases hform
      exact hrounded
  · intro h
    have hvalue : n.value = x := by
      rw [value_eq, ← double_rounded n.magnitude_nonneg, h, hn]
      exact (eq_double hx).symm
    rw [hvalue]
    exact beq_self_of_finite hx

end Numeral

/-- The number that a finite double stands for. -/
def numberOf (x : Float) : ℚ :=
  match BinaryForm.ofFloat x with
  | .finite negative m e => if negative then -(m * 2 ^ e) else m * 2 ^ e
  | _ => 0

/-- The number that a numeral denotes. -/
def Numeral.number (n : Numeral) : ℚ := if n.negative then -n.magnitude else n.magnitude

/-- The double is the nearest to the number. If another one is as near, its significand is even. -/
def RoundsTo (q : ℚ) (x : Float) : Prop :=
  ∃ negative m e, BinaryForm.ofFloat x = .finite negative m e ∧
    ∀ y : Float, y.isFinite → Prevails q (numberOf x) (numberOf y) (2 ∣ m)

theorem numberOf_eq {x : Float} {negative : Bool} {m : ℕ} {e : ℤ}
    (h : BinaryForm.ofFloat x = .finite negative m e) :
    numberOf x = if negative then -(m * 2 ^ e : ℚ) else m * 2 ^ e := by
  rw [numberOf, h]

theorem Numeral.roundsTo_of_ofFloat {n : Numeral} {negative : Bool} {m : ℕ} {e : ℤ}
    (hx : BinaryForm.ofFloat n.value = .finite negative m e) : RoundsTo n.number n.value := by
  have hform := ofFloat_double n.magnitude_nonneg n.negative
  rw [← value_eq, hx] at hform
  obtain ⟨hform, -⟩ | ⟨m, e, hform, hrounded, heven⟩ := hform
  · cases hform
  cases hform
  refine ⟨_, _, _, hx, fun y hy => ?_⟩
  obtain ⟨negative, m', e', hy⟩ := exists_ofFloat_of_isFinite hy
  have hdouble := (unpack_of_ofFloat hy).2
  have hprevails : Prevails n.magnitude (m * 2 ^ e) (m' * 2 ^ e') (2 ∣ m) := by
    have := prevails_rounded n.magnitude_nonneg hdouble.lt hdouble.ge
    rw [hrounded] at this
    exact this.imp_right (.imp_right (.imp_right heven))
  have hzero (hnone : n.magnitude = 0) : (m : ℚ) * 2 ^ e = 0 := by
    rw [← hrounded, hnone, rounded_zero]
  have hopposite := hprevails.neg_right n.magnitude_nonneg (by positivity) (by positivity) hzero
  rw [numberOf_eq hx, numberOf_eq hy, number]
  cases n.negative <;> cases negative
  · exact hprevails
  · exact hopposite
  · simpa using hopposite.neg
  · exact hprevails.neg

/-- Reading rounds correctly: to the nearest double, and in the middle to the even one. -/
theorem Numeral.roundsTo_value {n : Numeral} (h : n.value.isFinite) :
    RoundsTo n.number n.value := by
  obtain ⟨negative, m, e, hx⟩ := exists_ofFloat_of_isFinite h
  exact roundsTo_of_ofFloat hx

end ScopedLisp
