import Mathlib

/-!
Rounding to a double as exact rational arithmetic. A mantissa with its two residual bits is a
magnitude in units of a last place, and shifting it to the right halves the magnitude. So what an
operation returns depends on its rational result alone and not on how many bits of it were at hand:
it is `nearest` of that result.
-/

open Float.Model Float.Model.UnpackedFloat

namespace ScopedLisp.Rounding

/-- A magnitude in units of the last place: the whole units, whether half a unit or more is left,
and whether anything but that half is. -/
def mantissaOf (y : ℚ) : ExtendedMantissa :=
  ⟨⌊y⌋₊, decide (1 ≤ 2 * (y - ⌊y⌋₊)), decide (y - ⌊y⌋₊ ≠ 0 ∧ 2 * (y - ⌊y⌋₊) ≠ 1)⟩

theorem shiftRightOne_mantissaOf {y : ℚ} (hy : 0 ≤ y) :
    (mantissaOf y).shiftRightOne = mantissaOf (y / 2) := by
  have hfloor : ⌊y / 2⌋₊ = ⌊y⌋₊ / 2 := Nat.floor_div_ofNat y 2
  have hsplit : (⌊y⌋₊ : ℚ) = (⌊y⌋₊ % 2 : ℕ) + 2 * (⌊y⌋₊ / 2 : ℕ) := by
    exact_mod_cast (Nat.mod_add_div ⌊y⌋₊ 2).symm
  have hhalf : y / 2 - (⌊y⌋₊ / 2 : ℕ) = ((⌊y⌋₊ % 2 : ℕ) + (y - ⌊y⌋₊)) / 2 := by linarith
  have hlow : 0 ≤ y - ⌊y⌋₊ := sub_nonneg.2 (Nat.floor_le hy)
  have hhigh : y - ⌊y⌋₊ < 1 := by linarith [Nat.lt_floor_add_one y]
  unfold mantissaOf ExtendedMantissa.shiftRightOne
  simp only [hfloor, hhalf]
  generalize y - ⌊y⌋₊ = r at hlow hhigh
  have hbit := Nat.mod_two_eq_zero_or_one ⌊y⌋₊
  refine congrArg₂ (ExtendedMantissa.mk _) (Bool.eq_iff_iff.2 ?_) (Bool.eq_iff_iff.2 ?_)
  all_goals
    simp only [Bool.or_eq_true, decide_eq_true_eq, bne_iff_ne]
    rcases hbit with hbit | hbit <;> rw [hbit] <;> grind

theorem mantissaOf_shiftRight {y : ℚ} (hy : 0 ≤ y) (n : ℕ) :
    mantissaOf y >>> n = mantissaOf (y / 2 ^ n) := by
  induction n with
  | zero => simp [HShiftRight.hShiftRight, Nat.repeat]
  | succ n ih =>
    have hstep : mantissaOf y >>> (n + 1) = (mantissaOf y >>> n).shiftRightOne := rfl
    rw [hstep, ih, shiftRightOne_mantissaOf (by positivity), pow_succ, div_div]

theorem ofMantissaAndAccuracy_exact (m : ℕ) :
    ExtendedMantissa.ofMantissaAndAccuracy m .exact = mantissaOf m := by
  simp [ExtendedMantissa.ofMantissaAndAccuracy, mantissaOf]

theorem ofMantissaAndAccuracy_fraction (n : ℕ) {d : ℕ} (hd : 0 < d) :
    ExtendedMantissa.ofMantissaAndAccuracy (n / d) (accuracyOfFraction (n % d) d) =
      mantissaOf (n / d) := by
  have hd' : (0 : ℚ) < d := by exact_mod_cast hd
  have hsplit : (n : ℚ) = (n % d : ℕ) + d * (n / d : ℕ) := by
    exact_mod_cast (Nat.mod_add_div n d).symm
  have hleft : (n : ℚ) / d - (n / d : ℕ) = (n % d : ℕ) / d := by
    field_simp
    linarith
  unfold mantissaOf accuracyOfFraction
  rw [Nat.floor_div_eq_div, hleft]
  split
  · next h => simp [h, ExtendedMantissa.ofMantissaAndAccuracy]
  · next h =>
    have hne : ((n % d : ℕ) : ℚ) / d ≠ 0 := by positivity
    rcases lt_trichotomy (2 * (n % d)) d with hcmp | hcmp | hcmp
    · have : 2 * (((n % d : ℕ) : ℚ) / d) < 1 := by
        rw [← mul_div_assoc, div_lt_one hd']
        exact_mod_cast hcmp
      simp [compare_lt_iff_lt.2 hcmp, ExtendedMantissa.ofMantissaAndAccuracy, hne, this.ne,
        not_le.2 this]
    · have : 2 * (((n % d : ℕ) : ℚ) / d) = 1 := by
        rw [← mul_div_assoc, div_eq_one_iff_eq hd'.ne']
        exact_mod_cast hcmp
      simp [compare_eq_iff_eq.2 hcmp, ExtendedMantissa.ofMantissaAndAccuracy, this]
    · have : 1 < 2 * (((n % d : ℕ) : ℚ) / d) := by
        rw [← mul_div_assoc, one_lt_div hd']
        exact_mod_cast hcmp
      simp [compare_gt_iff_gt.2 hcmp, ExtendedMantissa.ofMantissaAndAccuracy, hne, this.ne',
        this.le]

/-- The exponent of the last place of the doubles around a magnitude. -/
def lastPlace (q : ℚ) : ℤ := max (Int.log 2 q - 52) (-1074)

theorem targetExponent_totalExponent (m : ℕ) (e : ℤ) :
    Format.binary64.targetExponent (totalExponent m e) = max (m.log2 + e - 52) (-1074) := by
  simp only [Format.targetExponent, totalExponent, Format.mantissaBits, Format.minExponent]
  norm_num
  omega

theorem log_mul_zpow {y : ℚ} (hy : 0 < y) (e : ℤ) :
    Int.log 2 (y * 2 ^ e) = Int.log 2 y + e := by
  refine eq_of_forall_le_iff fun x => ?_
  have hscaled : 0 < y * 2 ^ e := by positivity
  have hle := Int.zpow_le_iff_le_log (R := ℚ) Nat.one_lt_two (x := x) hscaled
  have hle' := Int.zpow_le_iff_le_log (R := ℚ) Nat.one_lt_two (x := x - e) hy
  have hpow : (2 : ℚ) ^ (x - e) * 2 ^ e = 2 ^ x := by
    rw [← zpow_add₀ two_ne_zero, sub_add_cancel]
  have hmul := mul_le_mul_iff_left₀ (b := (2 : ℚ) ^ (x - e)) (c := y)
    (show (0 : ℚ) < 2 ^ e by positivity)
  rw [hpow] at hmul
  rw [← hle, ← sub_le_iff_le_add, ← hle']
  exact hmul

theorem log_eq_log2_floor {y : ℚ} (hy : 1 ≤ y) : Int.log 2 y = ⌊y⌋₊.log2 := by
  rw [Int.log_of_one_le_right 2 hy, Nat.log2_eq_log_two]

/-- The units of a place at or below the last one tell which place is the last. -/
theorem targetExponent_floor {q : ℚ} (hq : 0 < q) {e : ℤ} (he : e ≤ lastPlace q) :
    Format.binary64.targetExponent (totalExponent ⌊q / 2 ^ e⌋₊ e) = lastPlace q := by
  have hy : 0 < q / 2 ^ e := by positivity
  have hlog : Int.log 2 q = Int.log 2 (q / 2 ^ e) + e := by
    rw [← log_mul_zpow hy, div_mul_cancel₀ q (by positivity)]
  rw [targetExponent_totalExponent]
  unfold lastPlace at he ⊢
  rcases le_or_gt 1 (q / 2 ^ e) with hone | hone
  · rw [hlog, log_eq_log2_floor hone]
  · have hneg : Int.log 2 (q / 2 ^ e) < 0 := by
      rwa [← Int.lt_zpow_iff_log_lt Nat.one_lt_two hy, zpow_zero]
    rw [Nat.floor_eq_zero.2 hone, Nat.log2_zero]
    omega

/-- Whole units of a place as a double, when there may be one bit more of them than fits. -/
def settle (s : Sign) (m : ℕ) (e : ℤ) : UnpackedFloat :=
  let shifted := shiftToTargetExponent .binary64 m e .exact
  if h : shifted.1.mantissa = 0 then .zero s
  else .finite s shifted.1.mantissa shifted.2 (Nat.pos_of_ne_zero h)

/-- The double nearest to a positive magnitude, a tie going to the even one, with exponents as
great as needed. -/
def nearest (s : Sign) (q : ℚ) : UnpackedFloat :=
  settle s (mantissaOf (q / 2 ^ lastPlace q)).roundedMantissa (lastPlace q)

/-- An approximation from below rounds to what the magnitude rounds to. -/
theorem roundWithAccuracy_eq_nearest (s : Sign) {q : ℚ} (hq : 0 < q) {m : ℕ} {e : ℤ}
    {accuracy : Accuracy} (he : e ≤ lastPlace q)
    (h : ExtendedMantissa.ofMantissaAndAccuracy m accuracy = mantissaOf (q / 2 ^ e)) :
    roundWithAccuracy .binary64 s m e accuracy = nearest s q := by
  have hm : m = ⌊q / 2 ^ e⌋₊ := by
    have := congrArg ExtendedMantissa.mantissa h
    rcases accuracy with _ | _ | _ | _ <;> exact this
  have hshift : e + ((lastPlace q - e).toNat : ℤ) = lastPlace q := by omega
  have hfirst : shiftToTargetExponent .binary64 m e accuracy =
      (mantissaOf (q / 2 ^ lastPlace q), lastPlace q) := by
    unfold shiftToTargetExponent shiftToExponent
    rw [hm, targetExponent_floor hq he, ← hm, h]
    dsimp only
    rw [mantissaOf_shiftRight (by positivity), hshift, div_div, ← zpow_natCast,
      ← zpow_add₀ two_ne_zero, hshift]
  unfold roundWithAccuracy nearest
  rw [hfirst]
  rfl

theorem settle_zero (s : Sign) (e : ℤ) : settle s 0 e = .zero s := by
  have hzero : (shiftToTargetExponent .binary64 0 e .exact).1.mantissa = 0 := by
    unfold shiftToTargetExponent shiftToExponent
    dsimp only
    rw [ofMantissaAndAccuracy_exact, mantissaOf_shiftRight (by simp)]
    simp [mantissaOf]
  simp [settle, hzero]

theorem settle_of_lt (s : Sign) {m : ℕ} (hpos : 0 < m) (hm : m < 2 ^ 53) {e : ℤ} (he : -1074 ≤ e) :
    settle s m e = .finite s m e hpos := by
  have hlog : m.log2 < 53 := (Nat.log2_lt hpos.ne').2 hm
  have hshift : shiftToTargetExponent .binary64 m e .exact = (⟨m, false, false⟩, e) := by
    have hamount : (max ((m.log2 : ℤ) + e - 52) (-1074) - e).toNat = 0 := by omega
    unfold shiftToTargetExponent shiftToExponent
    rw [targetExponent_totalExponent]
    dsimp only
    rw [hamount, Nat.cast_zero, add_zero]
    rfl
  simp [settle, hshift, hpos.ne']

theorem log_natCast_mul_zpow {m : ℕ} (hm : 0 < m) (e : ℤ) :
    Int.log 2 ((m : ℚ) * 2 ^ e) = m.log2 + e := by
  rw [log_mul_zpow (by exact_mod_cast hm), Int.log_natCast, Nat.log2_eq_log_two]

/-- A double is nearest to its own magnitude. -/
theorem nearest_of_isDouble (s : Sign) {m : ℕ} {e : ℤ} (hpos : 0 < m) (hm : m < 2 ^ 53)
    (he : -1074 ≤ e) (hnormal : 2 ^ 52 ≤ m ∨ e = -1074) :
    nearest s (m * 2 ^ e) = .finite s m e hpos := by
  have hlog : m.log2 < 53 := (Nat.log2_lt hpos.ne').2 hm
  have hplace : lastPlace (m * 2 ^ e) = e := by
    unfold lastPlace
    rw [log_natCast_mul_zpow hpos]
    rcases hnormal with hnormal | rfl
    · have := (Nat.le_log2 hpos.ne').2 hnormal
      omega
    · omega
  unfold nearest
  rw [hplace, mul_div_cancel_right₀ _ (by positivity), ← ofMantissaAndAccuracy_exact]
  exact settle_of_lt s hpos hm he

theorem mul_finite (s t : Sign) {m₁ m₂ : ℕ} (e₁ e₂ : ℤ) (h₁ : 0 < m₁) (h₂ : 0 < m₂)
    (hm : 2 ^ 52 ≤ m₁ * m₂) :
    mul .binary64 (.finite s m₁ e₁ h₁) (.finite t m₂ e₂ h₂) =
      nearest (s * t) (m₁ * 2 ^ e₁ * (m₂ * 2 ^ e₂)) := by
  have hpos : 0 < m₁ * m₂ := Nat.mul_pos h₁ h₂
  have hq : (m₁ * 2 ^ e₁ * (m₂ * 2 ^ e₂) : ℚ) = (m₁ * m₂ : ℕ) * 2 ^ (e₁ + e₂) := by
    rw [zpow_add₀ two_ne_zero]
    push_cast
    ring
  have hlog := (Nat.le_log2 hpos.ne').2 hm
  rw [hq]
  refine roundWithAccuracy_eq_nearest (s * t) (by positivity) ?_ ?_
  · unfold lastPlace
    rw [log_natCast_mul_zpow hpos]
    omega
  · rw [mul_div_cancel_right₀ _ (by positivity), ofMantissaAndAccuracy_exact]

/-- A quotient is at least half of what the leading bits let expect. -/
theorem le_log_div {m₁ m₂ : ℕ} (h₁ : 0 < m₁) (h₂ : 0 < m₂) (e : ℤ) :
    (m₁.log2 : ℤ) - m₂.log2 - 1 + e ≤ Int.log 2 ((m₁ : ℚ) / m₂ * 2 ^ e) := by
  have hlow : (2 : ℚ) ^ m₁.log2 ≤ m₁ := by exact_mod_cast Nat.log2_self_le h₁.ne'
  have hhigh : (m₂ : ℚ) ≤ 2 ^ (m₂.log2 + 1) := by exact_mod_cast Nat.lt_log2_self.le
  have hpos : (0 : ℚ) < m₂ := by exact_mod_cast h₂
  have hdiv : (2 : ℚ) ^ ((m₁.log2 : ℤ) - m₂.log2 - 1) ≤ (m₁ : ℚ) / m₂ := by
    rw [sub_sub, zpow_sub₀ two_ne_zero, zpow_natCast]
    exact div_le_div₀ (by positivity) hlow hpos (by exact_mod_cast hhigh)
  rw [log_mul_zpow (by positivity)]
  have := (Int.zpow_le_iff_le_log (R := ℚ) Nat.one_lt_two (by positivity)).1 hdiv
  omega

theorem div_finite (s t : Sign) {m₁ m₂ : ℕ} (e₁ e₂ : ℤ) (h₁ : 0 < m₁) (h₂ : 0 < m₂) :
    div .binary64 (.finite s m₁ e₁ h₁) (.finite t m₂ e₂ h₂) =
      nearest (s / t) (m₁ * 2 ^ e₁ / (m₂ * 2 ^ e₂)) := by
  have hq : (m₁ * 2 ^ e₁ / (m₂ * 2 ^ e₂) : ℚ) = m₁ / m₂ * 2 ^ (e₁ - e₂) := by
    rw [zpow_sub₀ two_ne_zero]
    field_simp
  have hlog := le_log_div h₁ h₂ (e₁ - e₂)
  have htarget : Format.binary64.targetExponent (totalExponent m₁ e₁ - totalExponent m₂ e₂) ≤
      lastPlace (m₁ / m₂ * 2 ^ (e₁ - e₂)) := by
    simp only [Format.targetExponent, totalExponent, Format.mantissaBits, Format.minExponent,
      lastPlace]
    norm_num
    omega
  rw [hq]
  refine roundWithAccuracy_eq_nearest (s / t) (by positivity) ((min_le_right _ _).trans htarget) ?_
  generalize htop : min (e₁ - e₂)
    (Format.binary64.targetExponent (totalExponent m₁ e₁ - totalExponent m₂ e₂)) = top
  have hamount : e₁ - e₂ = top + ((e₁ - e₂ - top).toNat : ℤ) := by omega
  rw [ofMantissaAndAccuracy_fraction _ h₂, Nat.shiftLeft_eq]
  congr 1
  rw [show (2 : ℚ) ^ (e₁ - e₂) = 2 ^ (top + ((e₁ - e₂ - top).toNat : ℤ)) by rw [← hamount],
    zpow_add₀ two_ne_zero, zpow_natCast]
  push_cast
  field_simp

theorem round_eq_nearest (s : Sign) {m : ℕ} (hm : 0 < m) (e : ℤ) :
    round .binary64 s m e = nearest s (m * 2 ^ e) := by
  have hplace : Format.binary64.targetExponent (totalExponent m e) = lastPlace (m * 2 ^ e) := by
    rw [targetExponent_totalExponent, lastPlace, log_natCast_mul_zpow hm]
  unfold UnpackedFloat.round decreaseExponent
  rw [hplace]
  dsimp only
  refine roundWithAccuracy_eq_nearest s (by positivity) (by omega) ?_
  rw [ofMantissaAndAccuracy_exact, Nat.shiftLeft_eq, zpow_sub₀ two_ne_zero, zpow_natCast]
  congr 1
  push_cast
  field_simp

theorem roundedMantissa_zero : (mantissaOf (0 / 2 ^ lastPlace 0)).roundedMantissa = 0 := by
  rw [zero_div, ← Nat.cast_zero, ← ofMantissaAndAccuracy_exact]
  rfl

theorem nearest_zero (s : Sign) : nearest s 0 = .zero s := by
  rw [nearest, roundedMantissa_zero, settle_zero]

/-- Less than half of the least positive double rounds to zero. -/
theorem nearest_of_lt (s : Sign) {q : ℚ} (hq : 0 < q) (h : q < 2 ^ (-1075 : ℤ)) :
    nearest s q = .zero s := by
  have hplace : lastPlace q = -1074 := by
    have := (Int.lt_zpow_iff_log_lt (R := ℚ) Nat.one_lt_two hq).1 h
    unfold lastPlace
    omega
  have hhalf : q / 2 ^ (-1074 : ℤ) < 1 / 2 := by
    rw [div_lt_iff₀ (by positivity)]
    calc q < 2 ^ (-1075 : ℤ) := h
      _ = 1 / 2 * 2 ^ (-1074 : ℤ) := by
        rw [show (-1075 : ℤ) = -1 + -1074 by norm_num, zpow_add₀ two_ne_zero,
          zpow_neg_one, one_div]
  have hfloor : ⌊q / 2 ^ (-1074 : ℤ)⌋₊ = 0 := Nat.floor_eq_zero.2 (by linarith)
  have hbit : ¬1 ≤ 2 * (q / 2 ^ (-1074 : ℤ)) := by linarith
  have hround : (mantissaOf (q / 2 ^ (-1074 : ℤ))).roundedMantissa = 0 := by
    have hround' : ∀ sticky, (⟨0, false, sticky⟩ : ExtendedMantissa).roundedMantissa = 0 := by
      decide
    simp only [mantissaOf, hfloor, Nat.cast_zero, sub_zero, hbit, decide_false]
    exact hround' _
  rw [nearest, hplace, hround, settle_zero]

theorem le_roundedMantissa (y : ExtendedMantissa) : y.mantissa ≤ y.roundedMantissa := by
  rcases y with ⟨m, _ | _, _ | _⟩ <;>
    simp [ExtendedMantissa.roundedMantissa, ExtendedMantissa.accuracy,
      Accuracy.roundToNearestEven]

/-- A place never goes down, and something is left of every mantissa. -/
theorem settle_of_pos (s : Sign) {m : ℕ} (hm : 0 < m) {e : ℤ} (he : -1074 ≤ e) :
    ∃ m' e' h, settle s m e = .finite s m' e' h ∧ e ≤ e' := by
  have hamount : (max ((m.log2 : ℤ) + e - 52) (-1074) - e).toNat ≤ m.log2 := by omega
  have hleft : (shiftToTargetExponent .binary64 m e .exact).1.mantissa ≠ 0 := by
    unfold shiftToTargetExponent shiftToExponent
    rw [targetExponent_totalExponent]
    dsimp only
    rw [ofMantissaAndAccuracy_exact, mantissaOf_shiftRight (by positivity)]
    refine (Nat.floor_pos.2 ((one_le_div (by positivity)).2 ?_)).ne'
    exact_mod_cast (Nat.pow_le_pow_right Nat.two_pos hamount).trans (Nat.log2_self_le hm.ne')
  refine ⟨_, _, Nat.pos_of_ne_zero hleft, by simp only [settle, hleft, ↓reduceDIte]; rfl, ?_⟩
  exact le_add_of_nonneg_right (Int.natCast_nonneg _)

/-- A magnitude beyond all doubles is packed as an infinity. -/
theorem pack_nearest_of_le (s : Sign) {q : ℚ} (h : 2 ^ (1024 : ℤ) ≤ q) :
    UnpackedFloat.pack .binary64 (nearest s q) = packedInfinity .binary64 s := by
  have hq : 0 < q := lt_of_lt_of_le (by positivity) h
  have hplace : 972 ≤ lastPlace q := by
    have := (Int.zpow_le_iff_le_log (R := ℚ) Nat.one_lt_two hq).1 h
    unfold lastPlace
    omega
  have hone : 1 ≤ q / 2 ^ lastPlace q := by
    have := (Int.zpow_le_iff_le_log (R := ℚ) Nat.one_lt_two (x := lastPlace q) hq).2 (by
      unfold lastPlace at hplace ⊢
      omega)
    rwa [one_le_div (by positivity)]
  have hpos : 0 < (mantissaOf (q / 2 ^ lastPlace q)).roundedMantissa :=
    (Nat.floor_pos.2 hone).trans_le (le_roundedMantissa (mantissaOf _))
  obtain ⟨m, e, hm, hsettle, he⟩ := settle_of_pos s hpos (by omega : -1074 ≤ lastPlace q)
  have hfield : 2 ^ 11 ≤ (e + 1023 + 52).toNat + 1 := by omega
  rw [nearest, hsettle]
  exact if_pos hfield

end ScopedLisp.Rounding
