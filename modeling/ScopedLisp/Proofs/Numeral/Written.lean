import ScopedLisp.Proofs.Numeral.Text
import ScopedLisp.Proofs.Numeral.Value

namespace ScopedLisp

section Written

variable {x : Float} {negative : Bool} {m : ℕ} {e : ℤ}

theorem beq_self_of_finite (hx : BinaryForm.ofFloat x = .finite negative m e) : x == x := by
  rw [Float.beq_self_iff]
  rintro rfl
  have : BinaryForm.ofFloat Float.nan = .notANumber := by decide +kernel
  rw [this] at hx
  cases hx

theorem double_zero_eq : Rounding.double 0 = 0 := by
  rw [Rounding.double_zero]
  decide +kernel

/-- A numeral that denotes a double has a value equal to it; the sign of a zero does not count. -/
theorem Numeral.value_beq {n : Numeral} (hx : BinaryForm.ofFloat x = .finite negative m e)
    (h : n.magnitude = m * 2 ^ e) (hsign : n.negative = negative ∨ m = 0) : n.value == x := by
  by_cases hneg : n.negative = negative
  · rw [value_of_ofFloat (hneg ▸ hx) h]
    exact beq_self_of_finite hx
  · have hzero : (m : ℚ) * 2 ^ e = 0 := by rw [hsign.resolve_left hneg, Nat.cast_zero, zero_mul]
    rw [value_eq, h, Rounding.eq_double hx, hzero, double_zero_eq]
    cases n.negative <;> cases negative <;> decide +kernel

theorem eq_zero_of_beq_zero (hx : BinaryForm.ofFloat x = .finite negative m e) {n : Numeral}
    (hn : n.significand = 0) (h : n.value == x) : m = 0 := by
  have hzeros : n.value = 0 ∨ n.value = -0 := by
    rw [Numeral.value_eq, Numeral.magnitude, hn, Nat.cast_zero, zero_mul, double_zero_eq]
    cases n.negative
    · exact .inl rfl
    · exact .inr rfl
  have hforms : ∀ y : Float, y = 0 ∨ y = -0 → ∃ negative, BinaryForm.ofFloat y =
      .finite negative 0 (-1074) := by
    rintro y (rfl | rfl)
    · exact ⟨false, by decide +kernel⟩
    · exact ⟨true, by decide +kernel⟩
  obtain ⟨-, -, heq⟩ := Float.beq_iff_ne_nan_and_eq.1 h
  obtain ⟨negative', hform⟩ := hforms x (by
    rcases heq with heq | ⟨-, heq⟩ | ⟨-, heq⟩
    · exact heq ▸ hzeros
    · exact .inr heq
    · exact .inl heq)
  rw [hform] at hx
  cases hx
  rfl

theorem Fraction.ofBinary_eq (m : ℕ) (e : ℤ) :
    ((Fraction.ofBinary m e).numerator : ℚ) / (Fraction.ofBinary m e).denominator = m * 2 ^ e := by
  unfold Fraction.ofBinary
  simp only [Nat.pow_eq]
  rcases le_total 0 e with he | he
  · obtain ⟨k, rfl⟩ := Int.eq_ofNat_of_zero_le he
    simp
  · obtain ⟨k, rfl⟩ : ∃ k : ℕ, e = -k := ⟨(-e).toNat, by omega⟩
    simp [div_eq_mul_inv]

theorem Digits.magnitude_exact (m : ℕ) (e : ℤ) : (Digits.exact m e).magnitude = m * 2 ^ e := by
  rw [Digits.exact, Digits.magnitude_ofNat]
  simp only [Nat.pow_eq]
  rcases le_total 0 e with he | he
  · obtain ⟨k, rfl⟩ := Int.eq_ofNat_of_zero_le he
    simp
  · obtain ⟨k, rfl⟩ : ∃ k : ℕ, e = -k := ⟨(-e).toNat, by omega⟩
    have hten : (10 : ℚ) = 2 * 5 := by norm_num
    have hnone : (-k : ℤ).toNat = 0 := by omega
    simp only [neg_neg, Int.toNat_natCast, hnone, pow_zero, mul_one, min_eq_left he, zpow_neg,
      zpow_natCast, hten, mul_pow, Nat.cast_mul, Nat.cast_pow, Nat.cast_ofNat]
    field_simp

namespace Digits

/-- Every numeral with these digits has a value equal to `x`. -/
def ReadBack (x : Float) (negative : Bool) (d : Digits) : Prop :=
  d.IsProper ∧ ∀ n : Numeral, n.negative = negative → n.magnitude = d.magnitude → n.value == x

theorem readBack_ofNat (hx : BinaryForm.ofFloat x = .finite negative m e) (hm : m ≠ 0) {n : ℕ}
    {place : ℤ} (h : (Numeral.mk negative n place).value == x) :
    ReadBack x negative (ofNat n place) := by
  have hn : n ≠ 0 := fun hn => hm (eq_zero_of_beq_zero hx hn h)
  refine ⟨isProper_ofNat (Nat.pos_of_ne_zero hn) place, fun n' hsign hmagnitude => ?_⟩
  rw [magnitude_ofNat] at hmagnitude
  have hvalue : n'.value = (Numeral.mk negative n place).value :=
    Numeral.value_congr hsign hmagnitude
  rwa [hvalue]

theorem readBack_of_neighbour (hx : BinaryForm.ofFloat x = .finite negative m e) (hm : m ≠ 0)
    {f : Fraction} {place : ℤ} {d : Digits} (h : neighbour? x negative f place = some d) :
    ReadBack x negative d := by
  unfold neighbour? at h
  dsimp only at h
  split at h
  all_goals
    split at h
    · next hread =>
      cases h
      exact readBack_ofNat hx hm hread
    · split at h
      · next hread =>
        cases h
        exact readBack_ofNat hx hm hread
      · cases h

theorem readBack_exact (hx : BinaryForm.ofFloat x = .finite negative m e) (hm : m ≠ 0) :
    ReadBack x negative (exact m e) := by
  have hpos : 0 < m * Nat.pow 2 e.toNat * Nat.pow 5 (-e).toNat := by
    simp only [Nat.pow_eq]
    positivity
  refine ⟨isProper_ofNat hpos _, fun n hsign hmagnitude => ?_⟩
  rw [magnitude_exact] at hmagnitude
  exact Numeral.value_beq hx hmagnitude (.inl hsign)

theorem readBack_shortest (hx : BinaryForm.ofFloat x = .finite negative m e) (hm : m ≠ 0) :
    ReadBack x negative (shortest x negative m e) := by
  unfold shortest
  dsimp only
  cases h : (List.range 17).findSome? fun more : Nat =>
      neighbour? x negative (.ofBinary m e) ((Fraction.ofBinary m e).decimalExponent - more) with
  | none => exact readBack_exact hx hm
  | some d =>
    obtain ⟨more, -, hmore⟩ := List.exists_of_findSome?_eq_some h
    exact readBack_of_neighbour hx hm hmore

end Digits

theorem Fraction.eq_of_whole? {k : ℕ} (h : (Fraction.ofBinary m e).whole? = some k) :
    (k : ℚ) = m * 2 ^ e := by
  unfold Fraction.whole? at h
  split at h
  · next hmod =>
    cases h
    have hpos : 0 < (Fraction.ofBinary m e).denominator := Nat.two_pow_pos _
    rw [← Fraction.ofBinary_eq, Nat.cast_div (Nat.dvd_of_mod_eq_zero hmod) (by positivity)]
  · cases h

namespace Layout

/-- An integer to be written in full is the whole magnitude, with its sign unless it is zero. -/
theorem eq_of_whole? {l : Layout} {n : ℤ} (h : l.whole? negative (.ofBinary m e) = some n) :
    (n.natAbs : ℚ) = m * 2 ^ e ∧ (decide (n < 0) = negative ∨ m = 0) := by
  obtain ⟨hwhole, -⟩ := Option.filter_eq_some_iff.1 h
  obtain ⟨k', hbind, rfl⟩ := Option.map_eq_some_iff.1 hwhole
  obtain ⟨k, hk, hcast⟩ := Option.bind_eq_some_iff.1 hbind
  cases hcast
  have hvalue := Fraction.eq_of_whole? hk
  have hzero : k = 0 → m = 0 := by
    rintro rfl
    have : (m : ℚ) * 2 ^ e = 0 := by rw [← hvalue, Nat.cast_zero]
    exact_mod_cast (mul_eq_zero.1 this).resolve_right (by positivity)
  cases negative with
  | false => exact ⟨hvalue, .inl (by simp)⟩
  | true =>
    refine ⟨by simpa using hvalue, ?_⟩
    rcases Nat.eq_zero_or_pos k with hk | hk
    · exact .inr (hzero hk)
    · exact .inl (by simpa using hk)

/-- What is written for a finite double reads back to it. -/
theorem write_readsBack (l : Layout) (hx : BinaryForm.ofFloat x = .finite negative m e) :
    ∃ n, Numeral.ofChars? (l.write x) = some n ∧ n.value == x := by
  unfold write
  rw [hx]
  dsimp only
  split
  · next k hk =>
    obtain ⟨hvalue, hzero⟩ := eq_of_whole? hk
    obtain ⟨n, hchars, hsign, hmagnitude⟩ := (denotes_toDigits k.natAbs).ofChars? (k < 0)
    exact ⟨n, hchars, Numeral.value_beq hx (hmagnitude.trans hvalue) (hsign ▸ hzero)⟩
  · by_cases hm : m = 0
    · have hproper : Digits.IsProper ⟨['0'], 0⟩ := ⟨List.cons_ne_nil _ _, by simp⟩
      obtain ⟨n, hchars, hsign, hmagnitude⟩ := (denotes_shortest l hproper).ofChars? negative
      rw [if_pos hm]
      refine ⟨n, hchars, Numeral.value_beq hx (hmagnitude.trans ?_) (.inl hsign)⟩
      have hdigit : Numeral.ofDigits ['0'] = 0 := rfl
      rw [Digits.magnitude, hdigit, hm, Nat.cast_zero, zero_mul, zero_mul]
    · rw [if_neg hm]
      obtain ⟨hproper, hread⟩ := Digits.readBack_shortest hx hm
      obtain ⟨n, hchars, hsign, hmagnitude⟩ := (denotes_shortest l hproper).ofChars? negative
      exact ⟨n, hchars, hread n hsign hmagnitude⟩

end Layout

end Written

end ScopedLisp
