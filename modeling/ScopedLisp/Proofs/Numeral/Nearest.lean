import ScopedLisp.Proofs.Numeral.Value

open Float.Model Float.Model.UnpackedFloat

namespace ScopedLisp.Rounding

/-- The nearer one of the two whole numbers around a magnitude, and the even one in the middle. -/
theorem roundedMantissa_cases (y : ℚ) :
    (mantissaOf y).roundedMantissa = ⌊y⌋₊ ∧ 2 * (y - ⌊y⌋₊) < 1 ∨
      (mantissaOf y).roundedMantissa = ⌊y⌋₊ + 1 ∧ 1 < 2 * (y - ⌊y⌋₊) ∨
      (mantissaOf y).roundedMantissa = ⌊y⌋₊ + ⌊y⌋₊ % 2 ∧ 2 * (y - ⌊y⌋₊) = 1 := by
  unfold mantissaOf
  generalize y - ⌊y⌋₊ = r
  rcases lt_trichotomy (2 * r) 1 with h | h | h
  · refine .inl ⟨?_, h⟩
    rw [decide_eq_false (not_le.2 h)]
    generalize decide (r ≠ 0 ∧ 2 * r ≠ 1) = sticky
    cases sticky <;> rfl
  · refine .inr (.inr ⟨?_, h⟩)
    rw [decide_eq_true h.ge, decide_eq_false fun hne => hne.2 h]
    rfl
  · refine .inr (.inl ⟨?_, h⟩)
    have hzero : r ≠ 0 := by
      rintro rfl
      norm_num at h
    rw [decide_eq_true h.le, decide_eq_true ⟨hzero, h.ne'⟩]
    rfl

/-- To `q`, the number `a` is nearer than `b`, or as near and to be preferred, unless they are the
same. -/
def Prevails (q a b : ℚ) (preferred : Prop) : Prop :=
  |a - q| < |b - q| ∨ b = a ∨ |a - q| = |b - q| ∧ preferred

theorem prevails_roundedMantissa {y z : ℚ} (hy : 0 ≤ y) (hz : z ≤ ⌊y⌋₊ ∨ ⌊y⌋₊ + 1 ≤ z) :
    Prevails y (mantissaOf y).roundedMantissa z (2 ∣ (mantissaOf y).roundedMantissa) := by
  have hlow := Nat.floor_le hy
  have hhigh := Nat.lt_floor_add_one y
  rcases roundedMantissa_cases y with ⟨hk, hr⟩ | ⟨hk, hr⟩ | ⟨hk, hr⟩ <;> rw [hk] <;>
    push_cast <;> unfold Prevails
  · rw [abs_of_nonpos (by linarith : (⌊y⌋₊ : ℚ) - y ≤ 0)]
    rcases hz with hz | hz
    · rw [abs_of_nonpos (by linarith)]
      rcases hz.eq_or_lt with hz | hz
      · exact .inr (.inl hz)
      · exact .inl (by linarith)
    · rw [abs_of_nonneg (by linarith)]
      exact .inl (by linarith)
  · rw [abs_of_nonneg (by linarith : 0 ≤ (⌊y⌋₊ : ℚ) + 1 - y)]
    rcases hz with hz | hz
    · rw [abs_of_nonpos (by linarith)]
      exact .inl (by linarith)
    · rw [abs_of_nonneg (by linarith)]
      rcases hz.eq_or_lt with hz | hz
      · exact .inr (.inl hz.symm)
      · exact .inl (by linarith)
  · have hhalf : |((⌊y⌋₊ : ℚ) + (⌊y⌋₊ % 2 : ℕ)) - y| = 1 / 2 := by
      rcases Nat.mod_two_eq_zero_or_one ⌊y⌋₊ with hbit | hbit <;> rw [hbit] <;> push_cast
      · rw [abs_of_nonpos (by linarith)]
        linarith
      · rw [abs_of_nonneg (by linarith)]
        linarith
    have hfar : 1 / 2 ≤ |z - y| := by
      rcases hz with hz | hz
      · rw [abs_of_nonpos (by linarith)]
        linarith
      · rw [abs_of_nonneg (by linarith)]
        linarith
    rw [hhalf]
    rcases hfar.eq_or_lt with hfar | hfar
    · exact .inr (.inr ⟨hfar, by omega⟩)
    · exact .inl hfar

theorem Prevails.mul {q a b : ℚ} {preferred : Prop} (h : Prevails q a b preferred) {u : ℚ}
    (hu : 0 < u) : Prevails (q * u) (a * u) (b * u) preferred := by
  have habs (c : ℚ) : |c * u - q * u| = |c - q| * u := by
    rw [← sub_mul, abs_mul, abs_of_pos hu]
  unfold Prevails
  rw [habs, habs]
  exact h.imp (fun h => mul_lt_mul_of_pos_right h hu) (.imp (congrArg (· * u))
    (.imp_left (congrArg (· * u))))

theorem Prevails.neg {q a b : ℚ} {preferred : Prop} (h : Prevails q a b preferred) :
    Prevails (-q) (-a) (-b) preferred := by
  have habs (c : ℚ) : |-c - -q| = |c - q| := by rw [neg_sub_neg, abs_sub_comm]
  unfold Prevails
  rw [habs, habs, neg_inj]
  exact h

/-- With the other sign a magnitude is only further away. -/
theorem Prevails.neg_right {q a b : ℚ} {preferred : Prop} (h : Prevails q a b preferred)
    (hq : 0 ≤ q) (ha : 0 ≤ a) (hb : 0 ≤ b) (hzero : q = 0 → a = 0) :
    Prevails q a (-b) preferred := by
  have hfar : |-b - q| = b + q := by
    rw [abs_of_nonpos (by linarith)]
    ring
  have hle : |b - q| ≤ b + q := abs_le.2 ⟨by linarith, by linarith⟩
  unfold Prevails
  rw [hfar]
  rcases h with h | rfl | ⟨h, hpreferred⟩
  · exact .inl (h.trans_le hle)
  · rcases hle.eq_or_lt with heq | hlt
    · -- One of the two is zero, and then the other is.
      have hproduct : b * q = 0 := by
        rcases abs_choice (b - q) with habs | habs <;> rw [habs] at heq
        · have : q = 0 := by linarith
          rw [this, mul_zero]
        · have : b = 0 := by linarith
          rw [this, zero_mul]
      have hb' : b = 0 := (mul_eq_zero.1 hproduct).elim id hzero
      rw [hb']
      exact .inr (.inl neg_zero)
    · exact .inl hlt
  · rcases hle.eq_or_lt with heq | hlt
    · exact .inr (.inr ⟨h.trans heq, hpreferred⟩)
    · exact .inl (h.trans_lt hlt)

section LastPlace

variable {q : ℚ}

theorem neg_le_lastPlace (q : ℚ) : -1074 ≤ lastPlace q := le_max_right _ _

theorem lt_mul_lastPlace (q : ℚ) : q / 2 ^ lastPlace q < 2 ^ 53 := by
  have hlog := Int.lt_zpow_succ_log_self (R := ℚ) Nat.one_lt_two q
  rw [div_lt_iff₀ (by positivity), ← zpow_natCast, ← zpow_add₀ two_ne_zero]
  exact hlog.trans_le (zpow_le_zpow_right₀ one_le_two (by unfold lastPlace; omega))

/-- Above the smallest exponent the units of the last place have all their bits. -/
theorem mul_lastPlace_le (hq : 0 < q) (hplace : -1074 < lastPlace q) :
    2 ^ 52 ≤ q / 2 ^ lastPlace q := by
  have hlog := Int.zpow_log_le_self (R := ℚ) Nat.one_lt_two hq
  rw [le_div_iff₀ (by positivity), ← zpow_natCast, ← zpow_add₀ two_ne_zero]
  refine le_trans (zpow_le_zpow_right₀ one_le_two ?_) hlog
  unfold lastPlace at hplace ⊢
  omega

/-- No double lies between two neighbouring multiples of the last place. -/
theorem outside_units (hq : 0 < q) {m : ℕ} {e : ℤ} (hm : m < 2 ^ 53) (he : -1074 ≤ e) :
    (m : ℚ) * 2 ^ (e - lastPlace q) ≤ ⌊q / 2 ^ lastPlace q⌋₊ ∨
      ⌊q / 2 ^ lastPlace q⌋₊ + 1 ≤ (m : ℚ) * 2 ^ (e - lastPlace q) := by
  rcases le_or_gt (lastPlace q) e with hplace | hplace
  · obtain ⟨k, hk⟩ := Int.eq_ofNat_of_zero_le (sub_nonneg.2 hplace)
    rw [hk, zpow_natCast]
    exact_mod_cast le_or_gt (m * 2 ^ k) ⌊q / 2 ^ lastPlace q⌋₊
  · have hfull : 2 ^ 52 ≤ ⌊q / 2 ^ lastPlace q⌋₊ :=
      Nat.le_floor (by exact_mod_cast mul_lastPlace_le hq (by omega))
    have hhalf : (2 : ℚ) ^ (e - lastPlace q) ≤ 2⁻¹ := by
      rw [← zpow_neg_one]
      exact zpow_le_zpow_right₀ one_le_two (by omega)
    have hm' : (m : ℚ) ≤ 2 ^ 53 := by exact_mod_cast hm.le
    left
    calc (m : ℚ) * 2 ^ (e - lastPlace q) ≤ 2 ^ 53 * 2⁻¹ := by gcongr
      _ = (2 ^ 52 : ℕ) := by norm_num
      _ ≤ ⌊q / 2 ^ lastPlace q⌋₊ := by exact_mod_cast hfull

end LastPlace

/-- The magnitude that `q` is rounded to, with exponents as great as needed. -/
def rounded (q : ℚ) : ℚ :=
  (mantissaOf (q / 2 ^ lastPlace q)).roundedMantissa * 2 ^ lastPlace q

theorem settle_eq_unpacked (negative : Bool) {m : ℕ} (hm : m < 2 ^ 53) {e : ℤ} (he : -1074 ≤ e) :
    settle (signOf negative) m e = unpacked negative m e := by
  unfold unpacked
  split
  · next hzero => rw [hzero, settle_zero]
  · next hzero => exact settle_of_lt _ (Nat.pos_of_ne_zero hzero) hm he

/-- One bit more than fits is dropped again. -/
theorem settle_two_pow (negative : Bool) {e : ℤ} (he : -1074 ≤ e) :
    settle (signOf negative) (2 ^ 53) e = unpacked negative (2 ^ 52) (e + 1) := by
  have hamount : (max (((2 ^ 53 : ℕ).log2 : ℤ) + e - 52) (-1074) - e).toNat = 1 := by
    rw [Nat.log2_two_pow]
    omega
  have hshift : shiftToTargetExponent .binary64 (2 ^ 53) e .exact =
      (⟨2 ^ 52, false, false⟩, e + 1) := by
    unfold shiftToTargetExponent shiftToExponent
    rw [targetExponent_totalExponent]
    dsimp only
    rw [hamount]
    rfl
  have hne : (2 ^ 52 : ℕ) ≠ 0 := by decide
  simp only [settle, hshift, unpacked, hne, ↓reduceDIte]

theorem roundedMantissa_le (y : ℚ) : (mantissaOf y).roundedMantissa ≤ ⌊y⌋₊ + 1 := by
  rcases roundedMantissa_cases y with ⟨hk, -⟩ | ⟨hk, -⟩ | ⟨hk, -⟩ <;> omega

theorem rounded_zero : rounded 0 = 0 := by
  rw [rounded, roundedMantissa_zero, Nat.cast_zero, zero_mul]

/-- What a magnitude is rounded to can be unpacked from a double, unless it is too large. -/
theorem exists_nearest {q : ℚ} (hq : 0 ≤ q) : ∃ m e, IsNormal m e ∧ rounded q = m * 2 ^ e ∧
    (∀ negative, nearest (signOf negative) q = unpacked negative m e) ∧
    (2 ∣ (mantissaOf (q / 2 ^ lastPlace q)).roundedMantissa → 2 ∣ m) := by
  rcases hq.eq_or_lt with rfl | hq
  · exact ⟨0, -1074, isNormal_zero, by rw [rounded_zero, Nat.cast_zero, zero_mul],
      fun negative => by rw [nearest_zero]; rfl, fun _ => Nat.dvd_zero 2⟩
  have hplace := neg_le_lastPlace q
  have hfloor : ⌊q / 2 ^ lastPlace q⌋₊ < 2 ^ 53 :=
    (Nat.floor_lt (by positivity)).2 (by exact_mod_cast lt_mul_lastPlace q)
  have hhigh := roundedMantissa_le (q / 2 ^ lastPlace q)
  have hlow := le_roundedMantissa (mantissaOf (q / 2 ^ lastPlace q))
  change ⌊q / 2 ^ lastPlace q⌋₊ ≤ _ at hlow
  unfold rounded nearest
  generalize (mantissaOf (q / 2 ^ lastPlace q)).roundedMantissa = k at hhigh hlow
  rcases (by omega : k < 2 ^ 53 ∨ k = 2 ^ 53) with hk | rfl
  · refine ⟨k, lastPlace q, ⟨hk, hplace, ?_⟩, rfl, fun negative => ?_, id⟩
    · rcases hplace.eq_or_lt with hmin | hmin
      · exact .inr hmin.symm
      · exact .inl ((Nat.le_floor (by exact_mod_cast mul_lastPlace_le hq hmin)).trans hlow)
    · exact settle_eq_unpacked negative hk hplace
  · refine ⟨2 ^ 52, lastPlace q + 1, ⟨by decide, by omega, .inl le_rfl⟩, ?_,
      fun negative => settle_two_pow negative hplace, fun _ => by decide⟩
    rw [zpow_add_one₀ two_ne_zero]
    push_cast
    ring

section Rounded

variable {p q : ℚ} {m : ℕ} {e : ℤ}

/-- No double is nearer to a magnitude than what it is rounded to. -/
theorem prevails_rounded (hq : 0 ≤ q) (hm : m < 2 ^ 53) (he : -1074 ≤ e) :
    Prevails q (rounded q) (m * 2 ^ e)
      (2 ∣ (mantissaOf (q / 2 ^ lastPlace q)).roundedMantissa) := by
  rcases hq.eq_or_lt with rfl | hq
  · rw [rounded_zero, Prevails, sub_zero, sub_zero, abs_zero, abs_pos]
    exact (ne_or_eq _ _).imp_right .inl
  · have hunit : (0 : ℚ) < 2 ^ lastPlace q := by positivity
    have h := (prevails_roundedMantissa (by positivity) (outside_units hq hm he)).mul hunit
    rwa [div_mul_cancel₀ _ hunit.ne', mul_assoc, ← zpow_add₀ two_ne_zero, sub_add_cancel] at h

theorem abs_rounded_sub_le (hq : 0 ≤ q) (hm : m < 2 ^ 53) (he : -1074 ≤ e) :
    |rounded q - q| ≤ |m * 2 ^ e - q| := by
  rcases prevails_rounded hq hm he with h | h | h
  · exact h.le
  · rw [h]
  · exact h.1.le

theorem rounded_of_lt (hm : m < 2 ^ 53) (he : -1074 ≤ e) : rounded (m * 2 ^ e) = m * 2 ^ e := by
  have h := abs_rounded_sub_le (q := m * 2 ^ e) (by positivity) hm he
  rw [sub_self, abs_zero, abs_nonpos_iff] at h
  exact sub_eq_zero.1 h

theorem rounded_natCast {n : ℕ} (hn : n < 2 ^ 53) : rounded n = n := by
  have h := rounded_of_lt hn (e := 0) (by decide)
  rwa [zpow_zero, mul_one] at h

/-- If the greater one were rounded to less, both would be in the middle. -/
theorem rounded_mono (hp : 0 ≤ p) (hpq : p ≤ q) : rounded p ≤ rounded q := by
  rcases hpq.eq_or_lt with rfl | hpq
  · exact le_rfl
  by_contra! hlt
  obtain ⟨m, e, hm, hmp, -⟩ := exists_nearest hp
  obtain ⟨m', e', hm', hmq, -⟩ := exists_nearest (hp.trans hpq.le)
  have hnearp := abs_rounded_sub_le hp hm'.lt hm'.ge
  have hnearq := abs_rounded_sub_le (hp.trans hpq.le) hm.lt hm.ge
  rw [← hmq] at hnearp
  rw [← hmp] at hnearq
  grind

/-- What lies between two magnitudes with one double nearest to them has it, too. -/
theorem rounded_eq_of_between {r : ℚ} (hp : 0 ≤ p) (hpq : p ≤ q) (hqr : q ≤ r)
    (h : rounded p = rounded r) : rounded q = rounded p :=
  le_antisymm (h ▸ rounded_mono (hp.trans hpq) hqr) (rounded_mono hp hpq)

/-- Rounding what is rounded changes nothing. -/
theorem double_rounded (hq : 0 ≤ q) : double (rounded q) = double q := by
  obtain ⟨m, e, hm, hrounded, hnearest, -⟩ := exists_nearest hq
  have h : nearest (signOf false) (m * 2 ^ e) = nearest (signOf false) q := by
    rw [nearest_eq_unpacked hm, hnearest]
  rw [hrounded]
  exact congrArg (fun u => Float.ofModel (.pack u)) h

/-- The doubles around a double are at least one part in `2 ^ 53` away. -/
theorem le_abs_sub_of_ne (h : IsNormal m e) {m' : ℕ} {e' : ℤ} (hm' : m' < 2 ^ 53)
    (he' : -1074 ≤ e') (hne : (m' : ℚ) * 2 ^ e' ≠ m * 2 ^ e) :
    (m : ℚ) * 2 ^ e / 2 ^ 53 ≤ |(m' : ℚ) * 2 ^ e' - m * 2 ^ e| := by
  have hunit : (0 : ℚ) < 2 ^ e := by positivity
  have hm : (m : ℚ) ≤ 2 ^ 53 := by exact_mod_cast h.lt.le
  rcases le_or_gt e e' with he | he
  · -- Both are multiples of the last place of the one.
    obtain ⟨k, hk⟩ := Int.eq_ofNat_of_zero_le (sub_nonneg.2 he)
    have hsplit : (m' : ℚ) * 2 ^ e' = (m' * 2 ^ k : ℕ) * 2 ^ e := by
      rw [← sub_add_cancel e' e, hk, zpow_add₀ two_ne_zero, zpow_natCast]
      push_cast
      ring
    rw [hsplit] at hne ⊢
    have hint : ((m' * 2 ^ k : ℕ) : ℤ) - m ≠ 0 := by
      intro heq
      exact hne (by rw [show m' * 2 ^ k = m by omega])
    have hone : (1 : ℚ) ≤ |((m' * 2 ^ k : ℕ) : ℚ) - m| := by
      exact_mod_cast Int.one_le_abs hint
    rw [← sub_mul, abs_mul, abs_of_pos hunit]
    calc (m : ℚ) * 2 ^ e / 2 ^ 53 ≤ 2 ^ 53 * 2 ^ e / 2 ^ 53 := by gcongr
      _ = 1 * 2 ^ e := by field_simp
      _ ≤ _ := by gcongr
  · -- The other one has a finer last place and is at most `2 ^ 53 - 1` halves of the unit of this.
    have hfull : (2 ^ 52 : ℚ) ≤ m := by exact_mod_cast h.normal.resolve_right (by omega)
    have hhalf : (0 : ℚ) < 2 ^ (e - 1) := by positivity
    have hsplit : (2 : ℚ) ^ e = 2 * 2 ^ (e - 1) := by
      rw [mul_comm, ← zpow_add_one₀ two_ne_zero, sub_add_cancel]
    have hother : (m' : ℚ) * 2 ^ e' ≤ (2 ^ 53 - 1) * 2 ^ (e - 1) := by
      have hm'' : (m' : ℚ) ≤ 2 ^ 53 - 1 := by
        rw [le_sub_iff_add_le]
        exact_mod_cast hm'
      have hplace : (2 : ℚ) ^ e' ≤ 2 ^ (e - 1) := zpow_le_zpow_right₀ one_le_two (by omega)
      gcongr
    rw [abs_sub_comm]
    refine le_trans ?_ (le_abs_self _)
    rw [hsplit]
    generalize (2 : ℚ) ^ (e - 1) = u at hhalf hother
    have hgap : 0 ≤ ((m : ℚ) - 2 ^ 52) * u := mul_nonneg (sub_nonneg.2 hfull) hhalf.le
    linarith

/-- What is closer to a double than that is rounded to it. -/
theorem rounded_of_close (h : IsNormal m e) (hq : 0 ≤ q)
    (hclose : |(m : ℚ) * 2 ^ e - q| < m * 2 ^ e / 2 ^ 54) : rounded q = m * 2 ^ e := by
  obtain ⟨m', e', h', hrounded, -⟩ := exists_nearest hq
  have hnear := abs_rounded_sub_le hq h.lt h.ge
  by_contra hne
  rw [hrounded] at hne hnear
  have hfar := le_abs_sub_of_ne h h'.lt h'.ge hne
  have htriangle := abs_sub_le ((m' : ℚ) * 2 ^ e') q (m * 2 ^ e)
  rw [abs_sub_comm q] at htriangle
  linarith

end Rounded

end ScopedLisp.Rounding
