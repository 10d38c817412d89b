import ScopedLisp.Proofs.Numeral.Shortest

namespace ScopedLisp

open Rounding

section Values

variable {x : Float} {negative : Bool} {m : ℕ} {e : ℤ}

theorem abs_numberOf (hx : BinaryForm.ofFloat x = .finite negative m e) :
    |numberOf x| = m * 2 ^ e := by
  rw [numberOf_eq hx]
  have hnonneg : (0 : ℚ) ≤ m * 2 ^ e := by positivity
  split
  · rw [abs_neg, abs_of_nonneg hnonneg]
  · exact abs_of_nonneg hnonneg

theorem negative_eq (hx : BinaryForm.ofFloat x = .finite negative m e) (hm : m ≠ 0) :
    negative = decide (numberOf x < 0) := by
  have hpos := Digits.magnitude_pos (e := e) hm
  rw [numberOf_eq hx]
  cases negative with
  | true => simpa using hpos
  | false => simpa using hpos.le

theorem Fraction.whole?_ofBinary_eq_some_iff {k : ℕ} :
    (Fraction.ofBinary m e).whole? = some k ↔ (k : ℚ) = m * 2 ^ e := by
  refine ⟨eq_of_whole?, fun h => ?_⟩
  have hden : 0 < (Fraction.ofBinary m e).denominator := Nat.two_pow_pos _
  have hnum : (Fraction.ofBinary m e).numerator = k * (Fraction.ofBinary m e).denominator := by
    rw [← ofBinary_eq, eq_div_iff (by positivity)] at h
    exact_mod_cast h.symm
  rw [whole?, hnum, Nat.mul_mod_left, if_pos rfl, Nat.mul_div_cancel _ hden]

theorem numberOf_eq_intCast_iff (hx : BinaryForm.ofFloat x = .finite negative m e) {k : ℤ} :
    numberOf x = k ↔ ∃ n : ℕ, (n : ℚ) = m * 2 ^ e ∧ (if negative then -(n : ℤ) else n) = k := by
  have hnonneg : (0 : ℚ) ≤ m * 2 ^ e := by positivity
  rw [numberOf_eq hx]
  constructor
  · intro h
    refine ⟨k.natAbs, ?_, ?_⟩
    · rw [Nat.cast_natAbs, Int.cast_abs, ← h]
      split
      · rw [abs_neg, abs_of_nonneg hnonneg]
      · exact abs_of_nonneg hnonneg
    · split at h
      · have : k ≤ 0 := by exact_mod_cast h ▸ neg_nonpos.2 hnonneg
        rw [if_pos ‹_›]
        omega
      · have : 0 ≤ k := by exact_mod_cast h ▸ hnonneg
        rw [if_neg ‹_›]
        omega
  · rintro ⟨n, hn, rfl⟩
    rw [← hn]
    split <;> simp

/-- An integer is written in full if it is in the range. -/
theorem Layout.whole?_eq_some_iff (hx : BinaryForm.ofFloat x = .finite negative m e) {l : Layout}
    {k : ℤ} : l.whole? negative (.ofBinary m e) = some k ↔
      numberOf x = k ∧ -(l.wholeBound : ℤ) ≤ k ∧ k < l.wholeBound := by
  rw [numberOf_eq_intCast_iff hx]
  simp only [← Fraction.whole?_ofBinary_eq_some_iff]
  unfold whole?
  rw [Option.filter_eq_some_iff, decide_eq_true_eq]
  refine and_congr_left fun _ => ?_
  cases (Fraction.ofBinary m e).whole? <;> simp

end Values

namespace Layout

section Texts

variable {d : Digits}

theorem e_not_mem {cs : List Char} (h : ∀ c ∈ cs, c.isDigit) : 'e' ∉ cs := fun hmem =>
  absurd (h _ hmem) (by decide)

theorem e_mem_signed {negative : Bool} {cs : List Char} : 'e' ∈ signed negative cs ↔ 'e' ∈ cs := by
  cases negative with
  | true => simp [signed]
  | false => exact Iff.rfl

theorem e_not_mem_positional (l : Layout) (hd : d.IsProper) : 'e' ∉ l.positional d := by
  have hdigits := e_not_mem hd.isDigit
  have htake (n : ℕ) : 'e' ∉ d.digits.take n := fun h => hdigits (List.mem_of_mem_take h)
  have hdrop (n : ℕ) : 'e' ∉ d.digits.drop n := fun h => hdigits (List.mem_of_mem_drop h)
  have hzeros (n : ℕ) : 'e' ∉ zeros n := e_not_mem isDigit_of_mem_zeros
  unfold positional
  split
  · simp [hdigits, hzeros]
  · dsimp only
    split
    · simp [htake, hdrop, hzeros]
    · split <;> simp [htake, hzeros]

/-- Behind the exponent mark come a sign and at least two digits. -/
theorem exponentPart_display (e : ℤ) : ∃ sign digits,
    display.exponentPart e = 'e' :: sign :: digits ∧ sign ∈ ['+', '-'] ∧ 2 ≤ digits.length ∧
      ∀ c ∈ digits, c.isDigit := by
  refine ⟨if e < 0 then '-' else '+', zeros (2 - (Nat.toDigits 10 e.natAbs).length) ++
    Nat.toDigits 10 e.natAbs, ?_, ?_, ?_, ?_⟩
  · unfold exponentPart
    by_cases he : e < 0 <;> simp [he, display]
  · split <;> simp
  · rw [List.length_append, zeros, List.length_replicate]
    omega
  · intro c hc
    exact (List.mem_append.1 hc).elim (isDigit_of_mem_zeros c)
      (Nat.isDigit_of_mem_toDigits (by decide) (by decide))

theorem scientific_eq (l : Layout) (hd : d.IsProper) :
    ∃ front, l.scientific d = front ++ l.exponentPart d.exponent ∧ 'e' ∉ front := by
  have hdigits := e_not_mem hd.isDigit
  obtain ⟨digits, exponent⟩ := d
  match digits with
  | [] => exact ⟨[], rfl, nofun⟩
  | [c] => exact ⟨[c], rfl, hdigits⟩
  | first :: c :: more =>
    refine ⟨first :: '.' :: c :: more, rfl, ?_⟩
    simpa using hdigits

/-- Numbers that are not written in full have an exponent if the first digit is far from the
point. -/
theorem e_mem_shortest (hd : d.IsProper) :
    'e' ∈ display.shortest d ↔ d.exponent < -4 ∨ 6 ≤ d.exponent := by
  unfold shortest
  split
  · next h =>
    have hbound : d.exponent < 6 := h.2
    exact iff_of_false (e_not_mem_positional display hd) (by omega)
  · next h =>
    have hbound : ¬(-4 ≤ d.exponent ∧ d.exponent < 6) := h
    obtain ⟨front, hfront, -⟩ := scientific_eq display hd
    obtain ⟨sign, digits, hpart, -⟩ := exponentPart_display d.exponent
    rw [hfront, hpart]
    exact iff_of_true (by simp) (by omega)

end Texts

end Layout

section Far

variable {x : Float} {negative : Bool} {m : ℕ} {e : ℤ} {d d' : Digits}

namespace Digits

/-- A power of ten between two magnitudes that read back reads back as well. -/
theorem rounded_ten_pow (hx : BinaryForm.ofFloat x = .finite negative m e) (hm : m ≠ 0)
    (hd : d.IsShortest x negative) (hd' : d'.IsShortest x negative) {k : ℤ} (hlt : d.exponent < k)
    (hle : k ≤ d'.exponent) : rounded (10 ^ k) = m * 2 ^ e := by
  obtain ⟨hproper, hrounded⟩ := (readBack_iff hx hm).1 hd.readBack
  obtain ⟨hproper', hrounded'⟩ := (readBack_iff hx hm).1 hd'.readBack
  have hlow : d.magnitude ≤ 10 ^ k :=
    (magnitude_lt hproper).le.trans (zpow_le_zpow_right₀ (by norm_num) (by omega))
  have hhigh : 10 ^ k ≤ d'.magnitude :=
    (zpow_le_zpow_right₀ (by norm_num) hle).trans (le_magnitude hproper' (hd'.head?_ne hx hm))
  have hbetween := rounded_eq_of_between (by unfold magnitude; positivity) hlow hhigh
    (hrounded.trans hrounded'.symm)
  exact hbetween.trans hrounded

/-- A million is read back to itself alone. -/
theorem lt_six_congr (hx : BinaryForm.ofFloat x = .finite negative m e) (hm : m ≠ 0)
    (hwhole : ∀ k : ℤ, numberOf x ≠ k) (hd : d.IsShortest x negative)
    (hd' : d'.IsShortest x negative) (h : d.exponent < 6) : d'.exponent < 6 := by
  by_contra! hle
  have hpower := rounded_ten_pow hx hm hd hd' h hle
  have hmillion : rounded ((10 ^ 6 : ℕ) : ℚ) = (10 ^ 6 : ℕ) := rounded_natCast (by norm_num)
  have hvalue : ((10 ^ 6 : ℕ) : ℚ) = m * 2 ^ e := by
    rw [← hmillion, ← hpower]
    norm_num
  exact hwhole _ ((numberOf_eq_intCast_iff hx).2 ⟨10 ^ 6, hvalue, rfl⟩)

/-- What is read back to the double of `1e-4` has one digit, if it is shortest, and two doubles lie
between `9e-5` and `1e-4`. -/
theorem lt_neg_four_congr (hx : BinaryForm.ofFloat x = .finite negative m e) (hm : m ≠ 0)
    (hd : d.IsShortest x negative) (hd' : d'.IsShortest x negative) (h : d.exponent < -4) :
    d'.exponent < -4 := by
  by_contra! hle
  have hpower := rounded_ten_pow hx hm hd hd' h hle
  have hone : (Digits.mk ['1'] (-4)).magnitude = 10 ^ (-4 : ℤ) := one_mul _
  have hread : ReadBack x negative ⟨['1'], -4⟩ :=
    (readBack_iff hx hm).2 ⟨⟨List.cons_ne_nil _ _, by simp⟩, hone ▸ hpower⟩
  obtain ⟨hproper, hrounded⟩ := (readBack_iff hx hm).1 hd.readBack
  have hlength : d.digits.length = 1 :=
    le_antisymm (hd.least _ hread) (List.length_pos_iff.2 hproper.ne_nil)
  have hdigit : Numeral.ofDigits d.digits ≤ 9 := by
    have := Numeral.ofDigits_lt hproper.isDigit
    rw [hlength] at this
    omega
  have hnine : d.magnitude ≤ 9 * 10 ^ (-5 : ℤ) := by
    unfold magnitude
    gcongr
    · exact_mod_cast hdigit
    · norm_num
    · omega
  have hbetween {n : ℕ} (hn : n < 2 ^ 53) (hlow : 9 * 10 ^ (-5 : ℤ) ≤ (n : ℚ) * 2 ^ (-26 : ℤ))
      (hhigh : (n : ℚ) * 2 ^ (-26 : ℤ) ≤ 10 ^ (-4 : ℤ)) :
      (n : ℚ) * 2 ^ (-26 : ℤ) = m * 2 ^ e := by
    have := rounded_eq_of_between (by unfold magnitude; positivity) (hnine.trans hlow) hhigh
      (hrounded.trans hpower.symm)
    rw [← hrounded, ← this, rounded_of_lt hn (by decide)]
  have hfirst := hbetween (n := 6100) (by norm_num) (by norm_num) (by norm_num)
  have hsecond := hbetween (n := 6200) (by norm_num) (by norm_num) (by norm_num)
  have := hfirst.trans hsecond.symm
  norm_num at this

/-- Whether the first digit is far from the point does not depend on which shortest digits are
taken. -/
theorem far_congr (hx : BinaryForm.ofFloat x = .finite negative m e) (hm : m ≠ 0)
    (hwhole : ∀ k : ℤ, numberOf x ≠ k) (hd : d.IsShortest x negative)
    (hd' : d'.IsShortest x negative) :
    d.exponent < -4 ∨ 6 ≤ d.exponent ↔ d'.exponent < -4 ∨ 6 ≤ d'.exponent := by
  rw [← not_lt, ← not_lt]
  exact or_congr ⟨lt_neg_four_congr hx hm hd hd', lt_neg_four_congr hx hm hd' hd⟩
    (not_congr ⟨lt_six_congr hx hm hwhole hd hd', lt_six_congr hx hm hwhole hd' hd⟩)

theorem six_le_exponent (hx : BinaryForm.ofFloat x = .finite negative m e) (hm : m ≠ 0)
    (hd : ReadBack x negative d) (hlarge : 2 ^ 63 ≤ (m : ℚ) * 2 ^ e) : 6 ≤ d.exponent := by
  by_contra! hlt
  obtain ⟨hproper, hrounded⟩ := (readBack_iff hx hm).1 hd
  have hmagnitude : d.magnitude ≤ (10 ^ 6 : ℕ) := by
    refine (magnitude_lt hproper).le.trans ?_
    rw [Nat.cast_pow, Nat.cast_ofNat, ← zpow_natCast]
    exact zpow_le_zpow_right₀ (by norm_num) (by omega)
  have hmono := rounded_mono (by unfold magnitude; positivity) hmagnitude
  rw [rounded_natCast (by norm_num), hrounded] at hmono
  have := hlarge.trans hmono
  norm_num at this

end Digits

end Far

namespace Layout

/-- A finite double is written in full, or in the shortest way if it is no integer of the range. -/
theorem write_cases {x : Float} (hx : x.isFinite) :
    (∃ k : ℤ, numberOf x = k ∧ -2 ^ 63 ≤ k ∧ k < 2 ^ 63 ∧
      display.write x = signed (k < 0) (Nat.toDigits 10 k.natAbs)) ∨
    ((∀ k : ℤ, numberOf x = k → k < -2 ^ 63 ∨ 2 ^ 63 ≤ k) ∧ ∃ negative m e,
      BinaryForm.ofFloat x = .finite negative m e ∧ m ≠ 0 ∧ display.write x =
        signed negative (display.shortest (.shortest x negative m e))) := by
  obtain ⟨negative, m, e, hx⟩ := exists_ofFloat_of_isFinite hx
  have hwhole {k : ℤ} : display.whole? negative (.ofBinary m e) = some k ↔
      numberOf x = k ∧ -2 ^ 63 ≤ k ∧ k < 2 ^ 63 := whole?_eq_some_iff hx
  unfold write
  rw [hx]
  dsimp only
  cases h : display.whole? negative (.ofBinary m e) with
  | some k =>
    obtain ⟨hk, hlow, hhigh⟩ := hwhole.1 h
    exact .inl ⟨k, hk, hlow, hhigh, rfl⟩
  | none =>
    have hout (k : ℤ) (hk : numberOf x = k) : k < -2 ^ 63 ∨ 2 ^ 63 ≤ k := by
      by_contra! hrange
      rw [hwhole.2 ⟨hk, hrange⟩] at h
      cases h
    have hm : m ≠ 0 := by
      rintro rfl
      have hzero : numberOf x = (0 : ℤ) := (numberOf_eq_intCast_iff hx).2 ⟨0, by simp, by simp⟩
      have := hout 0 hzero
      norm_num at this
    exact .inr ⟨hout, negative, m, e, rfl, hm, by rw [if_neg hm]⟩

theorem isFinite_of_beq {x y : Float} (h : y == x) (hx : x.isFinite) : y.isFinite := by
  obtain ⟨-, -, rfl | ⟨rfl, -⟩ | ⟨rfl, -⟩⟩ := Float.beq_iff_ne_nan_and_eq.1 h
  · exact hx
  · decide +kernel
  · decide +kernel

theorem e_not_mem_write_whole (k : ℤ) : 'e' ∉ signed (k < 0) (Nat.toDigits 10 k.natAbs) := by
  rw [e_mem_signed]
  exact e_not_mem fun c hc => Nat.isDigit_of_mem_toDigits (by decide) (by decide) hc

section Write

variable {x : Float}

theorem exists_correct_reading (hx : x.isFinite) : ∃ n,
    Numeral.ofChars? (display.write x) = some n ∧ RoundsTo n.number n.value ∧ n.value == x := by
  obtain ⟨negative, m, e, hform⟩ := exists_ofFloat_of_isFinite hx
  obtain ⟨n, hn, hvalue⟩ := write_readsBack display hform
  exact ⟨n, hn, Numeral.roundsTo_value (isFinite_of_beq hvalue hx), hvalue⟩

theorem beq_of_write_eq {y : Float} (hx : x.isFinite) (hy : y.isFinite)
    (h : display.write x = display.write y) : x == y := by
  obtain ⟨n, hn, -, hvalue⟩ := exists_correct_reading hx
  obtain ⟨n', hn', -, hvalue'⟩ := exists_correct_reading hy
  rw [h, hn'] at hn
  cases hn
  exact BEq.trans (BEq.symm hvalue) hvalue'

theorem e_mem_write_whole (hx : x.isFinite) {k : ℤ} (hk : numberOf x = k) :
    'e' ∈ display.write x ↔ k < -2 ^ 63 ∨ 2 ^ 63 ≤ k := by
  obtain ⟨k', hk', hlow, hhigh, hwrite⟩ | ⟨hout, negative, m, e, hform, hm, hwrite⟩ :=
    write_cases hx
  · have heq : k' = k := by exact_mod_cast hk'.symm.trans hk
    subst heq
    rw [hwrite]
    exact iff_of_false (e_not_mem_write_whole k') (by omega)
  · have hread := Digits.readBack_shortest hform hm
    have hlarge : 2 ^ 63 ≤ (m : ℚ) * 2 ^ e := by
      have habs : (2 ^ 63 : ℤ) ≤ |k| := by
        rcases hout k hk with h | h
        · exact le_trans (by omega) (neg_le_abs k)
        · exact h.trans (le_abs_self k)
      rw [← abs_numberOf hform, hk]
      exact_mod_cast habs
    rw [hwrite, e_mem_signed, e_mem_shortest hread.1]
    exact iff_of_true (.inr (Digits.six_le_exponent hform hm hread hlarge)) (hout k hk)

theorem e_mem_write_of_not_whole (hx : x.isFinite) (hwhole : ∀ k : ℤ, numberOf x ≠ k) :
    (∃ d : Digits, d.IsShortest x (numberOf x < 0)) ∧
      ∀ d : Digits, d.IsShortest x (numberOf x < 0) →
        ('e' ∈ display.write x ↔ d.exponent < -4 ∨ 6 ≤ d.exponent) := by
  rcases write_cases hx with ⟨k, hk, -⟩ | ⟨-, negative, m, e, hform, hm, hwrite⟩
  · exact absurd hk (hwhole k)
  · have hshortest := Digits.isShortest_shortest hform hm
    rw [← negative_eq hform hm]
    refine ⟨⟨_, hshortest⟩, fun d hd => ?_⟩
    rw [hwrite, e_mem_signed, e_mem_shortest hshortest.readBack.1]
    exact Digits.far_congr hform hm hwhole hshortest hd

theorem exists_exponent (hx : x.isFinite) (he : 'e' ∈ display.write x) : ∃ front sign digits,
    display.write x = front ++ 'e' :: sign :: digits ∧ 'e' ∉ front ∧ sign ∈ ['+', '-'] ∧
      2 ≤ digits.length ∧ ∀ c ∈ digits, c.isDigit := by
  rcases write_cases hx with ⟨k, -, -, -, hwrite⟩ | ⟨-, negative, m, e, hform, hm, hwrite⟩
  · rw [hwrite] at he
    exact absurd he (e_not_mem_write_whole k)
  · have hproper := (Digits.readBack_shortest hform hm).1
    rw [hwrite, e_mem_signed] at he
    have hscientific : display.shortest (.shortest x negative m e) =
        display.scientific (.shortest x negative m e) := by
      refine if_neg fun h => ?_
      have hbound : (Digits.shortest x negative m e).exponent < 6 := h.2
      have := (e_mem_shortest hproper).1 he
      omega
    obtain ⟨front, hfront, hnone⟩ := scientific_eq display hproper
    obtain ⟨sign, digits, hpart, htail⟩ :=
      exponentPart_display (Digits.shortest x negative m e).exponent
    refine ⟨signed negative front, sign, digits, ?_, mt e_mem_signed.1 hnone, htail⟩
    rw [hwrite, hscientific, hfront, hpart]
    cases negative <;> rfl

end Write

/-- The text of a finite double, read and rounded correctly, is that double again; so doubles with
the same text are equal. It has an exponent, with a sign and two digits or more, if the double is an
integer out of the range that is written in full, or no integer and its shortest digits start far
from the point. -/
theorem display_loses_nothing {x : Float} (hx : x.isFinite) :
    (∃ n, Numeral.ofChars? (display.write x) = some n ∧ RoundsTo n.number n.value ∧
      n.value == x) ∧
    (∀ y : Float, y.isFinite → display.write x = display.write y → x == y) ∧
    (∀ k : ℤ, numberOf x = k → ('e' ∈ display.write x ↔ k < -2 ^ 63 ∨ 2 ^ 63 ≤ k)) ∧
    ((∀ k : ℤ, numberOf x ≠ k) → (∃ d : Digits, d.IsShortest x (numberOf x < 0)) ∧
      ∀ d : Digits, d.IsShortest x (numberOf x < 0) →
        ('e' ∈ display.write x ↔ d.exponent < -4 ∨ 6 ≤ d.exponent)) ∧
    ('e' ∈ display.write x → ∃ front sign digits,
      display.write x = front ++ 'e' :: sign :: digits ∧ 'e' ∉ front ∧ sign ∈ ['+', '-'] ∧
        2 ≤ digits.length ∧ ∀ c ∈ digits, c.isDigit) := by
  exact ⟨exists_correct_reading hx, fun y => beq_of_write_eq hx, fun k => e_mem_write_whole hx,
    e_mem_write_of_not_whole hx, exists_exponent hx⟩

/-- Seven digits in front of the point, and one behind it. -/
theorem million_and_half_has_exponent : (1234567.5 : Float).isFinite ∧
    display.write 1234567.5 = "1.2345675e+06".toList ∧ numberOf 1234567.5 = 2469135 / 2 ∧
    ∃ d : Digits, d.IsShortest 1234567.5 (numberOf 1234567.5 < 0) ∧
      (d.exponent < -4 ∨ 6 ≤ d.exponent) := by
  have hfinite : (1234567.5 : Float).isFinite := by decide +kernel
  have hwrite : display.write 1234567.5 = "1.2345675e+06".toList := by decide +kernel
  have hform : BinaryForm.ofFloat 1234567.5 = .finite false 5302427037204480 (-32) := by
    decide +kernel
  have hnumber : numberOf 1234567.5 = 2469135 / 2 := by
    rw [numberOf_eq hform]
    norm_num
  have hwhole (k : ℤ) : numberOf 1234567.5 ≠ k := by
    rw [hnumber]
    intro h
    have : (2469135 : ℤ) = 2 * k := by
      have : (2469135 : ℚ) = 2 * k := by linarith
      exact_mod_cast this
    omega
  obtain ⟨-, -, -, hshortest, -⟩ := display_loses_nothing hfinite
  obtain ⟨⟨d, hd⟩, hfar⟩ := hshortest hwhole
  refine ⟨hfinite, hwrite, hnumber, d, hd, (hfar d hd).1 ?_⟩
  rw [hwrite]
  decide

end Layout

end ScopedLisp
