import ScopedLisp.Proofs.Numeral.ReadBack

/-!
The digits that are found for a double are its shortest ones: no fewer digits read back to it. The
magnitudes that do lie side by side, so that between the double and a point of a grid that reads
back there is a neighbour of the double that does. With seventeen digits the points of the grid are
so close together that there always is one.
-/

namespace ScopedLisp

open Rounding

namespace Fraction

/-- The number that the fraction stands for. -/
def value (f : Fraction) : ℚ := f.numerator / f.denominator

variable {f : Fraction}

theorem value_scaled (f : Fraction) (place : ℤ) :
    (f.scaled place).value = f.value / 10 ^ place := by
  unfold value scaled
  simp only [Nat.pow_eq]
  rcases le_total 0 place with hplace | hplace
  · obtain ⟨k, rfl⟩ := Int.eq_ofNat_of_zero_le hplace
    have hnone : (-k : ℤ).toNat = 0 := by omega
    simp [hnone, div_div]
  · obtain ⟨k, rfl⟩ : ∃ k : ℕ, place = -k := ⟨(-place).toNat, by omega⟩
    have hnone : (-k : ℤ).toNat = 0 := by omega
    simp [hnone, mul_div_right_comm]

theorem floor_scaled (f : Fraction) (place : ℤ) :
    (f.scaled place).floor = ⌊f.value / 10 ^ place⌋₊ := by
  rw [← value_scaled, value, Nat.floor_div_eq_div, floor]

/-- A number lies between the powers of ten that its digits tell. -/
theorem pow_length_toDigits {n : ℕ} (hn : 0 < n) :
    (10 : ℚ) ^ ((Nat.toDigits 10 n).length - 1 : ℤ) ≤ n ∧
      (n : ℚ) < 10 ^ ((Nat.toDigits 10 n).length : ℤ) := by
  have hpos : 0 < (Nat.toDigits 10 n).length := Nat.length_toDigits_pos
  obtain ⟨k, hk⟩ : ∃ k, (Nat.toDigits 10 n).length = k + 1 := ⟨_, (Nat.succ_pred hpos.ne').symm⟩
  have hhigh : n < 10 ^ (k + 1) :=
    (Nat.length_toDigits_le_iff (by decide) k.succ_pos).1 hk.le
  have hlow : 10 ^ k ≤ n := by
    by_contra! hlt
    rcases Nat.eq_zero_or_pos k with rfl | hkpos
    · omega
    · have := (Nat.length_toDigits_le_iff (by decide) hkpos).2 hlt
      omega
  rw [hk]
  push_cast
  rw [add_sub_cancel_right, zpow_natCast]
  exact ⟨by exact_mod_cast hlow, by exact_mod_cast hhigh⟩

/-- The decimal exponent is the logarithm. -/
theorem decimalExponent_eq (hnum : 0 < f.numerator) (hden : 0 < f.denominator) :
    f.decimalExponent = Int.log 10 f.value := by
  have hvalue : 0 < f.value := by
    unfold value
    positivity
  obtain ⟨hnumlow, hnumhigh⟩ := pow_length_toDigits hnum
  obtain ⟨hdenlow, hdenhigh⟩ := pow_length_toDigits hden
  unfold decimalExponent
  generalize (Nat.toDigits 10 f.numerator).length = a at hnumlow hnumhigh
  generalize (Nat.toDigits 10 f.denominator).length = b at hdenlow hdenhigh
  have hlow : (10 : ℚ) ^ ((a : ℤ) - b - 1) ≤ f.value := by
    have := div_le_div₀ (by positivity) hnumlow (by positivity) hdenhigh.le
    rwa [← zpow_sub₀ (by norm_num), sub_right_comm] at this
  have hhigh : f.value < (10 : ℚ) ^ ((a : ℤ) - b + 1) := by
    have := div_lt_div₀ hnumhigh hdenlow (by positivity) (by positivity)
    rwa [← zpow_sub₀ (by norm_num), ← sub_add] at this
  dsimp only
  generalize (a : ℤ) - b = k at hlow hhigh
  rw [← Nat.cast_ofNat, Int.zpow_le_iff_le_log (by decide) hvalue] at hlow
  rw [← Nat.cast_ofNat, Int.lt_zpow_iff_log_lt (by decide) hvalue] at hhigh
  have htest : (f.scaled k).denominator ≤ (f.scaled k).numerator ↔ k ≤ Int.log 10 f.value := by
    have hden' : 0 < (f.scaled k).denominator := Nat.mul_pos hden (Nat.pow_pos (by decide))
    have hone : (f.scaled k).denominator ≤ (f.scaled k).numerator ↔ 1 ≤ (f.scaled k).value := by
      rw [value, one_le_div (by positivity), Nat.cast_le]
    rw [hone, value_scaled, one_le_div (by positivity), ← Nat.cast_ofNat,
      Int.zpow_le_iff_le_log (by decide) hvalue]
  split
  · next h =>
    have := htest.1 h
    omega
  · next h =>
    have := mt htest.2 h
    omega

theorem value_ofBinary (m : ℕ) (e : ℤ) : (ofBinary m e).value = m * 2 ^ e := ofBinary_eq m e

theorem decimalExponent_ofBinary {m : ℕ} (hm : m ≠ 0) (e : ℤ) :
    (ofBinary m e).decimalExponent = Int.log 10 ((m : ℚ) * 2 ^ e) := by
  have hnum : 0 < (ofBinary m e).numerator :=
    Nat.mul_pos (Nat.pos_of_ne_zero hm) (Nat.two_pow_pos _)
  have hden : 0 < (ofBinary m e).denominator := Nat.two_pow_pos _
  rw [decimalExponent_eq hnum hden, value_ofBinary]

end Fraction

namespace Numeral

theorem digitValue_lt {c : Char} (h : c.isDigit) : digitValue c < 10 := by
  obtain ⟨-, hhigh⟩ := Char.isDigit_iff_toNat.1 h
  unfold digitValue
  rw [show '9'.toNat = 57 from rfl] at hhigh
  rw [show '0'.toNat = 48 from rfl]
  omega

theorem digitValue_pos {c : Char} (h : c.isDigit) (hne : c ≠ '0') : 0 < digitValue c := by
  obtain ⟨hlow, -⟩ := Char.isDigit_iff_toNat.1 h
  have : '0'.toNat ≠ c.toNat := fun heq => hne (Char.toNat_inj.1 heq.symm)
  unfold digitValue
  omega

theorem ofDigits_cons (c : Char) (cs : List Char) :
    ofDigits (c :: cs) = 10 ^ cs.length * digitValue c + ofDigits cs := by
  have hdigit : ofDigits [c] = digitValue c := Nat.zero_add _
  rw [← hdigit, ← ofDigits_append]
  rfl

theorem ofDigits_lt {cs : List Char} (h : ∀ c ∈ cs, c.isDigit) : ofDigits cs < 10 ^ cs.length := by
  induction cs with
  | nil => exact Nat.one_pos
  | cons c cs ih =>
    obtain ⟨hc, hcs⟩ := List.forall_mem_cons.1 h
    have := Nat.mul_le_mul_left (10 ^ cs.length) (Nat.le_of_lt_succ (digitValue_lt hc))
    have := ih hcs
    rw [ofDigits_cons, List.length_cons, pow_succ]
    omega

theorem le_ofDigits {c : Char} (hc : c.isDigit) (hne : c ≠ '0') (cs : List Char) :
    10 ^ cs.length ≤ ofDigits (c :: cs) := by
  rw [ofDigits_cons]
  exact (Nat.le_mul_of_pos_right _ (digitValue_pos hc hne)).trans (Nat.le_add_right _ _)

end Numeral

namespace Digits

section Bounds

variable {d : Digits}

theorem magnitude_lt (h : d.IsProper) : d.magnitude < 10 ^ (d.exponent + 1) := by
  have hdigits : (Numeral.ofDigits d.digits : ℚ) < 10 ^ (d.digits.length : ℤ) := by
    rw [zpow_natCast]
    exact_mod_cast Numeral.ofDigits_lt h.isDigit
  calc d.magnitude < 10 ^ (d.digits.length : ℤ) * 10 ^ (d.exponent + 1 - d.digits.length) := by
        unfold magnitude
        gcongr
    _ = 10 ^ (d.exponent + 1) := by
        rw [← zpow_add₀ (by norm_num), add_sub_cancel]

theorem le_magnitude (h : d.IsProper) (hhead : d.digits.head? ≠ some '0') :
    10 ^ d.exponent ≤ d.magnitude := by
  obtain ⟨c, cs, hcs⟩ := List.exists_cons_of_ne_nil h.ne_nil
  have hc : c.isDigit := h.isDigit c (hcs ▸ .head _)
  have hne : c ≠ '0' := by
    rintro rfl
    exact hhead (by rw [hcs]; rfl)
  have hdigits : (10 : ℚ) ^ (cs.length : ℤ) ≤ Numeral.ofDigits d.digits := by
    rw [zpow_natCast, hcs]
    exact_mod_cast Numeral.le_ofDigits hc hne cs
  calc (10 : ℚ) ^ d.exponent =
        10 ^ (cs.length : ℤ) * 10 ^ (d.exponent + 1 - d.digits.length) := by
        rw [← zpow_add₀ (by norm_num), hcs, List.length_cons]
        congr 1
        push_cast
        ring
    _ ≤ d.magnitude := by
        unfold magnitude
        gcongr

end Bounds

/-- The digits read back to the double, and no fewer digits do. -/
structure IsShortest (x : Float) (negative : Bool) (d : Digits) : Prop where
  readBack : ReadBack x negative d
  least : ∀ d', ReadBack x negative d' → d.digits.length ≤ d'.digits.length

variable {x : Float} {negative : Bool} {m : ℕ} {e : ℤ} {d : Digits}

/-- The digits as a numeral. -/
def numeral (negative : Bool) (d : Digits) : Numeral :=
  ⟨negative, Numeral.ofDigits d.digits, d.exponent + 1 - d.digits.length⟩

theorem magnitude_numeral (negative : Bool) (d : Digits) :
    (d.numeral negative).magnitude = d.magnitude := rfl

theorem readBack_iff (hx : BinaryForm.ofFloat x = .finite negative m e) (hm : m ≠ 0) :
    ReadBack x negative d ↔ d.IsProper ∧ rounded d.magnitude = m * 2 ^ e := by
  refine and_congr_right fun _ => ⟨fun h => ?_, fun h n hn hmagnitude => ?_⟩
  · have hsign : (d.numeral negative).negative = negative := rfl
    rw [← magnitude_numeral negative d]
    exact (Numeral.value_beq_iff hx hm hsign).1 (h _ hsign (magnitude_numeral negative d))
  · exact (Numeral.value_beq_iff hx hm hn).2 (hmagnitude ▸ h)

theorem magnitude_pos (hm : m ≠ 0) : 0 < (m : ℚ) * 2 ^ e := by
  have := Nat.pos_of_ne_zero hm
  positivity

theorem rounded_self (hx : BinaryForm.ofFloat x = .finite negative m e) :
    rounded (m * 2 ^ e) = m * 2 ^ e :=
  have h := (unpack_of_ofFloat hx).2
  rounded_of_lt h.lt h.ge

/-- A zero in front could be left out. -/
theorem IsShortest.head?_ne (h : d.IsShortest x negative)
    (hx : BinaryForm.ofFloat x = .finite negative m e) (hm : m ≠ 0) :
    d.digits.head? ≠ some '0' := by
  intro hhead
  obtain ⟨hproper, hrounded⟩ := (readBack_iff hx hm).1 h.readBack
  obtain ⟨cs, hcs⟩ := List.head?_eq_some_iff.1 hhead
  have hvalue : Numeral.ofDigits d.digits = Numeral.ofDigits cs := by
    rw [hcs, Numeral.ofDigits_cons]
    exact Nat.zero_add _
  by_cases hnil : cs = []
  · have hzero : d.magnitude = 0 := by
      rw [magnitude, hvalue, hnil]
      exact zero_mul _
    rw [hzero, rounded_zero] at hrounded
    exact (magnitude_pos hm).ne hrounded
  · have hmagnitude : (Digits.mk cs (d.exponent - 1)).magnitude = d.magnitude := by
      unfold magnitude
      dsimp only
      rw [hvalue, hcs, List.length_cons]
      congr 2
      push_cast
      ring
    have hshorter : ReadBack x negative ⟨cs, d.exponent - 1⟩ :=
      (readBack_iff hx hm).2 ⟨⟨hnil, fun c hc => hproper.isDigit c (hcs ▸ .tail _ hc)⟩,
        hmagnitude ▸ hrounded⟩
    have := h.least _ hshorter
    rw [hcs, List.length_cons] at this
    exact absurd this (Nat.not_succ_le_self _)

section Grid

variable {f : Fraction} {place : ℤ}

theorem exists_of_neighbour? (h : neighbour? x negative f place = some d) :
    ∃ n, d = ofNat n place ∧ n ≤ ⌊f.value / 10 ^ place⌋₊ + 1 := by
  rw [← Fraction.floor_scaled]
  unfold neighbour? at h
  dsimp only at h
  split at h
  all_goals
    split at h
    · cases h
      exact ⟨_, rfl, by omega⟩
    · split at h
      · cases h
        exact ⟨_, rfl, by omega⟩
      · cases h

theorem not_readsBack_of_neighbour? (h : neighbour? x negative f place = none) :
    ¬(Numeral.mk negative ⌊f.value / 10 ^ place⌋₊ place).value == x ∧
      ¬(Numeral.mk negative (⌊f.value / 10 ^ place⌋₊ + 1) place).value == x := by
  rw [← Fraction.floor_scaled]
  unfold neighbour? at h
  dsimp only at h
  split at h
  all_goals
    split at h
    · cases h
    · next hfirst =>
      split at h
      · cases h
      · next hsecond => first | exact ⟨hfirst, hsecond⟩ | exact ⟨hsecond, hfirst⟩

/-- If a point of the grid reads back, a neighbour of the double does. -/
theorem neighbour?_ne_none (hx : BinaryForm.ofFloat x = .finite negative m e) (hm : m ≠ 0)
    (hf : f.value = m * 2 ^ e) {n : ℕ} (hn : rounded (n * 10 ^ place) = m * 2 ^ e) :
    neighbour? x negative f place ≠ none := by
  intro hnone
  obtain ⟨hbelow, habove⟩ := not_readsBack_of_neighbour? hnone
  have hunit : (0 : ℚ) < 10 ^ place := by positivity
  have hlow : (⌊f.value / 10 ^ place⌋₊ : ℚ) * 10 ^ place ≤ m * 2 ^ e := by
    rw [← le_div_iff₀ hunit, ← hf]
    exact Nat.floor_le (hf ▸ div_nonneg (magnitude_pos hm).le hunit.le)
  have hhigh : (m : ℚ) * 2 ^ e ≤ (⌊f.value / 10 ^ place⌋₊ + 1 : ℕ) * 10 ^ place := by
    rw [← div_le_iff₀ hunit, ← hf]
    push_cast
    exact (Nat.lt_floor_add_one _).le
  have hself := rounded_self hx
  rcases Nat.lt_or_ge ⌊f.value / 10 ^ place⌋₊ n with hlt | hle
  · have hpoint : ((⌊f.value / 10 ^ place⌋₊ + 1 : ℕ) : ℚ) * 10 ^ place ≤ n * 10 ^ place := by
      gcongr
      exact hlt
    have hrounded := rounded_eq_of_between (magnitude_pos hm).le hhigh hpoint
      (hself.trans hn.symm)
    exact habove ((Numeral.value_beq_iff hx hm rfl).2 (hrounded.trans hself))
  · have hpoint : (n : ℚ) * 10 ^ place ≤ ⌊f.value / 10 ^ place⌋₊ * 10 ^ place := by gcongr
    have hrounded := rounded_eq_of_between (by positivity) hpoint hlow (hn.trans hself.symm)
    exact hbelow ((Numeral.value_beq_iff hx hm rfl).2 (hrounded.trans hn))

/-- On the grid of as many digits as are needed, some point reads back. Shortest digits that are not
on it lie on the other side of a power of ten, which is. -/
theorem exists_on_grid (hx : BinaryForm.ofFloat x = .finite negative m e) (hm : m ≠ 0)
    (h : d.IsShortest x negative) : ∃ n : ℕ,
      rounded (n * 10 ^ (Int.log 10 ((m : ℚ) * 2 ^ e) + 1 - d.digits.length)) = m * 2 ^ e := by
  obtain ⟨hproper, hrounded⟩ := (readBack_iff hx hm).1 h.readBack
  have hself := rounded_self hx
  have hpos := magnitude_pos (e := e) hm
  have hlow := Int.zpow_log_le_self (by decide : 1 < 10) hpos
  have hhigh := Int.lt_zpow_succ_log_self (by decide : 1 < 10) ((m : ℚ) * 2 ^ e)
  rw [Nat.cast_ofNat] at hlow hhigh
  have hlength : 0 < d.digits.length := List.length_pos_iff.2 hproper.ne_nil
  generalize Int.log 10 ((m : ℚ) * 2 ^ e) = k at hlow hhigh
  have hpower {j : ℤ} {n : ℕ} (hj : (n : ℤ) + (k + 1 - d.digits.length) = j)
      (hround : rounded (10 ^ j) = m * 2 ^ e) :
      rounded ((10 ^ n : ℕ) * 10 ^ (k + 1 - d.digits.length)) = m * 2 ^ e := by
    rw [Nat.cast_pow, Nat.cast_ofNat, ← zpow_natCast, ← zpow_add₀ (by norm_num), hj, hround]
  rcases lt_trichotomy d.exponent k with hlt | heq | hgt
  · have hend : (10 : ℚ) ^ (d.exponent + 1) ≤ 10 ^ k :=
      zpow_le_zpow_right₀ (by norm_num) (by omega)
    have hround := rounded_eq_of_between (by unfold magnitude; positivity)
      ((magnitude_lt hproper).le.trans hend) hlow (hrounded.trans hself.symm)
    exact ⟨_, hpower (n := d.digits.length - 1) (by omega) (hround.trans hrounded)⟩
  · exact ⟨Numeral.ofDigits d.digits, heq ▸ hrounded⟩
  · have hstart : (10 : ℚ) ^ (k + 1) ≤ 10 ^ d.exponent :=
      zpow_le_zpow_right₀ (by norm_num) (by omega)
    have hround := rounded_eq_of_between hpos.le hhigh.le
      (hstart.trans (le_magnitude hproper (h.head?_ne hx hm))) (hself.trans hrounded.symm)
    exact ⟨_, hpower (n := d.digits.length) (by omega) (hround.trans hself)⟩

/-- Seventeen digits suffice. -/
theorem exists_on_grid_seventeen (hx : BinaryForm.ofFloat x = .finite negative m e) (hm : m ≠ 0) :
    ∃ n : ℕ, rounded (n * 10 ^ (Int.log 10 ((m : ℚ) * 2 ^ e) - 16)) = m * 2 ^ e := by
  have hpos := magnitude_pos (e := e) hm
  have hlow := Int.zpow_log_le_self (by decide : 1 < 10) hpos
  rw [Nat.cast_ofNat] at hlow
  have hunit : (10 : ℚ) ^ (Int.log 10 ((m : ℚ) * 2 ^ e) - 16) * 10 ^ 16 ≤ m * 2 ^ e := by
    rwa [← zpow_natCast, ← zpow_add₀ (by norm_num), Nat.cast_ofNat, sub_add_cancel]
  refine ⟨⌊(m : ℚ) * 2 ^ e / 10 ^ (Int.log 10 ((m : ℚ) * 2 ^ e) - 16) + 1 / 2⌋₊, ?_⟩
  have hu : (0 : ℚ) < 10 ^ (Int.log 10 ((m : ℚ) * 2 ^ e) - 16) := by positivity
  generalize (10 : ℚ) ^ (Int.log 10 ((m : ℚ) * 2 ^ e) - 16) = u at hunit hu
  refine rounded_of_close (unpack_of_ofFloat hx).2.isNormal (by positivity) ?_
  have hfloor := Nat.floor_le (by positivity : 0 ≤ (m : ℚ) * 2 ^ e / u + 1 / 2)
  have hceil := Nat.lt_floor_add_one ((m : ℚ) * 2 ^ e / u + 1 / 2)
  generalize (⌊(m : ℚ) * 2 ^ e / u + 1 / 2⌋₊ : ℚ) = n at hfloor hceil
  have hhalf : |(m : ℚ) * 2 ^ e / u - n| ≤ 1 / 2 := abs_le.2 ⟨by linarith, by linarith⟩
  calc |(m : ℚ) * 2 ^ e - n * u| = |(m : ℚ) * 2 ^ e / u - n| * u := by
        rw [← abs_of_pos hu, ← abs_mul, abs_of_pos hu, sub_mul, div_mul_cancel₀ _ hu.ne']
    _ ≤ 1 / 2 * u := by gcongr
    _ < m * 2 ^ e / 2 ^ 54 := by linarith

end Grid

section Length

theorem toDigits_ten_pow (j : ℕ) : Nat.toDigits 10 (10 ^ j) = '1' :: Layout.zeros j := by
  induction j with
  | zero => rfl
  | succ j ih =>
    have h := Nat.toDigits_append_toDigits (b := 10) (n := 10 ^ j) (d := 0) (by decide)
      (Nat.pow_pos (by decide)) (by decide)
    rw [pow_succ, mul_comm, ← Nat.add_zero (10 * 10 ^ j), ← h, ih]
    simp [Layout.zeros, List.replicate_succ']

theorem length_trim_le (cs : List Char) : (trim cs).length ≤ cs.length := by
  obtain ⟨k, hk⟩ := exists_eq_trim_append cs
  have := congrArg List.length hk
  rw [List.length_append] at this
  omega

theorem trim_ten_pow (j : ℕ) : trim (Nat.toDigits 10 (10 ^ j)) = ['1'] := by
  have hzeros : ∀ c ∈ Layout.zeros j, (c == '0') = true := fun c hc =>
    beq_iff_eq.2 (List.eq_of_mem_replicate hc)
  rw [toDigits_ten_pow, trim, List.reverse_cons, Layout.zeros, List.reverse_replicate,
    ← Layout.zeros, List.dropWhile_append_of_pos hzeros]
  rfl

/-- A power of ten has one digit. -/
theorem length_ofNat_le {n j : ℕ} (hj : 0 < j) (h : n ≤ 10 ^ j) (place : ℤ) :
    (ofNat n place).digits.length ≤ j := by
  rcases h.eq_or_lt with rfl | h
  · change (trim _).length ≤ j
    rw [trim_ten_pow]
    exact hj
  · exact (length_trim_le _).trans ((Nat.length_toDigits_le_iff (by decide) hj).2 h)

end Length

theorem exists_isShortest (h : ReadBack x negative d) : ∃ d, IsShortest x negative d := by
  obtain ⟨d, hd, hleast⟩ := (measure fun d : Digits => d.digits.length).wf.has_min
    {d | ReadBack x negative d} ⟨_, h⟩
  exact ⟨d, hd, fun d' hd' => not_lt.1 (hleast d' hd')⟩

/-- A search along numbers finds nothing later than the first that it would find. -/
theorem findSome?_range {α : Type} {g : ℕ → Option α} {n k : ℕ} (hk : k < n) (h : g k ≠ none) :
    ∃ j a, j ≤ k ∧ g j = some a ∧ (List.range n).findSome? g = some a := by
  obtain ⟨a, ha⟩ := Option.isSome_iff_exists.1 <| List.findSome?_isSome_iff.2
    ⟨k, List.mem_range.2 hk, Option.isSome_iff_ne_none.2 h⟩
  obtain ⟨before, j, after, hrange, hj, hbefore⟩ := List.findSome?_eq_some_iff.1 ha
  refine ⟨j, a, ?_, hj, ha⟩
  have hsorted := List.pairwise_lt_range (n := n)
  have hmem := List.mem_range.2 hk
  rw [hrange] at hsorted hmem
  rcases List.mem_append.1 hmem with hmem | hmem
  · exact absurd (hbefore k hmem) h
  · rcases List.mem_cons.1 hmem with rfl | hmem
    · exact le_rfl
    · exact ((List.pairwise_cons.1 (List.pairwise_append.1 hsorted).2.1).1 k hmem).le

section Search

/-- What is found on a grid has at most as many digits as the grid. -/
theorem readBack_of_grid (hx : BinaryForm.ofFloat x = .finite negative m e) (hm : m ≠ 0) {more : ℕ}
    (h : neighbour? x negative (.ofBinary m e) ((Fraction.ofBinary m e).decimalExponent - more) =
      some d) : ReadBack x negative d ∧ d.digits.length ≤ more + 1 := by
  refine ⟨readBack_of_neighbour hx hm h, ?_⟩
  obtain ⟨n, rfl, hn⟩ := exists_of_neighbour? h
  rw [Fraction.decimalExponent_ofBinary hm, Fraction.value_ofBinary] at hn
  have hhigh := Int.lt_zpow_succ_log_self (by decide : 1 < 10) ((m : ℚ) * 2 ^ e)
  rw [Nat.cast_ofNat] at hhigh
  refine length_ofNat_le more.succ_pos (hn.trans ?_) _
  rw [Nat.succ_le_iff, Nat.floor_lt (by positivity), div_lt_iff₀ (by positivity)]
  refine hhigh.trans_eq ?_
  rw [Nat.cast_pow, Nat.cast_ofNat, ← zpow_natCast, ← zpow_add₀ (by norm_num)]
  congr 1
  push_cast
  ring

/-- The digits that are found are the shortest. -/
theorem isShortest_shortest (hx : BinaryForm.ofFloat x = .finite negative m e) (hm : m ≠ 0) :
    (shortest x negative m e).IsShortest x negative := by
  have hread := readBack_shortest hx hm
  obtain ⟨d, hd⟩ := exists_isShortest hread
  refine ⟨hread, fun d' hd' => le_trans ?_ (hd.least d' hd')⟩
  have hlead := Fraction.decimalExponent_ofBinary hm e
  have hgrid {place : ℤ} {n : ℕ} (hn : rounded (n * 10 ^ place) = m * 2 ^ e) :
      neighbour? x negative (.ofBinary m e) place ≠ none :=
    neighbour?_ne_none hx hm (Fraction.value_ofBinary m e) hn
  have hseventeen : d.digits.length ≤ 17 := by
    obtain ⟨n, hn⟩ := exists_on_grid_seventeen hx hm
    have hsixteen : Int.log 10 ((m : ℚ) * 2 ^ e) - 16 =
        (Fraction.ofBinary m e).decimalExponent - (16 : ℕ) := by rw [hlead, Nat.cast_ofNat]
    rw [hsixteen] at hn
    obtain ⟨d', hd'⟩ := Option.ne_none_iff_exists'.1 (hgrid hn)
    obtain ⟨hread', hlength⟩ := readBack_of_grid hx hm hd'
    exact (hd.least d' hread').trans hlength
  have hlength : 0 < d.digits.length := List.length_pos_iff.2 hd.readBack.1.ne_nil
  obtain ⟨n, hn⟩ := exists_on_grid hx hm hd
  have hplace : Int.log 10 ((m : ℚ) * 2 ^ e) + 1 - d.digits.length =
      (Fraction.ofBinary m e).decimalExponent - (d.digits.length - 1 : ℕ) := by
    rw [hlead]
    omega
  rw [hplace] at hn
  obtain ⟨more, found, hmore, hfound, hsearch⟩ := findSome?_range (g := fun more : ℕ =>
    neighbour? x negative (.ofBinary m e) ((Fraction.ofBinary m e).decimalExponent - more))
    (by omega : d.digits.length - 1 < 17) (hgrid hn)
  have hshortest : shortest x negative m e = found := by
    unfold shortest
    dsimp only
    rw [hsearch]
    rfl
  rw [hshortest]
  have := (readBack_of_grid hx hm hfound).2
  omega

end Search

end Digits

end ScopedLisp
