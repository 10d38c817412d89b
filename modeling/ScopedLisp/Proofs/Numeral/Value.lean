import Mathlib
import ScopedLisp.Numeral.Binary
import ScopedLisp.Proofs.Numeral.Rounding
import ScopedLisp.Proofs.Numeral.Text

open Float.Model Float.Model.UnpackedFloat

namespace ScopedLisp

namespace Rounding

def signOf (negative : Bool) : Sign := if negative then .negative else .positive

/-- The double `m * 2 ^ e`, negated if `negative`, before it is packed. -/
def unpacked (negative : Bool) (m : ℕ) (e : ℤ) : UnpackedFloat :=
  if h : m = 0 then .zero (signOf negative)
  else .finite (signOf negative) m e (Nat.pos_of_ne_zero h)

/-- The significands and exponents that the bits of a finite double can hold. -/
structure IsDouble (m : ℕ) (e : ℤ) : Prop where
  lt : m < 2 ^ 53
  ge : -1074 ≤ e
  le : e ≤ 971
  normal : 2 ^ 52 ≤ m ∨ e = -1074

/-- What unpacked doubles hold, with exponents as great as needed. -/
structure IsNormal (m : ℕ) (e : ℤ) : Prop where
  lt : m < 2 ^ 53
  ge : -1074 ≤ e
  normal : 2 ^ 52 ≤ m ∨ e = -1074

theorem IsDouble.isNormal {m : ℕ} {e : ℤ} (h : IsDouble m e) : IsNormal m e :=
  ⟨h.lt, h.ge, h.normal⟩

theorem isNormal_zero : IsNormal 0 (-1074) := ⟨by decide, le_rfl, .inr rfl⟩

theorem nearest_eq_unpacked {m : ℕ} {e : ℤ} (h : IsNormal m e) (negative : Bool) :
    nearest (signOf negative) (m * 2 ^ e) = unpacked negative m e := by
  unfold unpacked
  split
  · next hm => rw [hm, Nat.cast_zero, zero_mul, nearest_zero]
  · next hm => exact nearest_of_isDouble _ (Nat.pos_of_ne_zero hm) h.lt h.ge h.normal

theorem toNat_leading_append (fraction : BitVec 52) :
    (1#1 ++ fraction).toNat = 2 ^ 52 + fraction.toNat := by
  rw [BitVec.toNat_append, ← Nat.shiftLeft_add_eq_or_of_lt fraction.isLt]
  rfl

/-- Unpacking by the fields of the bits: a zero exponent field stands for the smallest exponent
without the leading one bit. -/
theorem unpack_eq_unpacked {b : BitVec 64} {negative : Bool} {field : ℕ} {fraction : ℕ}
    (hsign : Sign.ofBitVec (@unpackSign Format.binary64 b) = signOf negative)
    (hfield : (@unpackExponent Format.binary64 b).toNat = field)
    (hfraction : (@unpackMantissa Format.binary64 b).toNat = fraction)
    (hfinite : field ≠ 2 ^ 11 - 1) :
    UnpackedFloat.unpack Format.binary64 b =
      if field = 0 then unpacked negative fraction (-1074)
      else unpacked negative (2 ^ 52 + fraction) (field - 1075) := by
  have htop : @unpackExponent Format.binary64 b ≠ -1#_ := by
    intro h
    exact hfinite (by rw [← hfield, h]; rfl)
  have hzero : @unpackExponent Format.binary64 b = 0#_ ↔ field = 0 := by
    rw [← hfield, ← BitVec.toNat_inj]
    rfl
  have hnone : @unpackMantissa Format.binary64 b = 0#_ ↔ fraction = 0 := by
    rw [← hfraction, ← BitVec.toNat_inj]
    rfl
  unfold UnpackedFloat.unpack unpacked
  simp only [htop, hzero, hnone, hsign, hfield, hfraction, if_false]
  split
  · next h =>
    subst h
    split <;> rfl
  · have hne : 2 ^ 52 + fraction ≠ 0 := by omega
    rw [dif_neg hne]
    congr 1
    rw [← hfraction]
    exact toNat_leading_append _

theorem toNat_unpackMantissa (x : Float) :
    (@unpackMantissa Format.binary64 x.toBits.toBitVec).toNat = x.toBits.toNat % 2 ^ 52 := by
  rw [unpackMantissa_def, BitVec.extractLsb'_toNat]
  rfl

theorem toNat_unpackExponent (x : Float) :
    (@unpackExponent Format.binary64 x.toBits.toBitVec).toNat =
      x.toBits.toNat / 2 ^ 52 % 2 ^ 11 := by
  rw [unpackExponent_def, BitVec.extractLsb'_toNat, Nat.shiftRight_eq_div_pow]
  rfl

theorem ofBitVec_unpackSign (x : Float) :
    Sign.ofBitVec (@unpackSign Format.binary64 x.toBits.toBitVec) =
      signOf (decide (2 ^ 63 ≤ x.toBits.toNat)) := by
  have hbits : x.toBits.toNat < 2 ^ 64 := x.toBits.toNat_lt
  have hbit : (@unpackSign Format.binary64 x.toBits.toBitVec).toNat =
      x.toBits.toNat / 2 ^ 63 % 2 := by
    rw [unpackSign_def, BitVec.extractLsb'_toNat, Nat.shiftRight_eq_div_pow]
    rfl
  have hzero : @unpackSign Format.binary64 x.toBits.toBitVec = 0#1 ↔
      ¬2 ^ 63 ≤ x.toBits.toNat := by
    rw [← BitVec.toNat_inj, hbit, BitVec.toNat_ofNat]
    omega
  simp only [Sign.ofBitVec, hzero, signOf, decide_eq_true_eq]
  split <;> simp_all

theorem unpack_of_ofFloat {x : Float} {negative : Bool} {m : ℕ} {e : ℤ}
    (h : BinaryForm.ofFloat x = .finite negative m e) :
    x.toModel.unpack = unpacked negative m e ∧ IsDouble m e := by
  have hfraction : x.toBits.toNat % 2 ^ 52 < 2 ^ 52 := Nat.mod_lt _ (by decide)
  have hfield : x.toBits.toNat / 2 ^ 52 % 2 ^ 11 < 2 ^ 11 := Nat.mod_lt _ (by decide)
  have hunpack (hfinite) := unpack_eq_unpacked (ofBitVec_unpackSign x) (toNat_unpackExponent x)
    (toNat_unpackMantissa x) hfinite
  unfold BinaryForm.ofFloat at h
  simp only [Nat.pow_eq] at h
  generalize x.toBits.toNat % 2 ^ 52 = fraction at h hunpack hfraction
  generalize x.toBits.toNat / 2 ^ 52 % 2 ^ 11 = field at h hunpack hfield
  split at h
  · split at h <;> cases h
  · next hfinite =>
    have hmodel : x.toModel.unpack = _ := hunpack hfinite
    rw [hmodel]
    split at h
    · next hzero =>
      cases h
      exact ⟨if_pos hzero, by constructor <;> omega⟩
    · next hzero =>
      cases h
      exact ⟨if_neg hzero, by constructor <;> omega⟩

/-- A double is finite if its bits say so. -/
theorem exists_ofFloat_of_isFinite {x : Float} (h : x.isFinite) :
    ∃ negative m e, BinaryForm.ofFloat x = .finite negative m e := by
  have hfield : x.toBits.toNat / 2 ^ 52 % 2 ^ 11 ≠ 2 ^ 11 - 1 := by
    intro htop
    have hones : @unpackExponent Format.binary64 x.toBits.toBitVec = -1#_ := by
      rw [← BitVec.toNat_inj, toNat_unpackExponent, htop]
      rfl
    have hunpack : x.toModel.unpack = UnpackedFloat.unpack Format.binary64 x.toBits.toBitVec := rfl
    have hfinite : x.toModel.unpack.isFinite := h
    rw [hunpack, UnpackedFloat.unpack] at hfinite
    simp only [hones, ↓reduceIte] at hfinite
    split at hfinite <;> cases hfinite
  unfold BinaryForm.ofFloat
  simp only [Nat.pow_eq, hfield, ↓reduceIte]
  split
  · exact ⟨_, _, _, rfl⟩
  · exact ⟨_, _, _, rfl⟩

theorem unpack_packComponents (negative : Bool) {field : BitVec 11} (fraction : BitVec 52)
    (hfinite : field.toNat ≠ 2 ^ 11 - 1) :
    UnpackedFloat.unpack Format.binary64
        (packComponents Format.binary64 (signOf negative) field fraction) =
      if field.toNat = 0 then unpacked negative fraction.toNat (-1074)
      else unpacked negative (2 ^ 52 + fraction.toNat) (field.toNat - 1075) := by
  refine unpack_eq_unpacked ?_ ?_ ?_ hfinite
  · rw [unpackSign_packComponents]
    cases negative <;> rfl
  · rw [unpackExponent_packComponents]
  · rw [unpackMantissa_packComponents]

theorem unpack_pack_unpacked {m : ℕ} {e : ℤ} (h : IsDouble m e) (negative : Bool) :
    (Float.Model.pack (unpacked negative m e)).unpack = unpacked negative m e := by
  obtain ⟨hlt, hge, hle, hnormal⟩ := h
  by_cases hm : m = 0
  · simp only [unpacked, hm, ↓reduceDIte]
    exact unpack_packedZero
  have hnormalized : m.log2 + 1 = Format.binary64.mantissaBits ↔ 2 ^ 52 ≤ m := by
    have : Format.binary64.mantissaBits = 52 + 1 := rfl
    rw [this, Nat.add_right_cancel_iff, Nat.log2_eq_iff hm]
    exact and_iff_left hlt
  have hfits : ¬2 ^ 11 ≤ (e + 1023 + 52).toNat + 1 := by omega
  have hpack : UnpackedFloat.pack Format.binary64 (unpacked negative m e) =
      if 2 ^ 52 ≤ m then
        packComponents Format.binary64 (signOf negative) (.ofNat 11 (e + 1023 + 52).toNat)
          (.ofNat 52 m)
      else packComponents Format.binary64 (signOf negative) 0#11 (.ofNat 52 m) := by
    rw [unpacked, dif_neg hm]
    refine (if_neg hfits).trans ?_
    simp only [hnormalized]
    rfl
  change UnpackedFloat.unpack Format.binary64 (UnpackedFloat.pack Format.binary64 _) = _
  rw [hpack]
  split
  · next hnormal =>
    have hfield : (BitVec.ofNat 11 (e + 1023 + 52).toNat).toNat = (e + 1023 + 52).toNat := by
      rw [BitVec.toNat_ofNat]
      omega
    have hfraction : 2 ^ 52 + (BitVec.ofNat 52 m).toNat = m := by
      rw [BitVec.toNat_ofNat]
      omega
    rw [unpack_packComponents negative _ (by omega), if_neg (by omega), hfraction, hfield]
    congr 1
    omega
  · next hsmall =>
    have he : e = -1074 := hnormal.resolve_left hsmall
    rw [unpack_packComponents negative _ (by decide), if_pos BitVec.toNat_zero, BitVec.toNat_ofNat,
      Nat.mod_eq_of_lt (by omega), he]

theorem ofModel_pack_unpack (x : Float) : Float.ofModel (.pack x.toModel.unpack) = x :=
  Float.ofBits_toBits x

/-- The double nearest to a magnitude, infinite if the magnitude is too large. -/
def double (q : ℚ) : Float := .ofModel (.pack (nearest .positive q))

theorem neg_ofModel_pack {m : ℕ} {e : ℤ} (h : IsDouble m e) (negative : Bool) :
    -Float.ofModel (.pack (unpacked negative m e)) =
      .ofModel (.pack (unpacked (!negative) m e)) := by
  have hneg : (unpacked negative m e).neg = unpacked (!negative) m e := by
    unfold unpacked UnpackedFloat.neg
    by_cases hm : m = 0 <;> cases negative <;> simp only [hm, ↓reduceDIte] <;> rfl
  change Float.ofModel (.pack (Float.Model.unpack _).neg) = _
  rw [unpack_pack_unpacked h, hneg]

/-- A finite double is the double nearest to its magnitude, with its sign. -/
theorem eq_double {x : Float} {negative : Bool} {m : ℕ} {e : ℤ}
    (h : BinaryForm.ofFloat x = .finite negative m e) :
    x = if negative then -double (m * 2 ^ e) else double (m * 2 ^ e) := by
  obtain ⟨hunpack, hdouble⟩ := unpack_of_ofFloat h
  have hmagnitude : double (m * 2 ^ e) = .ofModel (.pack (unpacked false m e)) := by
    rw [← nearest_eq_unpacked hdouble.isNormal]
    rfl
  rw [hmagnitude, neg_ofModel_pack hdouble, ← ofModel_pack_unpack x, hunpack]
  cases negative <;> rfl

theorem isDouble_natCast {m : ℕ} (hpos : 0 < m) (hm : m < 2 ^ 53) :
    IsDouble (m * 2 ^ (52 - m.log2)) (m.log2 - 52) := by
  have hlog : m.log2 < 53 := (Nat.log2_lt hpos.ne').2 hm
  have hscale : 2 ^ m.log2 * 2 ^ (52 - m.log2) = 2 ^ 52 := by
    rw [← pow_add]
    congr 1
    omega
  have hlow := Nat.mul_le_mul_right (2 ^ (52 - m.log2)) (Nat.log2_self_le hpos.ne')
  have hhigh := Nat.mul_lt_mul_of_pos_right (Nat.lt_log2_self (n := m))
    (Nat.two_pow_pos (52 - m.log2))
  rw [pow_succ, mul_right_comm, hscale] at hhigh
  rw [hscale] at hlow
  exact ⟨hhigh, by omega, by omega, .inl hlow⟩

theorem normalize_natCast (m : ℕ) :
    UnpackedFloat.normalize Format.binary64 m 0 .positive = nearest .positive m := by
  unfold UnpackedFloat.normalize
  split
  · next h => exact absurd (Int.compare_eq_lt.1 h) (by omega)
  · next h =>
    have : m = 0 := by exact_mod_cast Int.compare_eq_eq.1 h
    rw [this, Nat.cast_zero, nearest_zero]
  · next h =>
    have hpos : 0 < m := by exact_mod_cast Int.compare_eq_gt.1 h
    rw [Int.toNat_natCast, round_eq_nearest _ hpos, zpow_zero, mul_one]

theorem mul_two_pow_cancel {m k : ℕ} (h : k ≤ 52) :
    ((m * 2 ^ (52 - k) : ℕ) : ℚ) * 2 ^ ((k : ℤ) - 52) = m := by
  have hexponent : ((52 - k : ℕ) : ℤ) + ((k : ℤ) - 52) = 0 := by omega
  push_cast
  rw [← zpow_natCast, mul_assoc, ← zpow_add₀ two_ne_zero, hexponent, zpow_zero, mul_one]

theorem toModel_toFloat {m : ℕ} (hm : m < 2 ^ 53) :
    m.toUInt64.toFloat.toModel = .pack (nearest .positive m) := by
  have hcast : m.toUInt64.toNat = m := Nat.mod_eq_of_lt (by omega)
  have hmodel : m.toUInt64.toFloat.toModel = .pack (UnpackedFloat.normalize Format.binary64
      m.toUInt64.toNat 0 .positive) := rfl
  rw [hmodel, hcast, normalize_natCast]

theorem double_zero : double 0 = .ofModel (.pack (.zero .positive)) := by
  rw [double, nearest_zero]

theorem unpack_zero_toFloat : (0 : ℕ).toUInt64.toFloat.toModel.unpack = .zero .positive := by
  rw [toModel_toFloat (by decide), Nat.cast_zero, nearest_zero]
  exact unpack_packedZero

/-- A natural number of at most 53 bits is a double. -/
theorem unpack_toFloat {m : ℕ} (hpos : 0 < m) (hm : m < 2 ^ 53) :
    ∃ m' e h, m.toUInt64.toFloat.toModel.unpack = .finite .positive m' e h ∧
      2 ^ 52 ≤ m' ∧ (m' : ℚ) * 2 ^ e = m := by
  have hlog : m.log2 < 53 := (Nat.log2_lt hpos.ne').2 hm
  have hdouble := isDouble_natCast hpos hm
  have hvalue := mul_two_pow_cancel (m := m) (k := m.log2) (by omega)
  have hround := nearest_eq_unpacked hdouble.isNormal false
  rw [hvalue] at hround
  have hlow : 2 ^ 52 ≤ m * 2 ^ (52 - m.log2) := hdouble.normal.resolve_right (by omega)
  refine ⟨_, _, by omega, ?_, hlow, hvalue⟩
  rw [toModel_toFloat hm, show Sign.positive = signOf false from rfl, hround,
    unpack_pack_unpacked hdouble, unpacked, dif_neg (by omega)]

theorem toFloat_mul {m : ℕ} (hm : m < 2 ^ 53) {x : Float} {p : ℕ} {f : ℤ} {hp : 0 < p}
    (hx : x.toModel.unpack = .finite .positive p f hp) :
    m.toUInt64.toFloat * x = double (m * (p * 2 ^ f)) := by
  change Float.ofModel (.pack (mul _ m.toUInt64.toFloat.toModel.unpack x.toModel.unpack)) = _
  rcases Nat.eq_zero_or_pos m with rfl | hpos
  · rw [unpack_zero_toFloat, hx, Nat.cast_zero, zero_mul, double_zero]
    rfl
  · obtain ⟨m', e, hm', hmodel, hnormal, hvalue⟩ := unpack_toFloat hpos hm
    have hproduct : 2 ^ 52 ≤ m' * p := hnormal.trans (Nat.le_mul_of_pos_right _ hp)
    rw [hmodel, hx, mul_finite _ _ _ _ _ _ hproduct, hvalue]
    rfl

theorem toFloat_div {m : ℕ} (hm : m < 2 ^ 53) {x : Float} {p : ℕ} {f : ℤ} {hp : 0 < p}
    (hx : x.toModel.unpack = .finite .positive p f hp) :
    m.toUInt64.toFloat / x = double (m / (p * 2 ^ f)) := by
  change Float.ofModel (.pack (div _ m.toUInt64.toFloat.toModel.unpack x.toModel.unpack)) = _
  rcases Nat.eq_zero_or_pos m with rfl | hpos
  · rw [unpack_zero_toFloat, hx, Nat.cast_zero, zero_div, double_zero]
    rfl
  · obtain ⟨m', e, hm', hmodel, -, hvalue⟩ := unpack_toFloat hpos hm
    rw [hmodel, hx, div_finite, hvalue]
    rfl

theorem unpack_powersOfTen {k : ℕ} (hk : k < Float.exactlyRepresentablePowersOfTen.size) :
    ∃ m e h, Float.exactlyRepresentablePowersOfTen[k].toModel.unpack = .finite .positive m e h ∧
      (m : ℚ) * 2 ^ e = 10 ^ k := by
  have hform : ∀ k : Fin 23,
      BinaryForm.ofFloat (Float.exactlyRepresentablePowersOfTen[k.val]) = .finite false
        (10 ^ k.val * 2 ^ 52 / 2 ^ Nat.log2 (10 ^ k.val)) (Nat.log2 (10 ^ k.val) - 52) ∧
      2 ^ Nat.log2 (10 ^ k.val) ∣ 10 ^ k.val * 2 ^ 52 := by
    decide +kernel
  obtain ⟨hfinite, m, hm⟩ := hform ⟨k, hk⟩
  have hvalue : (10 : ℚ) ^ k * 2 ^ 52 = 2 ^ Nat.log2 (10 ^ k) * m := by exact_mod_cast hm
  have hpos : 0 < m := by
    have : (0 : ℚ) < 2 ^ Nat.log2 (10 ^ k) * m := hvalue ▸ by positivity
    exact_mod_cast pos_of_mul_pos_right this (by positivity)
  rw [hm, Nat.mul_div_cancel_left m (Nat.two_pow_pos _)] at hfinite
  refine ⟨m, _, hpos, (unpack_of_ofFloat hfinite).1.trans (dif_neg hpos.ne'), ?_⟩
  rw [zpow_sub₀ two_ne_zero, zpow_natCast, mul_div_assoc', mul_comm, ← hvalue]
  exact mul_div_cancel_right₀ _ (by norm_num)

theorem two_pow_le_mul_ten_pow {m : ℕ} (hm : 0 < m) {e : ℤ} (he : 2048 < e) :
    (2 : ℚ) ^ (1024 : ℤ) ≤ m * 10 ^ e := by
  calc (2 : ℚ) ^ (1024 : ℤ) ≤ 10 ^ (1024 : ℤ) :=
        zpow_le_zpow_left₀ (by norm_num) (by norm_num) (by norm_num)
    _ ≤ 10 ^ e := zpow_le_zpow_right₀ (by norm_num) (by omega)
    _ ≤ m * 10 ^ e := le_mul_of_one_le_left (by positivity) (by exact_mod_cast hm)

theorem mul_ten_pow_lt_two_pow {m : ℕ} {e : ℤ} (he : e < -(2048 + (m.log2 : ℤ))) :
    (m : ℚ) * 10 ^ e < 2 ^ (-1075 : ℤ) := by
  have hlog : (m : ℚ) < 2 ^ ((m.log2 : ℤ) + 1) := by exact_mod_cast Nat.lt_log2_self
  have hfive : (5 : ℚ) ^ e ≤ 1 := zpow_le_one_of_nonpos₀ (by norm_num) (by omega)
  calc (m : ℚ) * 10 ^ e < 2 ^ ((m.log2 : ℤ) + 1) * 10 ^ e :=
        mul_lt_mul_of_pos_right hlog (by positivity)
    _ = 2 ^ ((m.log2 : ℤ) + 1 + e) * 5 ^ e := by
        rw [zpow_add₀ two_ne_zero _ e, mul_assoc, ← mul_zpow]
        norm_num
    _ ≤ 2 ^ ((m.log2 : ℤ) + 1 + e) := mul_le_of_le_one_right (by positivity) hfive
    _ ≤ 2 ^ (-1075 : ℤ) := zpow_le_zpow_right₀ (by norm_num) (by omega)

theorem mul_ten_pow_eq (m k : ℕ) :
    ((m <<< 53 : ℕ) : ℚ) * 2 ^ (-53 : ℤ) * ((10 ^ k : ℕ) * 2 ^ (0 : ℤ)) = m * 10 ^ (k : ℤ) := by
  rw [Nat.shiftLeft_eq, zpow_natCast]
  push_cast
  field_simp
  norm_num

theorem div_ten_pow_eq (m k : ℕ) :
    (m : ℚ) * 2 ^ (0 : ℤ) / ((10 ^ k : ℕ) * 2 ^ (0 : ℤ)) = m * 10 ^ (-k : ℤ) := by
  rw [zpow_neg, zpow_natCast, zpow_zero, mul_one, mul_one, div_eq_mul_inv]
  push_cast
  rfl

/-- Far beyond the doubles, or below them, the power of ten is not even computed. -/
theorem pack_ofScientific (m : ℕ) (e : ℤ) :
    UnpackedFloat.pack .binary64 (UnpackedFloat.ofScientific .binary64 m e) =
      UnpackedFloat.pack .binary64 (nearest .positive (m * 10 ^ e)) := by
  unfold UnpackedFloat.ofScientific
  split
  · next hm => rw [hm, Nat.cast_zero, zero_mul, nearest_zero]
  next hm =>
  have hpos : 0 < m := Nat.pos_of_ne_zero hm
  split
  · next he => exact (pack_nearest_of_le .positive (two_pow_le_mul_ten_pow hpos he)).symm
  split
  · next he => rw [nearest_of_lt .positive (by positivity) (mul_ten_pow_lt_two_pow he)]
  split
  · next he =>
    obtain ⟨k, rfl⟩ := Int.eq_ofNat_of_zero_le he
    have hmantissa : 2 ^ 52 ≤ m <<< 53 * 10 ^ k := by
      rw [Nat.shiftLeft_eq]
      calc 2 ^ 52 ≤ 1 * 2 ^ 53 * 1 := by decide
        _ ≤ m * 2 ^ 53 * 10 ^ k :=
          Nat.mul_le_mul (Nat.mul_le_mul_right _ hpos) (Nat.one_le_pow k 10 (by decide))
    rw [← mul_ten_pow_eq]
    exact congrArg _ (mul_finite .positive .positive (-53) 0 _ _ hmantissa)
  · next he =>
    obtain ⟨k, rfl⟩ : ∃ k : ℕ, e = -k := ⟨(-e).toNat, by omega⟩
    simp only [neg_neg, Int.toNat_natCast]
    rw [← div_ten_pow_eq]
    exact congrArg _ (div_finite .positive .positive 0 0 hpos _)

/-- Powers of ten that are doubles are multiplied and divided by as such, and nothing is lost. -/
theorem ofScientific_eq_double (m : ℕ) (below : Bool) (k : ℕ) :
    Float.ofScientific m below k = double (m * 10 ^ (if below then -(k : ℤ) else k)) := by
  unfold Float.ofScientific
  split
  · next h =>
    obtain ⟨hm, hk⟩ := h
    obtain ⟨p, f, hp, hpower, hten⟩ := unpack_powersOfTen (Nat.lt_succ_of_le hk)
    cases below with
    | false => exact (toFloat_mul hm hpower).trans (by rw [hten]; rfl)
    | true =>
      refine (toFloat_div hm hpower).trans ?_
      rw [hten, if_pos rfl, zpow_neg, zpow_natCast, div_eq_mul_inv]
  · have hslow (e : ℤ) : Float.ofModel (Float.Model.ofScientific m e) = double (m * 10 ^ e) := by
      unfold Float.Model.ofScientific double Float.Model.pack
      simp only [pack_ofScientific]
    cases below with
    | false => exact hslow k
    | true =>
      have hneg : -(k : ℤ) = Int.negOfNat k := Int.negOfNat_eq.symm
      simp only [if_true, hneg]
      exact hslow _

end Rounding

open Rounding

namespace Numeral

theorem value_eq (n : Numeral) :
    n.value = if n.negative then -double n.magnitude else double n.magnitude := by
  have hexponent : (if decide (n.exponent < 0) = true then -(n.exponent.natAbs : ℤ)
      else n.exponent.natAbs) = n.exponent := by
    simp only [decide_eq_true_eq]
    split <;> omega
  have hread := ofScientific_eq_double n.significand (decide (n.exponent < 0)) n.exponent.natAbs
  rw [hexponent] at hread
  unfold value
  rw [hread]
  rfl

/-- Numerals that denote the same number have the same value. -/
theorem value_congr {n n' : Numeral} (hsign : n.negative = n'.negative)
    (h : n.magnitude = n'.magnitude) : n.value = n'.value := by
  rw [value_eq, value_eq, hsign, h]

/-- A numeral that denotes a double has it as its value. -/
theorem value_of_ofFloat {x : Float} {n : Numeral} {m : ℕ} {e : ℤ}
    (hx : BinaryForm.ofFloat x = .finite n.negative m e) (h : n.magnitude = m * 2 ^ e) :
    n.value = x := by
  rw [value_eq, h]
  exact (eq_double hx).symm

end Numeral

end ScopedLisp
