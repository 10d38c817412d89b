import Mathlib.Algebra.Order.Field.Power
import Mathlib.Data.List.TakeWhile
import Mathlib.Data.Rat.Cast.Order
import Mathlib.Tactic.LinearCombination
import Mathlib.Tactic.NormNum
import Mathlib.Tactic.Ring
import ScopedLisp.Numeral.Layout

namespace ScopedLisp

namespace Numeral

/-- The number that a numeral denotes, without its sign. -/
def magnitude (n : Numeral) : ℚ := n.significand * 10 ^ n.exponent

theorem ofDigits_append (as bs : List Char) :
    ofDigits (as ++ bs) = 10 ^ bs.length * ofDigits as + ofDigits bs := by
  have hrest : Nat.ofDigitChars 10 (as ++ bs) 0 = Nat.ofDigitChars 10 bs (ofDigits as) :=
    Nat.ofDigitChars_append 0
  exact hrest.trans Nat.ofDigitChars_eq_ofDigitChars_zero

theorem ofDigits_zeros (n : ℕ) : ofDigits (Layout.zeros n) = 0 := by
  have h : Nat.ofDigitChars 10 (List.replicate n '0') 0 = 10 ^ n * 0 :=
    Nat.ofDigitChars_replicate_zero
  rwa [Nat.mul_zero] at h

theorem ofDigits_zeros_append (n : ℕ) (cs : List Char) :
    ofDigits (Layout.zeros n ++ cs) = ofDigits cs := by
  rw [ofDigits_append, ofDigits_zeros, Nat.mul_zero, Nat.zero_add]

theorem ofDigits_append_zeros (cs : List Char) (n : ℕ) :
    ofDigits (cs ++ Layout.zeros n) = 10 ^ n * ofDigits cs := by
  rw [ofDigits_append, ofDigits_zeros, Layout.zeros, List.length_replicate, Nat.add_zero]

theorem ofDigits_toDigits (n : ℕ) : ofDigits (Nat.toDigits 10 n) = n :=
  Nat.ofDigitChars_ten_toDigits

theorem takeWhile_dropWhile_digits {whole rest : List Char} (hwhole : ∀ c ∈ whole, c.isDigit)
    (hrest : ∀ c ∈ rest.head?, c.isDigit = false) :
    (whole ++ rest).takeWhile Char.isDigit = whole ∧
      (whole ++ rest).dropWhile Char.isDigit = rest := by
  rw [List.takeWhile_append_of_pos hwhole, List.dropWhile_append_of_pos hwhole]
  cases rest with
  | nil => simp
  | cons c cs => simp [hrest c rfl]

/-- An exponent part, or nothing: neither more digits nor a point. -/
def EndsMantissa (cs : List Char) : Prop := ∀ c ∈ cs.head?, c.isDigit = false ∧ c ≠ '.'

theorem endsMantissa_nil : EndsMantissa [] := by rintro c ⟨⟩

section Parts

variable {whole fraction rest : List Char} {exponent : ℤ}

theorem unsigned?_whole (negative : Bool) (hne : whole ≠ []) (hwhole : ∀ c ∈ whole, c.isDigit)
    (hrest : EndsMantissa rest) (hexponent : exponentPart? rest = some exponent) :
    unsigned? negative (whole ++ rest) = some ⟨negative, ofDigits whole, exponent⟩ := by
  obtain ⟨htake, hdrop⟩ := takeWhile_dropWhile_digits hwhole fun c hc => (hrest c hc).1
  have hfraction : fractionPart rest = ([], rest) := by
    unfold fractionPart
    split
    · exact absurd rfl (hrest '.' rfl).2
    · rfl
  simp [unsigned?, htake, hdrop, hfraction, hexponent, hne]

theorem unsigned?_point (negative : Bool) (hne : whole ≠ []) (hwhole : ∀ c ∈ whole, c.isDigit)
    (hfraction : ∀ c ∈ fraction, c.isDigit) (hrest : EndsMantissa rest)
    (hexponent : exponentPart? rest = some exponent) :
    unsigned? negative (whole ++ '.' :: (fraction ++ rest)) =
      some ⟨negative, ofDigits (whole ++ fraction), exponent - fraction.length⟩ := by
  have hpoint : ∀ c ∈ ('.' :: (fraction ++ rest)).head?, c.isDigit = false := by
    rintro c ⟨⟩
    rfl
  obtain ⟨htake, hdrop⟩ := takeWhile_dropWhile_digits hwhole hpoint
  obtain ⟨htake', hdrop'⟩ := takeWhile_dropWhile_digits hfraction fun c hc => (hrest c hc).1
  simp [unsigned?, htake, hdrop, fractionPart, htake', hdrop', hexponent, hne]

end Parts

end Numeral

namespace Digits

structure IsProper (d : Digits) : Prop where
  ne_nil : d.digits ≠ []
  isDigit : ∀ c ∈ d.digits, c.isDigit

def magnitude (d : Digits) : ℚ :=
  Numeral.ofDigits d.digits * 10 ^ (d.exponent + 1 - d.digits.length)

theorem exists_eq_trim_append (cs : List Char) : ∃ k, cs = trim cs ++ Layout.zeros k := by
  have hsplit := List.takeWhile_append_dropWhile (p := (· == '0')) (l := cs.reverse)
  have hzeros : cs.reverse.takeWhile (· == '0') =
      Layout.zeros (cs.reverse.takeWhile (· == '0')).length :=
    List.eq_replicate_of_mem fun c hc => by simpa using List.mem_takeWhile_imp hc
  refine ⟨(cs.reverse.takeWhile (· == '0')).length, ?_⟩
  rw [← List.reverse_inj, List.reverse_append, trim, List.reverse_reverse, Layout.zeros,
    List.reverse_replicate, ← Layout.zeros, ← hzeros, hsplit]

theorem exists_toDigits_eq_trim_append (n : ℕ) : ∃ k,
    Nat.toDigits 10 n = trim (Nat.toDigits 10 n) ++ Layout.zeros k ∧
      n = 10 ^ k * Numeral.ofDigits (trim (Nat.toDigits 10 n)) := by
  obtain ⟨k, hk⟩ := exists_eq_trim_append (Nat.toDigits 10 n)
  refine ⟨k, hk, ?_⟩
  rw [← Numeral.ofDigits_append_zeros, ← hk, Numeral.ofDigits_toDigits]

/-- Zeros at the end are not missed. -/
theorem magnitude_ofNat (n : ℕ) (place : ℤ) : (ofNat n place).magnitude = n * 10 ^ place := by
  obtain ⟨k, hk, hvalue⟩ := exists_toDigits_eq_trim_append n
  have hexponent : (place + (Nat.toDigits 10 n).length - 1 + 1 -
      (trim (Nat.toDigits 10 n)).length : ℤ) = place + k := by
    have hlength := congrArg List.length hk
    simp only [Layout.zeros, List.length_append, List.length_replicate] at hlength
    omega
  have hvalue' : (n : ℚ) = 10 ^ k * Numeral.ofDigits (trim (Nat.toDigits 10 n)) := by
    exact_mod_cast hvalue
  unfold magnitude ofNat
  dsimp only
  rw [hexponent, zpow_add₀ (by norm_num), zpow_natCast]
  linear_combination (-(10 : ℚ) ^ place) * hvalue'

theorem isProper_ofNat {n : ℕ} (hn : 0 < n) (place : ℤ) : (ofNat n place).IsProper := by
  obtain ⟨k, hk, hvalue⟩ := exists_toDigits_eq_trim_append n
  constructor
  · intro hnil
    have hempty : trim (Nat.toDigits 10 n) = [] := hnil
    have hzero : Numeral.ofDigits [] = 0 := rfl
    rw [hempty, hzero, Nat.mul_zero] at hvalue
    omega
  · intro c hc
    have hmem : c ∈ Nat.toDigits 10 n := by
      rw [hk]
      exact List.mem_append_left _ hc
    exact Nat.isDigit_of_mem_toDigits (by decide) (by decide) hmem

end Digits

namespace Layout

open Numeral

variable {d : Digits}

theorem isDigit_of_mem_zeros {n : ℕ} : ∀ c ∈ zeros n, c.isDigit := by
  intro c hc
  rw [List.eq_of_mem_replicate hc]
  rfl

/-- The text `cs` is a numeral of the magnitude `q` in front of which a sign may stand. -/
def Denotes (cs : List Char) (q : ℚ) : Prop :=
  ∀ negative, ∃ n, unsigned? negative cs = some n ∧ n.negative = negative ∧ n.magnitude = q

theorem denotes_whole {cs : List Char} (hne : cs ≠ []) (hdigits : ∀ c ∈ cs, c.isDigit) :
    Denotes cs (ofDigits cs) := by
  intro negative
  have hread := unsigned?_whole negative hne hdigits endsMantissa_nil rfl
  rw [List.append_nil] at hread
  refine ⟨_, hread, rfl, ?_⟩
  rw [magnitude, zpow_zero, mul_one]

theorem denotes_point {whole fraction : List Char} (hne : whole ≠ [])
    (hwhole : ∀ c ∈ whole, c.isDigit) (hfraction : ∀ c ∈ fraction, c.isDigit) :
    Denotes (whole ++ '.' :: fraction)
      (ofDigits (whole ++ fraction) * 10 ^ (-fraction.length : ℤ)) := by
  intro negative
  have hread := unsigned?_point negative hne hwhole hfraction endsMantissa_nil rfl
  rw [List.append_nil] at hread
  refine ⟨_, hread, rfl, ?_⟩
  rw [magnitude, zero_sub]

/-- A number below one: zeros come first, of which one stands before the point. -/
theorem denotes_leadingZeros (hd : d.IsProper) (hexponent : d.exponent < 0) :
    Denotes ('0' :: '.' :: zeros (-d.exponent - 1).toNat ++ d.digits) d.magnitude := by
  have hzero : ∀ c ∈ ['0'], c.isDigit := isDigit_of_mem_zeros (n := 1)
  have hfraction : ∀ c ∈ zeros (-d.exponent - 1).toNat ++ d.digits, c.isDigit := fun c hc =>
    (List.mem_append.1 hc).elim (isDigit_of_mem_zeros c) (hd.isDigit c)
  have h := denotes_point (List.cons_ne_nil '0' []) hzero hfraction
  have hvalue : ofDigits (['0'] ++ (zeros (-d.exponent - 1).toNat ++ d.digits)) =
      ofDigits d.digits := by
    rw [show ['0'] = zeros 1 from rfl, ofDigits_zeros_append, ofDigits_zeros_append]
  have hplaces : (-(zeros (-d.exponent - 1).toNat ++ d.digits).length : ℤ) =
      d.exponent + 1 - d.digits.length := by
    simp only [zeros, List.length_append, List.length_replicate]
    omega
  rw [hvalue, hplaces] at h
  exact h

/-- The point stands among the digits. -/
theorem denotes_split {k : ℕ} (hd : d.IsProper) (hk : d.exponent = k)
    (hlong : k + 1 < d.digits.length) :
    Denotes (d.digits.take (k + 1) ++ '.' :: d.digits.drop (k + 1)) d.magnitude := by
  have hne : d.digits.take (k + 1) ≠ [] := by simp [hd.ne_nil]
  have hwhole : ∀ c ∈ d.digits.take (k + 1), c.isDigit := fun c hc =>
    hd.isDigit c (List.mem_of_mem_take hc)
  have hfraction : ∀ c ∈ d.digits.drop (k + 1), c.isDigit := fun c hc =>
    hd.isDigit c (List.mem_of_mem_drop hc)
  have h := denotes_point hne hwhole hfraction
  have hplaces : (-(d.digits.drop (k + 1)).length : ℤ) = d.exponent + 1 - d.digits.length := by
    rw [List.length_drop, hk]
    omega
  rw [List.take_append_drop, hplaces] at h
  exact h

/-- An integer: zeros fill the places after the digits. -/
theorem ofDigits_filled {k : ℕ} (hk : d.exponent = k) (hshort : d.digits.length ≤ k + 1) :
    (ofDigits (d.digits ++ zeros (k + 1 - d.digits.length)) : ℚ) = d.magnitude := by
  have hplaces : d.exponent + 1 - d.digits.length = (k + 1 - d.digits.length : ℕ) := by omega
  rw [ofDigits_append_zeros, Digits.magnitude, hplaces, zpow_natCast]
  push_cast
  ring

theorem denotes_positional (l : Layout) (hd : d.IsProper) :
    Denotes (l.positional d) d.magnitude := by
  unfold positional
  split
  · next hexponent => exact denotes_leadingZeros hd hexponent
  next hexponent =>
  obtain ⟨k, hk⟩ : ∃ k : ℕ, d.exponent = k := ⟨d.exponent.toNat, by omega⟩
  simp only [hk, Int.toNat_natCast]
  split
  · next hpoint =>
    have hlong : k + 1 < d.digits.length := by simpa using hpoint
    have hfull : zeros (k + 1 - d.digits.length) = [] := by
      rw [Nat.sub_eq_zero_of_le hlong.le]
      rfl
    rw [hfull, List.append_nil]
    exact denotes_split hd hk hlong
  next hpoint =>
  have hshort : d.digits.length ≤ k + 1 := by simpa using hpoint
  rw [List.take_of_length_le hshort, ← ofDigits_filled hk hshort]
  have hne : d.digits ++ zeros (k + 1 - d.digits.length) ≠ [] := by simp [hd.ne_nil]
  have hdigits : ∀ c ∈ d.digits ++ zeros (k + 1 - d.digits.length), c.isDigit := fun c hc =>
    (List.mem_append.1 hc).elim (hd.isDigit c) (isDigit_of_mem_zeros c)
  split
  · have h := denotes_point hne hdigits (isDigit_of_mem_zeros (n := 1))
    have hvalue := ofDigits_append_zeros (d.digits ++ zeros (k + 1 - d.digits.length)) 1
    have hplace : (10 : ℚ) ^ (-(zeros 1).length : ℤ) = 10⁻¹ := zpow_neg_one 10
    rw [hvalue, hplace, Nat.cast_mul, pow_one, Nat.cast_ofNat, mul_comm (10 : ℚ),
      mul_inv_cancel_right₀ (by norm_num)] at h
    exact h
  · exact denotes_whole hne hdigits

theorem natural?_zeros_append (k n : ℕ) :
    natural? (zeros k ++ Nat.toDigits 10 n) = some n := by
  have hdigits : (zeros k ++ Nat.toDigits 10 n).all Char.isDigit := by
    rw [List.all_eq_true]
    intro c hc
    exact (List.mem_append.1 hc).elim (isDigit_of_mem_zeros c)
      (Nat.isDigit_of_mem_toDigits (by decide) (by decide))
  have hne : (zeros k ++ Nat.toDigits 10 n).isEmpty = false := by
    simp [Nat.toDigits_ne_nil]
  rw [natural?, hdigits, hne, ofDigits_zeros_append, ofDigits_toDigits]
  rfl

theorem exponentPart?_exponentPart (l : Layout) (e : ℤ) :
    exponentPart? (l.exponentPart e) = some e := by
  have hread := natural?_zeros_append (l.exponentWidth - (Nat.toDigits 10 e.natAbs).length) e.natAbs
  unfold Layout.exponentPart
  simp only [List.cons_append, List.append_assoc]
  generalize zeros (l.exponentWidth - (Nat.toDigits 10 e.natAbs).length) ++
    Nat.toDigits 10 e.natAbs = cs at hread
  by_cases he : e < 0
  · have habs : -(e.natAbs : ℤ) = e := by omega
    rw [if_pos he]
    change ((natural? cs >>= fun n => pure (n : ℤ)).map fun n : ℤ => -n) = some e
    rw [hread]
    exact congrArg some habs
  have habs : (e.natAbs : ℤ) = e := by omega
  have hmap : (natural? cs).map Int.ofNat = some e := by
    rw [hread]
    exact congrArg some habs
  rw [if_neg he]
  split
  · exact hmap
  · -- Without a sign the digits are not taken for one.
    have hdigits : cs.all Char.isDigit := by
      unfold natural? at hread
      split at hread <;> simp_all
    match cs with
    | [] => cases hread
    | '-' :: _ => simp at hdigits
    | '+' :: _ => simp at hdigits
    | c :: cs =>
      change exponentPart? ('e' :: c :: cs) = _
      unfold exponentPart?
      split <;> simp_all

theorem endsMantissa_exponentPart (l : Layout) (e : ℤ) : EndsMantissa (l.exponentPart e) := by
  intro c hc
  cases hc
  exact ⟨rfl, by decide⟩

theorem denotes_scientific (l : Layout) (hd : d.IsProper) :
    Denotes (l.scientific d) d.magnitude := by
  intro negative
  have hends := endsMantissa_exponentPart l d.exponent
  have hexponent := exponentPart?_exponentPart l d.exponent
  obtain ⟨digits, e⟩ := d
  obtain ⟨hne, hdigits⟩ := hd
  match digits with
  | [] => exact absurd rfl hne
  | [c] =>
    refine ⟨_, unsigned?_whole negative hne hdigits hends hexponent, rfl, ?_⟩
    simp [magnitude, Digits.magnitude]
  | first :: c :: more =>
    have hfirst : ∀ c ∈ [first], c.isDigit := by
      intro c hc
      exact hdigits c (by simp_all)
    have hmore : ∀ c' ∈ c :: more, c'.isDigit := fun c' hc' => hdigits c' (.tail _ hc')
    refine ⟨_, unsigned?_point negative (List.cons_ne_nil first []) hfirst hmore hends hexponent,
      rfl, ?_⟩
    unfold magnitude Digits.magnitude
    dsimp only [List.singleton_append, List.length_cons]
    congr 2
    push_cast
    ring

theorem denotes_toDigits (k : ℕ) : Denotes (Nat.toDigits 10 k) k := by
  have hdigits : ∀ c ∈ Nat.toDigits 10 k, c.isDigit := fun c hc =>
    Nat.isDigit_of_mem_toDigits (by decide) (by decide) hc
  have h := denotes_whole Nat.toDigits_ne_nil hdigits
  rwa [ofDigits_toDigits] at h

theorem denotes_shortest (l : Layout) (hd : d.IsProper) : Denotes (l.shortest d) d.magnitude := by
  unfold shortest
  split
  · exact denotes_positional l hd
  · exact denotes_scientific l hd

theorem Denotes.ofChars? {cs : List Char} {q : ℚ} (h : Denotes cs q) (negative : Bool) :
    ∃ n, Numeral.ofChars? (signed negative cs) = some n ∧ n.negative = negative ∧
      n.magnitude = q := by
  obtain ⟨n, hread, hn⟩ := h negative
  refine ⟨n, ?_, hn⟩
  cases negative with
  | true => exact hread
  | false =>
    change Numeral.ofChars? cs = _
    unfold Numeral.ofChars?
    split
    · simp [unsigned?] at hread
    · exact hread

end Layout

end ScopedLisp
