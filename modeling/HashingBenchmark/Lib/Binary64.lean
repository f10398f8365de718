import Mathlib.Algebra.Order.Floor.Semiring
import Mathlib.Data.Int.Log
import Mathlib.Data.Rat.Floor
import Mathlib.Tactic.FieldSimp
import Mathlib.Tactic.Linarith

/-! Binary64 arithmetic on non-negative values, as exact rationals rounded after each operation.

    `round` is round-to-nearest, ties to even, to 53 significant bits. Overflow and subnormals do
    not occur for the values it is used on: naturals below 2^64, and their products and quotients
    with constants of ordinary size. Rounding at most doubles a value (`round_le_two_mul`), so a
    scaled-down index stays below the index it came from; it keeps the order of values (`round_mono`)
    and leaves a value with 53 significant bits alone (`round_mul_zpow`). -/

namespace Binary64

/-- The nearest integer, ties to even. -/
def nearestEven (x : ℚ) : ℤ :=
  if x - ⌊x⌋ < 1 / 2 then ⌊x⌋
  else if 1 / 2 < x - ⌊x⌋ then ⌊x⌋ + 1
  else if ⌊x⌋ % 2 = 0 then ⌊x⌋ else ⌊x⌋ + 1

/-- The distance of two neighbouring values with 53 significant bits around `x`. -/
def ulp (x : ℚ) : ℚ := 2 ^ (Int.log 2 x - 52)

/-- The binary64 value nearest to a non-negative `x`. -/
def round (x : ℚ) : ℚ := if x ≤ 0 then 0 else nearestEven (x / ulp x) * ulp x

/-- Conversion of an unsigned integer. -/
def ofNat (n : ℕ) : ℚ := round n

def mul (x y : ℚ) : ℚ := round (x * y)

def div (x y : ℚ) : ℚ := round (x / y)

/-- Conversion to an unsigned integer truncates. -/
def toNat (x : ℚ) : ℕ := ⌊x⌋₊

@[simp] theorem round_zero : round 0 = 0 := by simp [round]

theorem nearestEven_le (x : ℚ) : (nearestEven x : ℚ) ≤ x + 1 / 2 := by
  have hfloor : (⌊x⌋ : ℚ) ≤ x := Int.floor_le x
  rw [nearestEven]
  split_ifs <;> push_cast <;> linarith

theorem ulp_pos (x : ℚ) : 0 < ulp x := zpow_pos (by norm_num) _

theorem ulp_le {x : ℚ} (hx : 0 < x) : ulp x ≤ x := by
  have hlog : (2 : ℚ) ^ Int.log 2 x ≤ x := by
    simpa using Int.zpow_log_le_self (b := 2) (by norm_num) hx
  refine le_trans ?_ hlog
  exact zpow_le_zpow_right₀ (by norm_num) (by omega)

theorem round_le_two_mul {x : ℚ} (hx : 0 ≤ x) : round x ≤ 2 * x := by
  rcases hx.eq_or_lt with rfl | hpos
  · simp
  · rw [round, if_neg (not_le.mpr hpos)]
    have hu := ulp_pos x
    calc (nearestEven (x / ulp x) : ℚ) * ulp x
        ≤ (x / ulp x + 1 / 2) * ulp x := mul_le_mul_of_nonneg_right (nearestEven_le _) hu.le
      _ = x + ulp x / 2 := by field_simp
      _ ≤ 2 * x := by linarith [ulp_le hpos]

theorem round_nonneg (x : ℚ) : 0 ≤ round x := by
  rw [round]
  split_ifs with hx
  · exact le_rfl
  · have hq : 0 ≤ x / ulp x := div_nonneg (not_le.mp hx).le (ulp_pos x).le
    have hfloor : 0 ≤ ⌊x / ulp x⌋ := Int.floor_nonneg.mpr hq
    have hn : 0 ≤ nearestEven (x / ulp x) := by
      rw [nearestEven]; split_ifs <;> omega
    exact mul_nonneg (by exact_mod_cast hn) (ulp_pos x).le

/-- A natural divided by at least 4, in binary64: no more than the natural, and less unless it
    is 0. -/
theorem toNat_div_ofNat_lt {n : ℕ} {c : ℚ} (hc : 4 < c) (hn : 0 < n) :
    toNat (div (ofNat n) c) < n := by
  have hn' : (0 : ℚ) < n := by exact_mod_cast hn
  have hofNat : ofNat n ≤ 2 * n := round_le_two_mul hn'.le
  have hdiv : div (ofNat n) c ≤ 2 * (ofNat n / c) :=
    round_le_two_mul (div_nonneg (round_nonneg _) (by linarith))
  have hlt : div (ofNat n) c < n := by
    refine lt_of_le_of_lt hdiv ?_
    rw [← mul_div_assoc, div_lt_iff₀ (by linarith)]
    nlinarith
  exact (Nat.floor_lt (round_nonneg _)).mpr hlt

@[simp] theorem toNat_div_ofNat_zero (c : ℚ) : toNat (div (ofNat 0) c) = 0 := by
  simp [toNat, div, ofNat]

/-! ### Order -/

@[simp] theorem nearestEven_intCast (k : ℤ) : nearestEven k = k := by
  simp [nearestEven]

theorem floor_le_nearestEven (x : ℚ) : ⌊x⌋ ≤ nearestEven x := by
  rw [nearestEven]
  split_ifs <;> omega

theorem nearestEven_le_floor_add_one (x : ℚ) : nearestEven x ≤ ⌊x⌋ + 1 := by
  rw [nearestEven]
  split_ifs <;> omega

theorem nearestEven_mono {x y : ℚ} (h : x ≤ y) : nearestEven x ≤ nearestEven y := by
  rcases (Int.floor_mono h).eq_or_lt with hfloor | hfloor
  · rw [nearestEven, nearestEven, hfloor]
    split_ifs <;> first | omega | linarith
  · have := nearestEven_le_floor_add_one x
    have := floor_le_nearestEven y
    omega

theorem pow_mul_ulp (x : ℚ) (e : ℕ) : (2 : ℚ) ^ e * ulp x = 2 ^ (Int.log 2 x - 52 + e) := by
  rw [zpow_add₀ (by norm_num), mul_comm, zpow_natCast]; rfl

/-- The significand of a positive value, before rounding. -/
theorem div_ulp_mem {x : ℚ} (hx : 0 < x) : 2 ^ 52 ≤ x / ulp x ∧ x / ulp x < 2 ^ 53 := by
  rw [le_div_iff₀ (ulp_pos x), div_lt_iff₀ (ulp_pos x), pow_mul_ulp, pow_mul_ulp]
  constructor
  · have hlow := Int.zpow_log_le_self (b := 2) (by norm_num) hx
    simpa using hlow
  · have hhigh := Int.lt_zpow_succ_log_self (b := 2) (by norm_num) x
    have hexp : Int.log 2 x - 52 + (53 : ℕ) = Int.log 2 x + 1 := by push_cast; ring
    rw [hexp]
    exact_mod_cast hhigh

/-- The significand of a positive value. -/
theorem significand_mem {x : ℚ} (hx : 0 < x) :
    2 ^ 52 ≤ nearestEven (x / ulp x) ∧ nearestEven (x / ulp x) ≤ 2 ^ 53 := by
  obtain ⟨hlow, hhigh⟩ := div_ulp_mem hx
  constructor
  · have h := nearestEven_mono (x := ((2 ^ 52 : ℤ) : ℚ)) (by exact_mod_cast hlow)
    rwa [nearestEven_intCast] at h
  · have h := nearestEven_mono (y := ((2 ^ 53 : ℤ) : ℚ)) (by exact_mod_cast hhigh.le)
    rwa [nearestEven_intCast] at h

theorem round_of_pos {x : ℚ} (hx : 0 < x) : round x = nearestEven (x / ulp x) * ulp x := by
  rw [round, if_neg (not_le.mpr hx)]

/-- A rounded value lies between the powers of two around it. -/
theorem round_mem {x : ℚ} (hx : 0 < x) :
    (2 : ℚ) ^ Int.log 2 x ≤ round x ∧ round x ≤ (2 : ℚ) ^ (Int.log 2 x + 1) := by
  obtain ⟨hlow, hhigh⟩ := significand_mem hx
  have h52 : (2 : ℚ) ^ Int.log 2 x = 2 ^ 52 * ulp x := by
    rw [pow_mul_ulp]; congr 1; push_cast; ring
  have h53 : (2 : ℚ) ^ (Int.log 2 x + 1) = 2 ^ 53 * ulp x := by
    rw [pow_mul_ulp]; congr 1; push_cast; ring
  rw [round_of_pos hx, h52, h53]
  constructor
  · exact mul_le_mul_of_nonneg_right (by exact_mod_cast hlow) (ulp_pos x).le
  · exact mul_le_mul_of_nonneg_right (by exact_mod_cast hhigh) (ulp_pos x).le

/-- Rounding keeps the order: within a power of two because the nearest integer does, and across one
    because that power is a value itself. -/
theorem round_mono {x y : ℚ} (h : x ≤ y) : round x ≤ round y := by
  by_cases hx : x ≤ 0
  · rw [round, if_pos hx]; exact round_nonneg y
  · have hx' : 0 < x := not_le.mp hx
    have hy' : 0 < y := lt_of_lt_of_le hx' h
    rcases (Int.log_mono_right hx' h : Int.log 2 x ≤ Int.log 2 y).eq_or_lt with hlog | hlog
    · have hulp : ulp x = ulp y := by rw [ulp, ulp, hlog]
      rw [round_of_pos hx', round_of_pos hy', hulp]
      refine mul_le_mul_of_nonneg_right ?_ (ulp_pos y).le
      exact_mod_cast nearestEven_mono (div_le_div_of_nonneg_right h (ulp_pos y).le)
    · calc round x ≤ (2 : ℚ) ^ (Int.log 2 x + 1) := (round_mem hx').2
        _ ≤ (2 : ℚ) ^ Int.log 2 y := zpow_le_zpow_right₀ (by norm_num) (by omega)
        _ ≤ round y := (round_mem hy').1

/-- A value with at most 53 significant bits is its own rounding. -/
theorem round_mul_zpow {k e : ℤ} (hlow : 2 ^ 52 ≤ k) (hhigh : k < 2 ^ 53) :
    round (k * (2 : ℚ) ^ e) = k * (2 : ℚ) ^ e := by
  have hpow : (0 : ℚ) < 2 ^ e := zpow_pos (by norm_num) _
  have hk : (0 : ℚ) < k := by
    have : (0 : ℤ) < k := lt_of_lt_of_le (by norm_num) hlow
    exact_mod_cast this
  have hpos : 0 < k * (2 : ℚ) ^ e := mul_pos hk hpow
  have hlog : Int.log 2 (k * (2 : ℚ) ^ e) = e + 52 := by
    have hshift : ∀ j : ℤ, (2 : ℚ) ^ (e + j) = 2 ^ j * 2 ^ e := fun j => by
      rw [zpow_add₀ (by norm_num), mul_comm]
    refine le_antisymm (Int.lt_add_one_iff.mp ?_) ?_
    · rw [← Int.lt_zpow_iff_log_lt (by norm_num) hpos, Nat.cast_ofNat, add_assoc, hshift]
      refine mul_lt_mul_of_pos_right ?_ hpow
      exact_mod_cast hhigh
    · rw [← Int.zpow_le_iff_le_log (by norm_num) hpos, Nat.cast_ofNat, hshift]
      refine mul_le_mul_of_nonneg_right ?_ hpow.le
      exact_mod_cast hlow
  have hulp : ulp (k * (2 : ℚ) ^ e) = 2 ^ e := by rw [ulp, hlog]; congr 1; ring
  rw [round_of_pos hpos, hulp, mul_div_cancel_right₀ _ hpow.ne', nearestEven_intCast]

/-- Rounding twice is rounding once. -/
theorem round_round (x : ℚ) : round (round x) = round x := by
  by_cases hx : x ≤ 0
  · have hzero : round x = 0 := by rw [round, if_pos hx]
    rw [hzero, round_zero]
  · have hx' : 0 < x := not_le.mp hx
    obtain ⟨hlow, hhigh⟩ := significand_mem hx'
    rw [round_of_pos hx', ulp]
    rcases hhigh.lt_or_eq with hlt | heq
    · exact round_mul_zpow hlow hlt
    · -- rounded up to the next power of two
      have hnext : ((nearestEven (x / ulp x) : ℤ) : ℚ) * (2 : ℚ) ^ (Int.log 2 x - 52)
          = ((2 ^ 52 : ℤ) : ℚ) * (2 : ℚ) ^ (Int.log 2 x - 52 + 1) := by
        rw [heq, zpow_add₀ (by norm_num)]
        push_cast; ring
      rw [ulp] at hnext
      rw [hnext]
      exact round_mul_zpow (le_refl _) (by norm_num)

/-- A natural of at most 53 bits is a value. -/
theorem ofNat_eq {n : ℕ} (h : n < 2 ^ 53) : ofNat n = n := by
  rcases Nat.eq_zero_or_pos n with rfl | hpos
  · simp [ofNat]
  · have hn : n ≠ 0 := hpos.ne'
    have hlog : Nat.log 2 n ≤ 52 := Nat.lt_succ_iff.mp (Nat.log_lt_of_lt_pow hn h)
    -- the significand: the natural shifted up to 53 bits
    have hval : (n : ℚ) = ((n * 2 ^ (52 - Nat.log 2 n) : ℕ) : ℤ) * (2 : ℚ) ^ ((Nat.log 2 n : ℤ) - 52) := by
      have hexp : ((Nat.log 2 n : ℤ) - 52) = -((52 - Nat.log 2 n : ℕ) : ℤ) := by omega
      rw [hexp, zpow_neg, zpow_natCast]
      push_cast
      rw [mul_assoc, mul_inv_cancel₀ (pow_ne_zero _ (by norm_num)), mul_one]
    have hpow : 2 ^ Nat.log 2 n * 2 ^ (52 - Nat.log 2 n) = 2 ^ 52 := by
      rw [← pow_add]; congr 1; omega
    have hlow : 2 ^ 52 ≤ n * 2 ^ (52 - Nat.log 2 n) := by
      rw [← hpow]
      exact Nat.mul_le_mul_right _ (Nat.pow_log_le_self 2 hn)
    have hhigh : n * 2 ^ (52 - Nat.log 2 n) < 2 ^ 53 := by
      have hlt : n < 2 ^ Nat.log 2 n * 2 := by
        rw [← pow_succ]; exact Nat.lt_pow_succ_log_self (by norm_num) n
      calc n * 2 ^ (52 - Nat.log 2 n) < 2 ^ Nat.log 2 n * 2 * 2 ^ (52 - Nat.log 2 n) :=
            Nat.mul_lt_mul_of_pos_right hlt (by positivity)
        _ = 2 ^ 53 := by rw [mul_right_comm, hpow, ← pow_succ]
    rw [ofNat, hval]
    exact round_mul_zpow (by exact_mod_cast hlow) (by exact_mod_cast hhigh)

/-! ### The relative error -/

/-- Rounding adds at most half the distance of two neighbouring values. -/
theorem round_le_mul {x : ℚ} (hx : 0 ≤ x) : round x ≤ x * (1 + 1 / 2 ^ 53) := by
  rcases hx.eq_or_lt with rfl | hpos
  · simp
  · have hu := ulp_pos x
    have hulp : ulp x ≤ x / 2 ^ 52 := by
      rw [le_div_iff₀ (by positivity), mul_comm]
      exact (le_div_iff₀ hu).mp (div_ulp_mem hpos).1
    rw [round_of_pos hpos]
    calc (nearestEven (x / ulp x) : ℚ) * ulp x
        ≤ (x / ulp x + 1 / 2) * ulp x := mul_le_mul_of_nonneg_right (nearestEven_le _) hu.le
      _ = x + ulp x / 2 := by field_simp
      _ ≤ x + x / 2 ^ 52 / 2 := by linarith
      _ = x * (1 + 1 / 2 ^ 53) := by ring

/-- Two roundings do not bring a part of `n` up to `n`. -/
theorem part_lt {p b n : ℕ} (hp : p < b) (hb : b ≤ 2 ^ 51) (hn : 0 < n) :
    (p * n / b : ℚ) * (1 + 1 / 2 ^ 53) * (1 + 1 / 2 ^ 53) < n := by
  have hb' : (0 : ℚ) < b := by exact_mod_cast (show 0 < b by omega)
  have hn' : (0 : ℚ) < n := by exact_mod_cast hn
  have hp' : (p : ℚ) + 1 ≤ b := by exact_mod_cast hp
  have hbound : (b : ℚ) ≤ 2 ^ 51 := by exact_mod_cast hb
  have hsmall : (p : ℚ) * ((1 + 1 / 2 ^ 53) * (1 + 1 / 2 ^ 53)) < b := by
    have hp0 : (0 : ℚ) ≤ p := p.cast_nonneg
    nlinarith
  calc (p * n / b : ℚ) * (1 + 1 / 2 ^ 53) * (1 + 1 / 2 ^ 53)
      = (p : ℚ) * ((1 + 1 / 2 ^ 53) * (1 + 1 / 2 ^ 53)) * (n / b) := by ring
    _ < (b : ℚ) * (n / b) := mul_lt_mul_of_pos_right hsmall (div_pos hn' hb')
    _ = (n : ℚ) := by field_simp

end Binary64
