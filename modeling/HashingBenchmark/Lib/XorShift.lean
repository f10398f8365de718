import Mathlib.Data.Nat.Bitwise
import Mathlib.Data.Nat.ModEq

/-! `v ^ (v >> s)`, in numbers of more than `w` bits and in their low `w` bits.

    The shift brings `s` bits from above bit `w` down into the low `w` bits (`xorShift_mod`). Behind
    such a step the low bits are those of the low bits alone exactly if these `s` bits are zero, and,
    followed by a multiplication with an odd number and a second step, exactly if both times they are
    zero: what the first step brings down changes bits that the second one cannot repair
    (`eq_of_xorShift`). -/

namespace XorShift

/-- `v ^= v >> s`. -/
def xorShift (s v : ℕ) : ℕ := v ^^^ v >>> s

/-- The bits above bit `w` that a shift by `s` brings down, where they arrive. -/
def carried (w s v : ℕ) : ℕ := (v / 2 ^ w % 2 ^ s) <<< (w - s)

theorem xorShift_lt {w v : ℕ} (s : ℕ) (hv : v < 2 ^ w) : xorShift s v < 2 ^ w :=
  Nat.xor_lt_two_pow hv (lt_of_le_of_lt (Nat.shiftRight_le v s) hv)

theorem testBit_xorShift (s v i : ℕ) :
    (xorShift s v).testBit i = (v.testBit i ^^ v.testBit (s + i)) := by
  rw [xorShift, Nat.testBit_xor, Nat.testBit_shiftRight]

theorem testBit_carried {w s : ℕ} (hs : s ≤ w) (v : ℕ) {i : ℕ} (hi : i < w) :
    (carried w s v).testBit i = (decide (w - s ≤ i) && v.testBit (s + i)) := by
  rw [carried, Nat.testBit_shiftLeft, Nat.testBit_mod_two_pow, Nat.testBit_div_two_pow]
  by_cases hle : w - s ≤ i
  · have hlt : i - (w - s) < s := by omega
    have hpos : i - (w - s) + w = s + i := by omega
    simp [hle, hlt, hpos]
  · simp [hle]

theorem carried_lt {w s : ℕ} (hs : s ≤ w) (v : ℕ) : carried w s v < 2 ^ w := by
  have hmod : v / 2 ^ w % 2 ^ s < 2 ^ s := Nat.mod_lt _ (Nat.two_pow_pos s)
  have hpow : 2 ^ s * 2 ^ (w - s) = 2 ^ w := by rw [← pow_add, Nat.add_sub_cancel' hs]
  calc carried w s v = v / 2 ^ w % 2 ^ s * 2 ^ (w - s) := Nat.shiftLeft_eq _ _
    _ < 2 ^ s * 2 ^ (w - s) := Nat.mul_lt_mul_of_pos_right hmod (Nat.two_pow_pos _)
    _ = 2 ^ w := hpow

theorem carried_eq_zero_iff (w s v : ℕ) : carried w s v = 0 ↔ v / 2 ^ w % 2 ^ s = 0 := by
  rw [carried, Nat.shiftLeft_eq, Nat.mul_eq_zero]
  have hpow : 2 ^ (w - s) ≠ 0 := (Nat.two_pow_pos _).ne'
  exact or_iff_left hpow

/-- The low bits of a step: a step on the low bits, and what is brought down. -/
theorem xorShift_mod {w s : ℕ} (hs : s ≤ w) (v : ℕ) :
    xorShift s v % 2 ^ w = xorShift s (v % 2 ^ w) ^^^ carried w s v := by
  refine Nat.eq_of_testBit_eq fun i => ?_
  rw [Nat.testBit_mod_two_pow, Nat.testBit_xor]
  by_cases hi : i < w
  · rw [testBit_carried hs v hi, testBit_xorShift, testBit_xorShift, Nat.testBit_mod_two_pow,
      Nat.testBit_mod_two_pow]
    by_cases hle : w - s ≤ i
    · have hout : ¬ s + i < w := by omega
      simp [hi, hle, hout]
    · have hin : s + i < w := by omega
      simp [hi, hle, hin]
  · have hle : w ≤ i := Nat.not_lt.mp hi
    have hpow : 2 ^ w ≤ 2 ^ i := Nat.pow_le_pow_right Nat.two_pos hle
    have hlow := xorShift_lt s (Nat.mod_lt v (Nat.two_pow_pos w))
    have hcarried := carried_lt hs v
    rw [Nat.testBit_lt_two_pow (hlow.trans_le hpow), Nat.testBit_lt_two_pow (hcarried.trans_le hpow)]
    simp [hi]

/-- Numbers with the same low `s` bits that a step and something above bit `w - s` make equal. -/
theorem eq_of_xorShift {w s : ℕ} (hs : s ≤ w) (hw : w ≤ 2 * s) {n m : ℕ} (hn : n < 2 ^ w)
    (hm : m < 2 ^ w) (hlow : n % 2 ^ s = m % 2 ^ s) {v : ℕ}
    (h : xorShift s n ^^^ carried w s v = xorShift s m) : n = m := by
  refine Nat.eq_of_testBit_eq fun i => ?_
  have hbit : ∀ j < s, n.testBit j = m.testBit j := by
    intro j hj
    have hmod := congrArg (fun x => x.testBit j) hlow
    simpa [Nat.testBit_mod_two_pow, hj] using hmod
  by_cases hi : i < s
  · exact hbit i hi
  · by_cases hiw : i < w
    · -- Bit `i` arrives at bit `i - s`, where nothing is brought down.
      have hj : i - s < s := by omega
      have hnone : ¬ w - s ≤ i - s := by omega
      have hpos : s + (i - s) = i := by omega
      have hstep := congrArg (fun x => x.testBit (i - s)) h
      simp only [Nat.testBit_xor] at hstep
      rw [testBit_carried hs v (by omega), testBit_xorShift, testBit_xorShift, hpos, hbit _ hj] at hstep
      simpa [hnone] using hstep
    · have hpow : 2 ^ w ≤ 2 ^ i := Nat.pow_le_pow_right Nat.two_pos (Nat.not_lt.mp hiw)
      rw [Nat.testBit_lt_two_pow (hn.trans_le hpow), Nat.testBit_lt_two_pow (hm.trans_le hpow)]

/-- CORRECT: a step by `s`, a multiplication by an odd number and a step by `s'` give the same low `w`
    bits as on the low `w` bits alone exactly if both steps bring down zeros. -/
theorem xorShift_mul_xorShift_iff {w s s' : ℕ} (hs : s ≤ w) (hs' : s' ≤ w) (hw : w ≤ 2 * s')
    (hss : s' ≤ w - s) {c : ℕ} (hc : Nat.Coprime (2 ^ w) c) (v : ℕ) :
    xorShift s' (xorShift s v * c) % 2 ^ w = xorShift s' (xorShift s (v % 2 ^ w) * c % 2 ^ w) ↔
      v / 2 ^ w % 2 ^ s = 0 ∧ xorShift s v * c / 2 ^ w % 2 ^ s' = 0 := by
  have hv := xorShift_mod hs v
  have hlowX := xorShift_lt s (Nat.mod_lt v (Nat.two_pow_pos w))
  have hmul : xorShift s v * c % 2 ^ w
      = (xorShift s (v % 2 ^ w) ^^^ carried w s v) * c % 2 ^ w := by
    rw [← hv, Nat.mod_mul_mod]
  rw [xorShift_mod hs', ← carried_eq_zero_iff, ← carried_eq_zero_iff, hmul]
  constructor
  · intro h
    have hX : (xorShift s (v % 2 ^ w) ^^^ carried w s v) % 2 ^ s'
        = xorShift s (v % 2 ^ w) % 2 ^ s' := by
      have hzero : carried w s v % 2 ^ s' = 0 := by
        rw [carried, Nat.shiftLeft_eq, ← Nat.add_sub_cancel' hss, pow_add, ← mul_assoc,
          mul_right_comm]
        exact Nat.mul_mod_left _ _
      rw [Nat.xor_mod_two_pow, hzero, Nat.xor_zero]
    have hlow : (xorShift s (v % 2 ^ w) ^^^ carried w s v) * c % 2 ^ w % 2 ^ s'
        = xorShift s (v % 2 ^ w) * c % 2 ^ w % 2 ^ s' := by
      have hdvd : 2 ^ s' ∣ 2 ^ w := Nat.pow_dvd_pow 2 hs'
      rw [Nat.mod_mod_of_dvd _ hdvd, Nat.mod_mod_of_dvd _ hdvd, Nat.mul_mod, hX, ← Nat.mul_mod]
    have heq := eq_of_xorShift hs' hw (Nat.mod_lt _ (Nat.two_pow_pos w))
      (Nat.mod_lt _ (Nat.two_pow_pos w)) hlow h
    have hcancel := Nat.ModEq.cancel_right_of_coprime hc heq
    have hfirst : carried w s v = 0 := by
      rw [Nat.ModEq, Nat.mod_eq_of_lt hlowX,
        Nat.mod_eq_of_lt (Nat.xor_lt_two_pow hlowX (carried_lt hs v))] at hcancel
      exact Nat.xor_right_injective (hcancel.trans (Nat.xor_zero _).symm)
    refine ⟨hfirst, ?_⟩
    rw [heq] at h
    exact Nat.xor_right_injective (h.trans (Nat.xor_zero _).symm)
  · rintro ⟨hfirst, hsecond⟩
    rw [hfirst, hsecond, Nat.xor_zero, Nat.xor_zero]

end XorShift
