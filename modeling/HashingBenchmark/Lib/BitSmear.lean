import Mathlib.Data.Nat.Size
import Mathlib.Data.Nat.Bitwise

/-! Smearing the top bit of a number downwards: after `v |= v >> 1`, `v |= v >> 2`, `v |= v >> 4`, ...
    every bit below the top one is set.

    `Window k v w` says that bit `i` of `w` is set if one of the `k` bits of `v` from `i` on is. One
    more shift of at most `k` makes the window that much wider. -/

namespace BitSmear

/-- `v |= v >> k`. -/
def smear (k v : ℕ) : ℕ := v ||| v >>> k

/-- Bit `i` of `w` is the disjunction of the bits `i, …, i + k - 1` of `v`. -/
def Window (k v w : ℕ) : Prop := ∀ i, w.testBit i = true ↔ ∃ j < k, v.testBit (i + j) = true

theorem Window.one (v : ℕ) : Window 1 v v := by
  intro i
  constructor
  · intro h
    exact ⟨0, Nat.one_pos, h⟩
  · rintro ⟨j, hj, h⟩
    obtain rfl : j = 0 := by omega
    exact h

/-- A shift by `s ≤ k` widens the window by `s`. -/
theorem Window.smear {k v w : ℕ} (h : Window k v w) {s : ℕ} (hs : s ≤ k) :
    Window (k + s) v (smear s w) := by
  intro i
  rw [BitSmear.smear, Nat.testBit_or, Nat.testBit_shiftRight, Bool.or_eq_true, h i, h (s + i)]
  constructor
  · rintro (⟨j, hj, hbit⟩ | ⟨j, hj, hbit⟩)
    · exact ⟨j, by omega, hbit⟩
    · have hpos : i + (s + j) = s + i + j := by omega
      exact ⟨s + j, by omega, hpos ▸ hbit⟩
  · rintro ⟨j, hj, hbit⟩
    by_cases hjk : j < k
    · exact Or.inl ⟨j, hjk, hbit⟩
    · have hpos : i + j = s + i + (j - s) := by omega
      exact Or.inr ⟨j - s, by omega, hpos ▸ hbit⟩

/-- The top bit of a positive number. -/
theorem testBit_size_sub_one {v : ℕ} (hv : 0 < v.size) : v.testBit (v.size - 1) = true := by
  refine Nat.testBit_of_two_pow_le_and_two_pow_add_one_gt ?_ ?_
  · exact Nat.lt_size.mp (by omega)
  · have hsucc : v.size - 1 + 1 = v.size := by omega
    rw [hsucc]
    exact Nat.lt_size_self v

/-- With a window as wide as the number, all bits below the top one are set. -/
theorem Window.eq_two_pow_sub_one {k v w : ℕ} (h : Window k v w) (hv : v < 2 ^ k) :
    w = 2 ^ v.size - 1 := by
  refine Nat.eq_of_testBit_eq fun i => ?_
  rw [Nat.testBit_two_pow_sub_one, Bool.eq_iff_iff, h i, decide_eq_true_iff]
  constructor
  · rintro ⟨j, -, hbit⟩
    have hle : i + j < v.size := Nat.lt_size.mpr (Nat.ge_two_pow_of_testBit hbit)
    omega
  · intro hi
    have hk : v.size ≤ k := Nat.size_le.mpr hv
    have htop : v.testBit (v.size - 1) = true := testBit_size_sub_one (Nat.zero_lt_of_lt hi)
    have hpos : i + (v.size - 1 - i) = v.size - 1 := by omega
    refine ⟨v.size - 1 - i, by omega, ?_⟩
    rw [hpos]
    exact htop

theorem smear_lt_two_pow {n v : ℕ} (k : ℕ) (hv : v < 2 ^ n) : smear k v < 2 ^ n :=
  Nat.or_lt_two_pow hv (lt_of_le_of_lt (Nat.shiftRight_le v k) hv)

/-- The five shifts for a number of at most 32 bits. -/
def smear32 (v : ℕ) : ℕ := smear 16 (smear 8 (smear 4 (smear 2 (smear 1 v))))

theorem smear32_eq {v : ℕ} (hv : v < 2 ^ 32) : smear32 v = 2 ^ v.size - 1 := by
  have hone := (Window.one v).smear (s := 1) le_rfl
  have htwo := hone.smear (s := 2) le_rfl
  have hfour := htwo.smear (s := 4) le_rfl
  have height := hfour.smear (s := 8) le_rfl
  exact (height.smear (s := 16) le_rfl).eq_two_pow_sub_one hv

/-- CORRECT: `2 ^ size (n - 1)` is the least power of two from `n` on. -/
theorem isLeast_two_pow_size {n : ℕ} (hn : 0 < n) :
    n ≤ 2 ^ (n - 1).size ∧ ∀ k, n ≤ 2 ^ k → (n - 1).size ≤ k := by
  constructor
  · have hlt : n - 1 < 2 ^ (n - 1).size := Nat.lt_size_self (n - 1)
    omega
  · intro k hk
    exact Nat.size_le.mpr (by omega)

end BitSmear
