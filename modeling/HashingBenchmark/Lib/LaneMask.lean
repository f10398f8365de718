import Mathlib.Data.BitVec

/-! Comparing the lanes of two vector registers, and finding the first equal one.

    A register of `n` lanes is a function `Fin n → BitVec w`. A comparison gives a mask of its lanes,
    either with one bit for each of them (`cmpeq_mask`), or, by way of a register of lanes that are
    all ones or all zeros (`cmpeq`), with one bit for each byte (`movemask_epi8`). In both masks the
    bits of a lane are next to each other and alike, so the number of trailing zeros, divided by the
    number of bits of a lane, is the first lane that is equal (`ctz_cases`). -/

namespace LaneMask
variable {n w N s : ℕ}

/-- The bits `f 0`, `f 1` and so on, from the least significant one. -/
def ofBits (f : Fin N → Bool) : BitVec N := (BitVec.iunfoldr (fun i () => ((), f i)) ()).2

theorem getLsbD_ofBits (f : Fin N → Bool) {j : ℕ} (hj : j < N) :
    (ofBits f).getLsbD j = f ⟨j, hj⟩ :=
  BitVec.iunfoldr_getLsbD (fun _ => ()) ⟨j, hj⟩ fun _ => rfl

/-- A vector register. -/
abbrev Lanes (n w : ℕ) := Fin n → BitVec w

/-- The same value in every lane. -/
def set1 (x : BitVec w) : Lanes n w := fun _ => x

/-- Compare lane by lane, to a mask of one bit a lane. -/
def cmpeq_mask (a b : Lanes n w) : BitVec n := ofBits fun i => a i = b i

/-- Compare lane by lane, to lanes of ones or of zeros. -/
def cmpeq (a b : Lanes n w) : Lanes n w := fun i =>
  if a i = b i then BitVec.allOnes w else BitVec.zero w

theorem byte_lane_lt {bytes : ℕ} (j : Fin (n * bytes)) : j.val / bytes < n :=
  Nat.div_lt_of_lt_mul (Nat.mul_comm n bytes ▸ j.isLt)

/-- The most significant bit of each byte. -/
def movemask_epi8 {bytes : ℕ} (v : Lanes n (8 * bytes)) : BitVec (n * bytes) :=
  ofBits fun j => (v ⟨j.val / bytes, byte_lane_lt j⟩).getLsbD (8 * (j.val % bytes) + 7)

/-- Each lane of which `p` holds has its `s` bits of the mask set, and there are no others. -/
def Encodes (s : ℕ) (p : Fin n → Prop) (mask : BitVec N) : Prop :=
  ∀ j, mask.getLsbD j = true ↔ ∃ h : j / s < n, p ⟨j / s, h⟩

/-- A mask is zero if no lane has the property; otherwise its trailing zeros are the bits of the
    lanes before the first one that has. -/
theorem ctz_cases {p : Fin n → Prop} {mask : BitVec N} (h : Encodes s p mask) (hs : 0 < s) :
    (mask ≠ 0#N ∧ ∃ i, p i ∧ (∀ i' < i, ¬ p i') ∧ mask.ctz.toNat / s = i.val) ∨
    (mask = 0#N ∧ ∀ i, ¬ p i) := by
  have hlane : ∀ i, p i → mask.getLsbD (i.val * s) = true := by
    intro i hi
    have hdiv : i.val * s / s = i.val := Nat.mul_div_cancel _ hs
    refine (h _).mpr ⟨by rw [hdiv]; exact i.isLt, ?_⟩
    simpa only [hdiv] using hi
  by_cases hzero : mask = 0#N
  · right
    refine ⟨hzero, fun i hi => ?_⟩
    have hbit := hlane i hi
    rw [hzero, BitVec.getLsbD_zero] at hbit
    cases hbit
  · left
    obtain ⟨hlt, hp⟩ := (h _).mp (BitVec.getLsbD_true_ctz_of_ne_zero hzero)
    refine ⟨hzero, ⟨mask.ctz.toNat / s, hlt⟩, hp, fun i' hi' hp' => ?_, rfl⟩
    -- the bits of an earlier lane are among the trailing zeros
    have hle : (i'.val + 1) * s ≤ mask.ctz.toNat := by
      have hval : i'.val + 1 ≤ mask.ctz.toNat / s := hi'
      exact (Nat.mul_le_mul_right s hval).trans (Nat.div_mul_le_self _ _)
    have hbefore : i'.val * s < mask.ctz.toNat := by
      rw [Nat.add_one_mul] at hle; omega
    have hbit := hlane i' hp'
    rw [BitVec.getLsbD_false_of_lt_ctz hbefore] at hbit
    cases hbit

theorem encodes_cmpeq_mask (a b : Lanes n w) : Encodes 1 (fun i => a i = b i) (cmpeq_mask a b) := by
  intro j
  rw [Nat.div_one, cmpeq_mask]
  by_cases hj : j < n
  · rw [getLsbD_ofBits _ hj, decide_eq_true_eq]
    exact ⟨fun h => ⟨hj, h⟩, fun ⟨_, h⟩ => h⟩
  · rw [BitVec.getLsbD_of_ge _ _ (not_lt.mp hj)]
    exact iff_of_false Bool.false_ne_true fun ⟨hlt, _⟩ => hj hlt

/-- Zeros in front of a mask encode nothing. -/
theorem Encodes.setWidth {p : Fin n → Prop} {mask : BitVec N} (h : Encodes s p mask) {M : ℕ}
    (hN : N ≤ M) : Encodes s p (mask.setWidth M) := by
  intro j
  rw [← h j, BitVec.getLsbD_setWidth]
  by_cases hj : j < M
  · simp [hj]
  · simp [BitVec.getLsbD_of_ge mask j (by omega), hj]

theorem setWidth_eq_zero_iff {mask : BitVec N} {M : ℕ} (hN : N ≤ M) :
    mask.setWidth M = 0#M ↔ mask = 0#N := by
  rw [← BitVec.toNat_inj, ← BitVec.toNat_inj, BitVec.toNat_setWidth_of_le hN, BitVec.toNat_zero,
    BitVec.toNat_zero]

/-- The mask of a register whose lanes are ones where they have the property and zeros elsewhere. -/
theorem encodes_movemask_of_lanes {bytes : ℕ} (hbytes : 0 < bytes) {p : Fin n → Prop}
    [DecidablePred p] {v : Lanes n (8 * bytes)}
    (hv : ∀ i, v i = if p i then BitVec.allOnes _ else BitVec.zero _) :
    Encodes bytes p (movemask_epi8 v) := by
  intro j
  by_cases hj : j < n * bytes
  · have hbit : 8 * (j % bytes) + 7 < 8 * bytes := by
      have := Nat.mod_lt j hbytes; omega
    have hlt : j / bytes < n := byte_lane_lt ⟨j, hj⟩
    rw [movemask_epi8, getLsbD_ofBits _ hj, hv]
    by_cases hp : p ⟨j / bytes, hlt⟩
    · simp [hp, hlt, hbit]
    · simp [hp, hlt]
  · rw [BitVec.getLsbD_of_ge _ _ (not_lt.mp hj)]
    refine iff_of_false Bool.false_ne_true fun ⟨hlt, _⟩ => hj ?_
    exact (Nat.div_lt_iff_lt_mul hbytes).mp hlt

theorem encodes_movemask_epi8 {bytes : ℕ} (hbytes : 0 < bytes) (a b : Lanes n (8 * bytes)) :
    Encodes bytes (fun i => a i = b i) (movemask_epi8 (cmpeq a b)) :=
  encodes_movemask_of_lanes hbytes fun _ => rfl

end LaneMask
