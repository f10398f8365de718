import HashingBenchmark.Support.Table
import Mathlib.Algebra.Order.Floor.Div
import Mathlib.Algebra.Order.Floor.Semifield
import Mathlib.Data.Rat.Floor
import Mathlib.Tactic.FieldSimp
import Mathlib.Tactic.Ring

/-! How many buckets the constructors of the `Kapil` tables give their directory.

    The size is one expression in nine constructors: the pairs and the over-allocation in percent,
    plus one, over the slots of a bucket. `buckets.resize` truncates it, so a last bucket that the
    pairs fill only in part exists only if the over-allocation and the one pay for its free slots
    (`directory_holds_data_iff`). The expression is taken in exact arithmetic; the code computes it
    in doubles. -/

namespace HashingBenchmark

/-- The argument of `buckets.resize`; `size` is `data.size()`. The second branch, for an
    `OverAlloc` from 10000 on, divides before it adds one. -/
def bucketsSize (BucketSize OverAlloc size : ℕ) : ℕ :=
  if OverAlloc < 10000 then ⌊((1 : ℚ) + size * (1 + OverAlloc / 100)) / BucketSize⌋₊
  else ⌊(1 : ℚ) + size * ((OverAlloc - 10000 : ℕ) / 100) / BucketSize⌋₊

def KapilLinearHashTable.directorySize := bucketsSize
def KapilLinearModelHashTable.directorySize := bucketsSize
def KapilLinearExoticHashTable.directorySize := bucketsSize
def KapilCuckooHashTable.directorySize := bucketsSize
def KapilCuckooModelHashTable.directorySize := bucketsSize
def KapilCuckooExoticHashTable.directorySize := bucketsSize

/-- The size formulas of the probing and the cuckoo constructors. -/
def probingAndCuckooSizes : List (ℕ → ℕ → ℕ → ℕ) :=
  [KapilLinearHashTable.directorySize, KapilLinearModelHashTable.directorySize,
    KapilLinearExoticHashTable.directorySize, KapilCuckooHashTable.directorySize,
    KapilCuckooModelHashTable.directorySize, KapilCuckooExoticHashTable.directorySize]

theorem eq_bucketsSize {resize : ℕ → ℕ → ℕ → ℕ} (h : resize ∈ probingAndCuckooSizes) :
    resize = bucketsSize := by
  simp only [probingAndCuckooSizes, List.mem_cons, List.not_mem_nil, or_false] at h
  rcases h with rfl | rfl | rfl | rfl | rfl | rfl <;> rfl

/-- The free slots of the last bucket when `size` pairs fill one bucket after the other. -/
def freeSlots (BucketSize size : ℕ) : ℕ := (BucketSize - size % BucketSize) % BucketSize

/-- The first branch in integers. -/
theorem bucketsSize_of_lt {BucketSize OverAlloc : ℕ} (h : OverAlloc < 10000) (size : ℕ) :
    bucketsSize BucketSize OverAlloc size
      = (100 + size * (100 + OverAlloc)) / (100 * BucketSize) := by
  have hscale : ((1 : ℚ) + size * (1 + OverAlloc / 100)) / BucketSize
      = ((100 + size * (100 + OverAlloc) : ℕ) : ℚ) / ((100 * BucketSize : ℕ) : ℚ) := by
    push_cast
    rw [← mul_div_mul_left _ (BucketSize : ℚ) (by norm_num : (100 : ℚ) ≠ 0)]
    congr 1; ring
  rw [bucketsSize, if_pos h, hscale, Nat.floor_div_eq_div]

/-- Rounding up to whole buckets. -/
theorem mul_ceilDiv_eq {BucketSize : ℕ} (hB : 1 ≤ BucketSize) (size : ℕ) :
    BucketSize * (size ⌈/⌉ BucketSize) = size + freeSlots BucketSize size := by
  have hdiv := Nat.div_add_mod size BucketSize
  have hlt := Nat.mod_lt size hB
  rw [freeSlots, Nat.ceilDiv_eq_add_pred_div]
  rcases Nat.eq_zero_or_pos (size % BucketSize) with hzero | hpos
  · have hceil : (size + BucketSize - 1) / BucketSize = size / BucketSize := by
      rw [Nat.div_eq_iff hB, mul_comm]; omega
    rw [hceil, hzero, Nat.sub_zero, Nat.mod_self]; omega
  · have hceil : (size + BucketSize - 1) / BucketSize = size / BucketSize + 1 := by
      rw [Nat.div_eq_iff hB, mul_comm, mul_add]; omega
    rw [hceil, Nat.mod_eq_of_lt (a := BucketSize - size % BucketSize) (by omega), mul_add, mul_one]
    omega

/-- There are slots for all pairs exactly if the expression pays for the last bucket's free ones. -/
theorem le_bucketsSize_mul_iff {BucketSize OverAlloc size : ℕ} (hB : 1 ≤ BucketSize)
    (hO : OverAlloc < 10000) :
    size ≤ bucketsSize BucketSize OverAlloc size * BucketSize ↔
      100 * freeSlots BucketSize size ≤ 100 + size * OverAlloc := by
  have hbuckets : size ≤ bucketsSize BucketSize OverAlloc size * BucketSize ↔
      size ⌈/⌉ BucketSize ≤ bucketsSize BucketSize OverAlloc size := by
    rw [ceilDiv_le_iff_le_mul hB, mul_comm]
  have hslots := mul_ceilDiv_eq hB size
  rw [hbuckets, bucketsSize_of_lt hO, Nat.le_div_iff_mul_le (by omega), mul_left_comm,
    mul_comm _ BucketSize, hslots]
  constructor
  · intro h; linarith
  · intro h; linarith

/-- One pair and buckets of four slots get no bucket, five pairs with ten percent more get one. -/
theorem directory_too_small :
    ¬ (1 ≤ KapilLinearHashTable.directorySize 4 0 1 ∧
      1 ≤ KapilLinearHashTable.directorySize 4 0 1 * 4) ∧
    KapilLinearHashTable.directorySize 4 0 1 = 0 ∧
    ¬ 5 ≤ KapilCuckooHashTable.directorySize 4 10 5 * 4 := by
  have h1 : KapilLinearHashTable.directorySize 4 0 1 = 0 :=
    (bucketsSize_of_lt (by norm_num) 1).trans (by norm_num)
  have h2 : KapilCuckooHashTable.directorySize 4 10 5 = 1 :=
    (bucketsSize_of_lt (by norm_num) 5).trans (by norm_num)
  rw [h1, h2]
  decide

/-- CORRECT: a probing or cuckoo directory has a bucket and slots for all pairs, exactly if the
    over-allocation and the added one cover the free slots of a partly filled last bucket. -/
theorem directory_holds_data_iff (resize : ℕ → ℕ → ℕ → ℕ) (hresize : resize ∈ probingAndCuckooSizes)
    (BucketSize OverAlloc size : ℕ) (hsize : 1 ≤ size) (hB : 1 ≤ BucketSize)
    (hO : OverAlloc < 10000) :
    (1 ≤ resize BucketSize OverAlloc size ∧ size ≤ resize BucketSize OverAlloc size * BucketSize) ↔
      100 * freeSlots BucketSize size ≤ 100 + size * OverAlloc := by
  rw [eq_bucketsSize hresize, ← le_bucketsSize_mul_iff hB hO]
  refine and_iff_right_of_imp fun hslots => ?_
  by_contra hzero
  have hnone : bucketsSize BucketSize OverAlloc size = 0 := by omega
  rw [hnone, zero_mul] at hslots
  omega

/-- Six pairs with twenty percent more: two buckets of four slots. -/
theorem directory_holds_data_iff_six :
    1 ≤ KapilCuckooHashTable.directorySize 4 20 6 ∧
      6 ≤ KapilCuckooHashTable.directorySize 4 20 6 * 4 :=
  (directory_holds_data_iff KapilCuckooHashTable.directorySize
    (by simp [probingAndCuckooSizes]) 4 20 6 (by decide) (by decide) (by decide)).mpr (by decide)

end HashingBenchmark
