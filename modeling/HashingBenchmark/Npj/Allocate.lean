import HashingBenchmark.Lib.BitSmear
import HashingBenchmark.Npj.Probe

/-! `allocate_hashtable`: the number of buckets, the mask and the two index functions.

    `num_buckets` is a signed 32-bit field and `NEXT_POW_2` shifts it arithmetically. From one bucket
    on its bits are smeared as those of a natural number and the table is a directory of `2 ^ k`
    buckets. For no bucket at all `V--` gives -1, which the shifts keep: no bucket, and a mask with
    all bits set. -/

namespace HashingBenchmark
namespace Npj
open BitSmear

/-- `NEXT_POW_2`. -/
def NEXT_POW_2 (V : Int32) : Int32 :=
  let V := V - 1
  let V := V ||| V >>> 1
  let V := V ||| V >>> 2
  let V := V ||| V >>> 4
  let V := V ||| V >>> 8
  let V := V ||| V >>> 16
  V + 1

/-- `Hashtable` without its buckets. -/
structure Hashtable where
  num_buckets : Int32
  hash_mask : UInt32
  skip_bits : UInt32
  deriving DecidableEq

/-- `allocate_hashtable`. -/
def allocateHashtable (nbuckets : UInt32) : Hashtable :=
  let num_buckets := NEXT_POW_2 nbuckets.toInt32
  let skip_bits : UInt32 := 0
  ⟨num_buckets, ((num_buckets - 1) <<< skip_bits.toInt32).toUInt32, skip_bits⟩

/-- `nbuckets` in `main`, without `INPUT_HASH_TABLE_SIZE`. -/
def nbuckets (num_tuples BUCKET_SIZE NUM_THREADS : ℕ) : UInt32 :=
  UInt32.ofNat (num_tuples / BUCKET_SIZE / NUM_THREADS)

/-- `idx` for a key, with or without `USE_MURMUR3_HASH`. -/
def Hashtable.idx (USE_MURMUR3_HASH : Bool) (ht : Hashtable) (key : UInt32) : UInt32 :=
  if USE_MURMUR3_HASH then altMod (murmurHash32 key) ht.num_buckets.toUInt32
  else HASH key ht.hash_mask ht.skip_bits

/-- Every index is below `num_buckets`. -/
def Hashtable.InRange (ht : Hashtable) : Prop :=
  ∀ USE_MURMUR3_HASH key, ((ht.idx USE_MURMUR3_HASH key).toNat : ℤ) < ht.num_buckets.toInt

/-! ### `NEXT_POW_2` -/

theorem or_sshiftRight {v : ℕ} (hv : v < 2 ^ 31) (k : ℕ) :
    BitVec.ofNat 32 v ||| (BitVec.ofNat 32 v).sshiftRight k = BitVec.ofNat 32 (smear k v) := by
  have hmsb : (BitVec.ofNat 32 v).msb = false := by
    rw [BitVec.msb_eq_false_iff_two_mul_lt, BitVec.toNat_ofNat, Nat.mod_eq_of_lt (by omega)]
    omega
  have hsmear : smear k v < 2 ^ 31 := smear_lt_two_pow k hv
  rw [BitVec.sshiftRight_eq_of_msb_false hmsb]
  refine BitVec.eq_of_toNat_eq ?_
  rw [BitVec.toNat_or, BitVec.toNat_ushiftRight, BitVec.toNat_ofNat, BitVec.toNat_ofNat,
    Nat.mod_eq_of_lt (by omega), Nat.mod_eq_of_lt (by omega)]
  rfl

/-- `V |= V >> 1; …; V |= V >> 16` on a number that is not negative. -/
theorem shifts_ofNat {v : ℕ} (hv : v < 2 ^ 31) :
    NEXT_POW_2 (Int32.ofNat v + 1) = Int32.ofNat (smear32 v) + 1 := by
  have hone : Int32.ofNat v ||| Int32.ofNat v >>> 1 = Int32.ofNat (smear 1 v) :=
    Int32.toBitVec.inj (or_sshiftRight hv 1)
  have hv1 : smear 1 v < 2 ^ 31 := smear_lt_two_pow 1 hv
  have htwo : Int32.ofNat (smear 1 v) ||| Int32.ofNat (smear 1 v) >>> 2
      = Int32.ofNat (smear 2 (smear 1 v)) := Int32.toBitVec.inj (or_sshiftRight hv1 2)
  have hv2 : smear 2 (smear 1 v) < 2 ^ 31 := smear_lt_two_pow 2 hv1
  have hfour : Int32.ofNat (smear 2 (smear 1 v)) ||| Int32.ofNat (smear 2 (smear 1 v)) >>> 4
      = Int32.ofNat (smear 4 (smear 2 (smear 1 v))) := Int32.toBitVec.inj (or_sshiftRight hv2 4)
  have hv4 : smear 4 (smear 2 (smear 1 v)) < 2 ^ 31 := smear_lt_two_pow 4 hv2
  have height : Int32.ofNat (smear 4 (smear 2 (smear 1 v)))
        ||| Int32.ofNat (smear 4 (smear 2 (smear 1 v))) >>> 8
      = Int32.ofNat (smear 8 (smear 4 (smear 2 (smear 1 v)))) :=
    Int32.toBitVec.inj (or_sshiftRight hv4 8)
  have hv8 : smear 8 (smear 4 (smear 2 (smear 1 v))) < 2 ^ 31 := smear_lt_two_pow 8 hv4
  have hlast : Int32.ofNat (smear 8 (smear 4 (smear 2 (smear 1 v))))
        ||| Int32.ofNat (smear 8 (smear 4 (smear 2 (smear 1 v)))) >>> 16
      = Int32.ofNat (smear32 v) := Int32.toBitVec.inj (or_sshiftRight hv8 16)
  simp only [NEXT_POW_2]
  rw [Int32.add_sub_cancel, hone, htwo, hfour, height, hlast]

/-- Smearing the bits of `nbuckets - 1` gives a power of two. -/
theorem NEXT_POW_2_ofNat {n : ℕ} (hpos : 1 ≤ n) (hn : n ≤ 2 ^ 30) :
    NEXT_POW_2 (UInt32.ofNat n).toInt32 = Int32.ofNat (2 ^ (n - 1).size) := by
  have hsucc : (UInt32.ofNat n).toInt32 = Int32.ofNat (n - 1) + 1 := by
    have h := Int32.ofNat_add (n - 1) 1
    rw [Nat.sub_add_cancel hpos] at h
    exact h
  have hsmear : smear32 (n - 1) = 2 ^ (n - 1).size - 1 := smear32_eq (by omega)
  have hadd := Int32.ofNat_add (2 ^ (n - 1).size - 1) 1
  rw [Nat.sub_add_cancel (Nat.two_pow_pos _)] at hadd
  rw [hsucc, shifts_ofNat (by omega), hsmear, hadd]
  rfl

/-- CORRECT: the number of buckets is the least power of two from `nbuckets` on. -/
theorem NEXT_POW_2_isLeast {n : ℕ} (hpos : 1 ≤ n) (hn : n ≤ 2 ^ 30) :
    ∃ k, NEXT_POW_2 (UInt32.ofNat n).toInt32 = Int32.ofNat (2 ^ k) ∧ n ≤ 2 ^ k ∧
      ∀ k', n ≤ 2 ^ k' → k ≤ k' :=
  ⟨(n - 1).size, NEXT_POW_2_ofNat hpos hn, isLeast_two_pow_size hpos⟩

/-- A table for at least one bucket is the directory of `2 ^ k` buckets of the build and the probe. -/
theorem allocateHashtable_ofNat {n : ℕ} (hpos : 1 ≤ n) (hn : n ≤ 2 ^ 30) :
    allocateHashtable (UInt32.ofNat n) =
      ⟨Int32.ofNat (2 ^ (n - 1).size), UInt32.ofNat (2 ^ (n - 1).size - 1), 0⟩ := by
  have hmask : ((Int32.ofNat (2 ^ (n - 1).size) - 1) <<< (0 : UInt32).toInt32).toUInt32
      = UInt32.ofNat (2 ^ (n - 1).size - 1) := by
    have hzero : (0 : UInt32).toInt32 = 0 := rfl
    have hone : Int32.ofNat 1 = 1 := rfl
    rw [hzero, Int32.shiftLeft_zero, ← hone, ← Int32.ofNat_sub _ _ (Nat.two_pow_pos _)]
    rfl
  rw [allocateHashtable, NEXT_POW_2_ofNat hpos hn]
  simp only [hmask]

theorem idx_allocateHashtable {n : ℕ} (hpos : 1 ≤ n) (hn : n ≤ 2 ^ 30) (USE_MURMUR3_HASH : Bool)
    (key : UInt32) : ((allocateHashtable (UInt32.ofNat n)).idx USE_MURMUR3_HASH key).toNat
      = bucketIndex USE_MURMUR3_HASH (2 ^ (n - 1).size) key := by
  rw [allocateHashtable_ofNat hpos hn, Hashtable.idx, bucketIndex]
  cases USE_MURMUR3_HASH with
  | true => rw [if_pos rfl, if_pos rfl, Int32.toUInt32_ofNat']
  | false => rw [if_neg Bool.false_ne_true, if_neg Bool.false_ne_true]

theorem inRange_allocateHashtable {n : ℕ} (hpos : 1 ≤ n) (hn : n ≤ 2 ^ 30) :
    (allocateHashtable (UInt32.ofNat n)).InRange := by
  intro USE_MURMUR3_HASH key
  have hsize : (n - 1).size ≤ 30 := Nat.size_le.mpr (by omega)
  have hpow : 2 ^ (n - 1).size ≤ 2 ^ 30 := Nat.pow_le_pow_right Nat.two_pos hsize
  have hbuckets : (allocateHashtable (UInt32.ofNat n)).num_buckets.toInt
      = ((2 ^ (n - 1).size : ℕ) : ℤ) := by
    rw [allocateHashtable_ofNat hpos hn]
    exact Int32.toInt_ofNat_of_lt (by omega)
  rw [hbuckets, idx_allocateHashtable hpos hn]
  exact Int.ofNat_lt.mpr (bucketIndex_lt USE_MURMUR3_HASH (n - 1).size key)

/-- Without a bucket no index is in range. -/
theorem allocateHashtable_zero : allocateHashtable 0 = ⟨0, 0xFFFFFFFF, 0⟩ := by decide

theorem not_inRange_allocateHashtable_zero : ¬ (allocateHashtable 0).InRange := by
  intro h
  have hlt := h false 5
  rw [allocateHashtable_zero] at hlt
  revert hlt
  decide

/-! ### The runner -/

/-- Three tuples, buckets of two, two threads: no bucket, and key 5 goes to bucket 5. -/
theorem bucket_index_out_of_range_for_three_tuples :
    let ht := allocateHashtable (nbuckets 3 2 2)
    ht.num_buckets = 0 ∧ ht.idx false 5 = 5 ∧ ht.idx true 5 = 0 ∧ ¬ ht.InRange := by
  intro ht
  exact ⟨by decide, by decide, by decide, not_inRange_allocateHashtable_zero⟩

/-- CORRECT: both index functions stay below `num_buckets` for every key exactly if there is a tuple
    for each slot of one bucket per thread. -/
theorem bucket_index_in_range_iff {num_tuples BUCKET_SIZE NUM_THREADS : ℕ} (hB : 1 ≤ BUCKET_SIZE)
    (hT : 1 ≤ NUM_THREADS) (hR : num_tuples < 2 ^ 30) :
    (allocateHashtable (nbuckets num_tuples BUCKET_SIZE NUM_THREADS)).InRange
      ↔ BUCKET_SIZE * NUM_THREADS ≤ num_tuples := by
  have hdiv : num_tuples / BUCKET_SIZE / NUM_THREADS = num_tuples / (BUCKET_SIZE * NUM_THREADS) :=
    Nat.div_div_eq_div_mul ..
  have hpos : 0 < BUCKET_SIZE * NUM_THREADS := Nat.mul_pos hB hT
  rw [nbuckets, hdiv]
  constructor
  · intro h
    by_contra hlt
    rw [Nat.div_eq_of_lt (Nat.not_le.mp hlt)] at h
    exact not_inRange_allocateHashtable_zero h
  · intro hle
    have hle' : num_tuples / (BUCKET_SIZE * NUM_THREADS) ≤ num_tuples := Nat.div_le_self ..
    exact inRange_allocateHashtable (Nat.div_pos hle hpos) (by omega)

/-- A thousand tuples, buckets of two and four threads. -/
theorem bucket_index_in_range_iff_thousand_tuples :
    (allocateHashtable (nbuckets 1000 2 4)).InRange :=
  (bucket_index_in_range_iff (by decide) (by decide) (by decide)).mpr (by decide)

end Npj
end HashingBenchmark
