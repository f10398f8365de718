import HashingBenchmark.Chained.Correct
import Mathlib.Algebra.BigOperators.Group.Finset.Basic
import Mathlib.Algebra.Group.Nat.Defs
import Mathlib.Algebra.Order.Floor.Div

/-! The size that the table of `chained.hpp` reports.

    `byte_size` of a bucket follows its chain, so the figure counts the buckets. In a chain all
    buckets but the last are full and only the first may be empty, which makes the number of buckets
    a function of the number of pairs alone (`Built.length_eq`): the order of the inserts does not
    show. The exception is again a bucket that is larger than a tape segment. -/

namespace HashingBenchmark
open SlotArray Chained support

namespace ChainedTable
variable {Key Payload : Type} {BucketSize m : ℕ}

/-- `Bucket::byte_size`, a `size_t`, on `*bucket`. -/
def bucketByteSize (sizeofBucket : ℕ) (t : ChainedTable Key Payload BucketSize m) :
    ℕ → Ptr → Except Fault UInt64
  | 0, _ => .error .diverges
  | fuel + 1, bucket =>
    match t.load bucket with
    | none => .error .outOfBounds
    | some b =>
      match b.next with
      | none => .ok (UInt64.ofNat sizeofBucket)
      | some c =>
        (bucketByteSize sizeofBucket t fuel (.cell c)).map (UInt64.ofNat sizeofBucket + ·)

/-- `directory_byte_size`; `sizeofBuckets` is `sizeof(decltype(buckets))`. -/
def directoryByteSize (sizeofBuckets sizeofBucket : ℕ) (t : ChainedTable Key Payload BucketSize m) :
    Except Fault UInt64 :=
  (List.range m).foldlM (fun directory_bytesize i =>
    (bucketByteSize sizeofBucket t (t.tape.cells.length + 1) (.directory i)).map
      (directory_bytesize + ·)) (UInt64.ofNat sizeofBuckets)

/-- A sum of sizes, none of which faults. -/
theorem foldlM_add_ofNat {f : ℕ → Except Fault UInt64} {g : ℕ → ℕ} {k : ℕ} (s : ℕ)
    (h : ∀ i < k, f i = .ok (UInt64.ofNat (g i))) :
    (List.range k).foldlM (fun sum i => (f i).map (sum + ·)) (UInt64.ofNat s)
      = .ok (UInt64.ofNat (s + ∑ i ∈ Finset.range k, g i)) := by
  induction k with
  | zero => simp [pure, Except.pure]
  | succ k ih =>
    have hk := h k (Nat.lt_succ_self k)
    rw [List.range_succ, List.foldlM_append, ih fun i hi => h i (Nat.lt_succ_of_lt hi),
      Finset.sum_range_succ, ← add_assoc, UInt64.ofNat_add (s + _)]
    simp [hk, bind, Except.bind, Except.map, pure, Except.pure]

/-- The figure is the number of buckets in the chain times the size of one. -/
theorem bucketByteSize_eq {sizeofBucket : ℕ} {t : ChainedTable Key Payload BucketSize m}
    {l : List (Ptr × Bucket Key Payload BucketSize)} {p : Ptr} {fuel : ℕ}
    (hlinked : Linked t.load Bucket.nextPtr (some p) l) (hfuel : l.length ≤ fuel) :
    bucketByteSize sizeofBucket t fuel p = .ok (UInt64.ofNat (sizeofBucket * l.length)) := by
  induction l generalizing p fuel with
  | nil => cases hlinked
  | cons x l ih =>
    obtain ⟨hp, hload, hrest⟩ := hlinked
    obtain rfl := Option.some.inj hp
    cases fuel with
    | zero => cases hfuel
    | succ fuel =>
      rw [bucketByteSize, hload]
      cases hnext : x.2.next with
      | none =>
        have hnil : l = [] := by
          cases l with
          | nil => rfl
          | cons y l =>
            obtain ⟨c, hc, -⟩ := next_of_linked hrest
            cases hnext.symm.trans hc
        simp [hnext, hnil]
      | some c =>
        have hrest' : Linked t.load Bucket.nextPtr (some (.cell c)) l := by
          rwa [Bucket.nextPtr, hnext] at hrest
        simp only [hnext, ih hrest' (Nat.le_of_succ_le_succ hfuel), List.length_cons,
          Nat.mul_succ, UInt64.ofNat_add, Except.map]
        rw [UInt64.add_comm]

section
variable [DecidableEq Key] [Inhabited Payload] {Sentinel : Key} {sizeofBucket : ℕ}
  {index : Key → ℕ} {chain : ℕ → List (Ptr × Bucket Key Payload BucketSize)}
  {data : List (Key × Payload)} {t : ChainedTable Key Payload BucketSize m}

omit [Inhabited Payload] in
/-- The pairs of a chain: `BucketSize` in each bucket but the last. -/
theorem length_pairs_concat {l : List (Ptr × Bucket Key Payload BucketSize)}
    {x : Ptr × Bucket Key Payload BucketSize} (hprefixes : ∀ y ∈ l, FilledPrefix Sentinel y.2.keys)
    (hfull : ∀ y ∈ l, Full Sentinel y.2.keys) :
    (pairs Sentinel (l ++ [x])).length
      = BucketSize * l.length + (x.2.entries Sentinel).length := by
  induction l with
  | nil => simp [pairs]
  | cons y l ih =>
    have hy : (y.2.entries Sentinel).length = BucketSize :=
      (Bucket.full_iff (hprefixes y List.mem_cons_self)).mp (hfull y List.mem_cons_self)
    have hl := ih (fun z hz => hprefixes z (List.mem_cons_of_mem _ hz))
      fun z hz => hfull z (List.mem_cons_of_mem _ hz)
    rw [pairs] at hl ⊢
    rw [List.cons_append, List.flatMap_cons, List.length_append, hl, hy, List.length_cons]
    ring

/-- How many buckets a chain has. -/
theorem Built.length_eq [NeZero BucketSize]
    (h : Built Sentinel sizeofBucket index chain data t) {i : ℕ} (hi : i < m) :
    (chain i).length = max 1 ((data.filter fun d => index d.1 = i).length ⌈/⌉ BucketSize) := by
  have hpos : 0 < BucketSize := NeZero.pos BucketSize
  obtain ⟨l, x, hl⟩ := h.exists_last hi
  have hprefixes := h.prefixes i hi
  have hfull := h.full i hi
  have hnonempty := h.nonempty i hi
  rw [hl] at hprefixes hfull hnonempty
  rw [List.dropLast_concat] at hfull
  have hcount := length_pairs_concat (x := x)
    (fun y hy => hprefixes y (List.mem_append_left _ hy)) hfull
  rw [← hl, h.holds i hi] at hcount
  have hle : (x.2.entries Sentinel).length ≤ BucketSize :=
    Bucket.length_entries_le (hprefixes x (by simp))
  rw [hcount, hl, List.length_append, List.length_singleton]
  cases l with
  | nil =>
    have hone : (x.2.entries Sentinel).length ⌈/⌉ BucketSize ≤ 1 := by
      rw [ceilDiv_le_iff_le_mul hpos, mul_one]; exact hle
    simp [hone]
  | cons y l =>
    -- the last bucket is not the first, so it holds a pair
    have hlast : 0 < (x.2.entries Sentinel).length :=
      List.length_pos_of_ne_nil (hnonempty x (by simp))
    have hceil : (BucketSize * (y :: l).length + (x.2.entries Sentinel).length) ⌈/⌉ BucketSize
        = (y :: l).length + 1 := by
      rw [Nat.ceilDiv_eq_add_pred_div, Nat.add_assoc, Nat.add_sub_assoc (by omega),
        Nat.mul_add_div hpos]
      congr 1
      rw [Nat.div_eq_iff hpos]; omega
    rw [hceil, max_eq_right (by omega)]

/-- The figure for the whole table. -/
theorem Built.directoryByteSize_eq (h : Built Sentinel sizeofBucket index chain data t)
    (sizeofBuckets : ℕ) :
    directoryByteSize sizeofBuckets sizeofBucket t = .ok (UInt64.ofNat
      (sizeofBuckets + sizeofBucket * ∑ i ∈ Finset.range m, (chain i).length)) := by
  rw [Finset.mul_sum]
  exact foldlM_add_ofNat sizeofBuckets fun i hi => bucketByteSize_eq (h.linked i hi) (h.length_le hi)

end

/-- A directory whose size depends on nothing but how many pairs have which index: `c` pairs take
    `max 1 ⌈c / BucketSize⌉` buckets. -/
def expectedByteSize (BucketSize m sizeofBuckets sizeofBucket : ℕ) (index : Key → ℕ)
    (data : List (Key × Payload)) : ℕ :=
  sizeofBuckets + sizeofBucket * ∑ i ∈ Finset.range m,
    max 1 ((data.filter fun d => index d.1 = i).length ⌈/⌉ BucketSize)

theorem Built.directoryByteSize_eq_expected [DecidableEq Key] [Inhabited Payload]
    [NeZero BucketSize] {Sentinel : Key} {sizeofBucket : ℕ} {index : Key → ℕ}
    {chain : ℕ → List (Ptr × Bucket Key Payload BucketSize)} {data : List (Key × Payload)}
    {t : ChainedTable Key Payload BucketSize m} (h : Built Sentinel sizeofBucket index chain data t)
    (sizeofBuckets : ℕ) :
    directoryByteSize sizeofBuckets sizeofBucket t = .ok (UInt64.ofNat
      (expectedByteSize BucketSize m sizeofBuckets sizeofBucket index data)) := by
  rw [h.directoryByteSize_eq, expectedByteSize]
  congr 4
  exact Finset.sum_congr rfl fun i hi => h.length_eq (Finset.mem_range.mp hi)

end ChainedTable

open ChainedTable
variable {Key Payload : Type} [DecidableEq Key] [Inhabited Payload] {BucketSize m : ℕ}
  [NeZero BucketSize]

/-- 262145 pairs for one bucket of 262144: there is no table to report the size of. -/
theorem chained_byte_size_of_overflow :
    let hashfn : HashFn UInt64 := ⟨fun _ => 0, "zero"⟩
    let data : List (UInt64 × UInt64) := List.replicate 262144 (7, 70) ++ [(7, 70)]
    (∀ d ∈ data, d.1 ≠ 0) ∧
    ¬ ∃ t : KapilChainedHashTable UInt64 UInt64 262144 1,
      insertAll (KapilChainedHashTable.insert 0 4194312 hashfn) data (ChainedTable.empty 0)
        = .returned t ∧
      directoryByteSize 24 4194312 t = .ok (UInt64.ofNat (expectedByteSize 262144 1 24 4194312
        (KapilChainedHashTable.index hashfn 1) data)) := by
  intro hashfn data
  have hkeys : ∀ d ∈ data, d.1 ≠ 0 := by
    intro d hd
    rcases List.mem_append.mp hd with hd | hd
    · rw [List.eq_of_mem_replicate hd]; decide
    · rw [List.mem_singleton.mp hd]; decide
  have hindex : ∀ q, KapilChainedHashTable.index hashfn 1 q = 0 := fun q => Nat.mod_one _
  refine ⟨hkeys, ?_⟩
  rintro ⟨t, hrun, -⟩
  obtain ⟨t', hrun'⟩ : ∃ t' : KapilChainedHashTable UInt64 UInt64 262144 1,
      insertAll (KapilChainedHashTable.insert 0 4194312 hashfn) data (ChainedTable.empty 0)
        = .threw .outOfBounds t' := by
    refine insertAll_threw hkeys (fun d _ => by rw [hindex]; exact one_pos) (by decide)
      (fun i => ?_) ?_
    · exact (List.length_filter_le _ _).trans (by rw [List.length_replicate])
    · rw [List.filter_eq_self.mpr fun d _ => by simp [hindex]]
      exact List.length_replicate
  cases hrun.symm.trans hrun'

/-- CORRECT: the reported size depends on the numbers of pairs per directory bucket alone, exactly
    if a tape segment has room for a bucket or no directory bucket needs a second one. -/
theorem chained_byte_size_counts_iff [NeZero m] (hashfn : HashFn Key) (Sentinel : Key)
    (sizeofBuckets sizeofBucket : ℕ) [NeZero sizeofBucket] (data : List (Key × Payload))
    (hdata : ∀ d ∈ data, d.1 ≠ Sentinel) :
    (∃ t : KapilChainedHashTable Key Payload BucketSize m,
      insertAll (KapilChainedHashTable.insert Sentinel sizeofBucket hashfn) data
        (ChainedTable.empty Sentinel) = .returned t ∧
      directoryByteSize sizeofBuckets sizeofBucket t = .ok (UInt64.ofNat
        (expectedByteSize BucketSize m sizeofBuckets sizeofBucket
          (KapilChainedHashTable.index hashfn m) data))) ↔
    sizeofBucket ≤ 4194304 ∨ ∀ i < m,
      (data.filter fun d => KapilChainedHashTable.index hashfn m d.1 = i).length ≤ BucketSize := by
  have hindex : ∀ d ∈ data, KapilChainedHashTable.index hashfn m d.1 < m := fun d _ =>
    Nat.mod_lt _ (NeZero.pos m)
  rw [← fits_iff hindex]
  constructor
  · rintro ⟨t, hrun, -⟩
    exact (built_of_insertAll hdata hindex hrun).2
  · intro h
    obtain ⟨t, hrun⟩ := exists_insertAll hdata hindex h
    obtain ⟨⟨chain, hbuilt⟩, -⟩ := built_of_insertAll hdata hindex hrun
    exact ⟨t, hrun, hbuilt.directoryByteSize_eq_expected sizeofBuckets⟩

/-- Three buckets of one slot for one directory index and an empty one for the other. -/
theorem chained_byte_size_counts_iff_four_buckets :
    let hashfn : HashFn UInt64 := ⟨id, "identity"⟩
    let data : List (UInt64 × UInt64) := [(1, 10), (3, 30), (5, 50)]
    ∃ t : KapilChainedHashTable UInt64 UInt64 1 2,
      insertAll (KapilChainedHashTable.insert 0 32 hashfn) data (ChainedTable.empty 0)
        = .returned t ∧
      directoryByteSize 24 32 t = .ok (UInt64.ofNat (expectedByteSize 1 2 24 32
        (KapilChainedHashTable.index hashfn 2) data)) :=
  (chained_byte_size_counts_iff _ 0 24 32 _ (by simp)).mpr (Or.inl (by decide))

end HashingBenchmark
