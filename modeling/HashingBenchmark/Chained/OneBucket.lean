import HashingBenchmark.Chained.ByteSize
import HashingBenchmark.Chained.Exotic
import HashingBenchmark.Lib.Spread

/-! The chained table of `chained_exotic.hpp` with a minimal perfect hash.

    A chain has a bucket from the tape exactly if more pairs have its index than fit into a bucket.
    The values of a minimal perfect hash are spread evenly, so there are none exactly if the
    directory has slots for all pairs, in whatever order the constructor has shuffled them. -/

namespace HashingBenchmark
open SlotArray Chained support

namespace ChainedTable
variable {Key Payload : Type} {BucketSize m : ℕ} [DecidableEq Key] [Inhabited Payload]
  {Sentinel : Key} {sizeofBucket : ℕ} {index : Key → ℕ}
  {chain : ℕ → List (Ptr × Bucket Key Payload BucketSize)} {data : List (Key × Payload)}
  {t : ChainedTable Key Payload BucketSize m}

/-- A chain starts in the directory. -/
theorem Built.chain_eq_cons (h : Built Sentinel sizeofBucket index chain data t) (i : Fin m) :
    ∃ l, chain i = (.directory i, t.buckets i) :: l ∧
      Linked t.load Bucket.nextPtr (t.buckets i).nextPtr l := by
  have hlinked := h.linked i i.isLt
  cases hchain : chain i with
  | nil =>
    rw [hchain] at hlinked
    cases hlinked
  | cons x l =>
    rw [hchain] at hlinked
    obtain ⟨hptr, hload, hrest⟩ := hlinked
    have hfirst := Option.some.inj hptr
    rw [← hfirst, load_directory i.isLt] at hload
    have hbucket : t.buckets i = x.2 := Option.some.inj hload
    refine ⟨l, ?_, hbucket ▸ hrest⟩
    rw [hbucket, hfirst]

/-- Nothing is behind a bucket of the directory exactly if all its pairs fit into it. -/
theorem Built.next_eq_none_iff [NeZero BucketSize]
    (h : Built Sentinel sizeofBucket index chain data t) (i : Fin m) :
    (t.buckets i).next = none ↔ (data.filter fun d => index d.1 = i).length ≤ BucketSize := by
  have hpos : 0 < BucketSize := NeZero.pos BucketSize
  obtain ⟨l, hchain, hlinked⟩ := h.chain_eq_cons i
  have hlength := h.length_eq i.isLt
  rw [hchain, List.length_cons] at hlength
  have hceil : (data.filter fun d => index d.1 = i).length ⌈/⌉ BucketSize ≤ 1 ↔
      (data.filter fun d => index d.1 = i).length ≤ BucketSize := by
    rw [ceilDiv_le_iff_le_mul hpos, mul_one]
  have hnil : (t.buckets i).next = none ↔ l = [] := by
    constructor
    · intro hnext
      rw [Bucket.nextPtr, hnext] at hlinked
      exact hlinked.unique rfl
    · rintro rfl
      exact Option.map_eq_none_iff.mp hlinked
  rw [hnil, ← List.length_eq_zero_iff, ← hceil]
  omega

/-- A pair of a chain of one bucket is in this bucket. -/
theorem Built.exists_slot (h : Built Sentinel sizeofBucket index chain data t) {d : Key × Payload}
    (hd : d ∈ data) (i : Fin m) (hi : index d.1 = i) (hnext : (t.buckets i).next = none) :
    ∃ j, ((t.buckets i).keys j, (t.buckets i).payloads j) = d := by
  obtain ⟨l, hchain, hlinked⟩ := h.chain_eq_cons i
  rw [Bucket.nextPtr, hnext] at hlinked
  obtain rfl : l = [] := hlinked.unique rfl
  have hholds := h.holds i i.isLt
  rw [hchain] at hholds
  have hmem : d ∈ pairs Sentinel [(Ptr.directory i, t.buckets i)] := by
    rw [hholds]
    simp [hd, hi]
  have hprefix := h.prefixes i i.isLt (.directory i, t.buckets i) (by simp [hchain])
  obtain ⟨j, -, hj⟩ := (mem_entries hprefix).mp (by simpa [pairs, Bucket.entries] using hmem)
  exact ⟨j, hj⟩

end ChainedTable

/-- CORRECT: with a minimal perfect hash of its keys the constructor's inserts need no bucket from the
    tape exactly if the directory has a slot for every pair, in whatever order it shuffles them; then
    every pair is in the directory bucket of its key, and where a bucket does not fit into a tape
    segment the inserts return in no other case. -/
theorem exotic_chained_table_one_bucket {Key Payload : Type} [DecidableEq Key] [Inhabited Payload]
    {BucketSize m : ℕ} [NeZero BucketSize] [NeZero m] (Sentinel : Key) (sizeofBucket : ℕ)
    [NeZero sizeofBucket] (mmphf : HashFn Key) (data shuffled : List (Key × Payload))
    (hshuffled : shuffled.Perm data) (hdata : ∀ d ∈ data, d.1 ≠ Sentinel)
    (hmmphf : MinimalPerfect (fun key => (mmphf key).toNat) (data.map Prod.fst)) :
    let run := insertAll (KapilChainedExoticHashTable.insert Sentinel sizeofBucket mmphf) shuffled
      (ChainedTable.empty Sentinel : KapilChainedExoticHashTable Key Payload BucketSize m)
    ((∃ t, run = .returned t) ↔
      sizeofBucket ≤ 4194304 ∨ data.length ≤ m * BucketSize) ∧
    ∀ t, run = .returned t →
      ((∀ i, (t.buckets i).next = none) ↔ data.length ≤ m * BucketSize) ∧
      (data.length ≤ m * BucketSize → ∀ d ∈ data, ∃ (i : Fin m) (j : Fin BucketSize),
        i.val = KapilChainedExoticHashTable.index mmphf m d.1 ∧
        ((t.buckets i).keys j, (t.buckets i).payloads j) = d) := by
  intro run
  have hpos : 0 < m := NeZero.pos m
  have hkeys : ∀ d ∈ shuffled, d.1 ≠ Sentinel := fun d hd => hdata d (hshuffled.mem_iff.mp hd)
  have hindex : ∀ d ∈ shuffled, KapilChainedExoticHashTable.index mmphf m d.1 < m :=
    fun d _ => Nat.mod_lt _ hpos
  have hfits : (∀ i : Fin m, (shuffled.filter fun d =>
      KapilChainedExoticHashTable.index mmphf m d.1 = i).length ≤ BucketSize) ↔
      data.length ≤ m * BucketSize := by
    have hperfect := hmmphf.perm (hshuffled.map Prod.fst)
    have hkeysLength : (shuffled.map Prod.fst).length = shuffled.length := List.length_map _
    rw [← hshuffled.length_eq, ← hkeysLength, ← hperfect.spread_iff,
      Spread]
    refine forall_congr' fun i => ?_
    have hhome : ∀ d ∈ shuffled, decide (KapilChainedExoticHashTable.index mmphf m d.1 = i)
        = decide (Fin.ofNat m (mmphf d.1).toNat = i) := by
      intro d _
      refine decide_eq_decide.mpr ?_
      simp [Fin.ext_iff, KapilChainedExoticHashTable.index]
    rw [List.filter_congr hhome, List.countP_map, List.countP_eq_length_filter]
    rfl
  refine ⟨?_, fun t hrun => ?_⟩
  · rw [← hfits, Fin.forall_iff, ← ChainedTable.fits_iff hindex]
    constructor
    · rintro ⟨t, hrun⟩
      exact (ChainedTable.built_of_insertAll hkeys hindex hrun).2
    · exact ChainedTable.exists_insertAll hkeys hindex
  · obtain ⟨⟨chain, hbuilt⟩, -⟩ := ChainedTable.built_of_insertAll hkeys hindex hrun
    have hnext : (∀ i, (t.buckets i).next = none) ↔ data.length ≤ m * BucketSize := by
      rw [← hfits]
      exact forall_congr' fun i => hbuilt.next_eq_none_iff i
    refine ⟨hnext, fun hle d hd => ?_⟩
    have hd' := hshuffled.mem_iff.mpr hd
    obtain ⟨j, hj⟩ := hbuilt.exists_slot hd' ⟨_, hindex d hd'⟩ rfl (hnext.mpr hle _)
    exact ⟨⟨_, hindex d hd'⟩, j, rfl, hj⟩

/-- Three pairs in two buckets of two slots, inserted in descending order; the hash values are in no
    order. -/
theorem exotic_chained_table_one_bucket_three :
    let mmphf : HashFn ℕ := ⟨fun key => UInt64.ofNat ([5, 9, 2].idxOf key), "index"⟩
    let data : List (ℕ × ℕ) := [(2, 20), (5, 50), (9, 90)]
    ∃ t : KapilChainedExoticHashTable ℕ ℕ 2 2,
      insertAll (KapilChainedExoticHashTable.insert 100 48 mmphf) data.reverse (ChainedTable.empty 100)
        = .returned t ∧ ∀ i, (t.buckets i).next = none := by
  intro mmphf data
  obtain ⟨hreturns, hnext⟩ := @exotic_chained_table_one_bucket ℕ ℕ _ _ 2 2 _ _ 100 48 _ mmphf
    data data.reverse (List.reverse_perm data) (by decide) (by decide)
  obtain ⟨t, hrun⟩ := hreturns.mpr (Or.inr (by decide))
  exact ⟨t, hrun, (hnext t hrun).1.mpr (by decide)⟩

end HashingBenchmark
