import HashingBenchmark.Chained.Insert

/-! What the chained tables hold and find.

    Reading a chain follows the same pointers as the lookup. Under the invariant both see exactly the
    pairs inserted with the chain's directory index (`Built.contents_eq`, `Built.lookup_eq`).

    The table of `chained.hpp` then loses and invents nothing, unless a bucket is larger than a tape
    segment and some chain needs a second bucket. The table of `chained_model.hpp` divides the
    model's prediction by 100000000 in its insert but not in its lookup: an inserted key is found
    only if the two directory indices agree, which means that both are zero. -/

namespace HashingBenchmark
open SlotArray Chained support

namespace ChainedTable
variable {Key Payload : Type} {BucketSize m : ℕ} [DecidableEq Key]

/-- Read a chain from `*p` on, slot by slot up to each bucket's first Sentinel. -/
def readLoop (Sentinel : Key) (t : ChainedTable Key Payload BucketSize m) :
    ℕ → Option Ptr → Except Fault (List (Key × Payload))
  | _, none => .ok []
  | 0, some _ => .error .diverges
  | fuel + 1, some bucket =>
    match t.load bucket with
    | none => .error .outOfBounds
    | some b => (readLoop Sentinel t fuel b.nextPtr).map (b.entries Sentinel ++ ·)

/-- What the chain of directory bucket `i` holds. -/
def contents (Sentinel : Key) (t : ChainedTable Key Payload BucketSize m) (i : ℕ) :
    Except Fault (List (Key × Payload)) :=
  readLoop Sentinel t (t.tape.cells.length + 1) (some (.directory i))

theorem readLoop_eq {Sentinel : Key} {t : ChainedTable Key Payload BucketSize m}
    {l : List (Ptr × Bucket Key Payload BucketSize)} {p : Option Ptr} {fuel : ℕ}
    (hlinked : Linked t.load Bucket.nextPtr p l) (hfuel : l.length ≤ fuel) :
    readLoop Sentinel t fuel p = .ok (pairs Sentinel l) := by
  induction l generalizing p fuel with
  | nil => rw [hlinked, readLoop]; rfl
  | cons x l ih =>
    obtain ⟨rfl, hload, hrest⟩ := hlinked
    cases fuel with
    | zero => cases hfuel
    | succ fuel =>
      rw [readLoop, hload]
      simp only [ih hrest (Nat.le_of_succ_le_succ hfuel)]
      rfl

theorem lookupLoop_eq {Sentinel key : Key} (hkey : key ≠ Sentinel)
    {t : ChainedTable Key Payload BucketSize m} {l : List (Ptr × Bucket Key Payload BucketSize)}
    {p : Option Ptr} {fuel : ℕ} (hlinked : Linked t.load Bucket.nextPtr p l)
    (hprefixes : ∀ x ∈ l, FilledPrefix Sentinel x.2.keys) (hfuel : l.length ≤ fuel) :
    lookupLoop Sentinel key t fuel p
      = .ok (if key ∈ (pairs Sentinel l).map Prod.fst then 1 else 0) := by
  induction l generalizing p fuel with
  | nil => rw [hlinked, lookupLoop]; rfl
  | cons x l ih =>
    obtain ⟨rfl, hload, hrest⟩ := hlinked
    cases fuel with
    | zero => cases hfuel
    | succ fuel =>
      have hprobe := Bucket.probe_iff (hprefixes x List.mem_cons_self) hkey
      have hcons : key ∈ (pairs Sentinel (x :: l)).map Prod.fst ↔
          key ∈ (x.2.entries Sentinel).map Prod.fst ∨ key ∈ (pairs Sentinel l).map Prod.fst := by
        simp [pairs, List.flatMap_cons]
      rw [lookupLoop, hload]
      simp only [hcons, ← hprobe]
      cases hb : x.2.probe Sentinel key with
      | true => simp
      | false =>
        simp only [Bool.false_eq_true, if_false, false_or]
        exact ih hrest (fun y hy => hprefixes y (List.mem_cons_of_mem _ hy))
          (Nat.le_of_succ_le_succ hfuel)

section
variable [Inhabited Payload] {Sentinel : Key} {sizeofBucket : ℕ} {index : Key → ℕ}
  {chain : ℕ → List (Ptr × Bucket Key Payload BucketSize)} {data : List (Key × Payload)}
  {t : ChainedTable Key Payload BucketSize m}

/-- A chain holds the pairs inserted with its directory index, in the order of the inserts. -/
theorem Built.contents_eq (h : Built Sentinel sizeofBucket index chain data t) {i : ℕ} (hi : i < m) :
    t.contents Sentinel i = .ok (data.filter fun d => index d.1 = i) := by
  rw [contents, readLoop_eq (h.linked i hi) (h.length_le hi), h.holds i hi]

/-- A lookup sees the keys inserted with the directory index it starts from. -/
theorem Built.lookup_eq (h : Built Sentinel sizeofBucket index chain data t)
    {lookupIndex : Key → ℕ} {q : Key} (hi : lookupIndex q < m) (hq : q ≠ Sentinel) :
    t.operatorSubscript Sentinel lookupIndex q = .ok
      (if q ∈ (data.filter fun d => index d.1 = lookupIndex q).map Prod.fst then 1 else 0) := by
  rw [operatorSubscript, lookupLoop_eq hq (h.linked _ hi) (h.prefixes _ hi) (h.length_le hi),
    h.holds _ hi]

/-- With a segment size of zero the first pair too many for its directory bucket is written through
    a pointer to no bucket. -/
theorem insertAll_threw [NeZero BucketSize] {d : Key × Payload}
    (hkeys : ∀ e ∈ data ++ [d], e.1 ≠ Sentinel) (hindex : ∀ e ∈ data ++ [d], index e.1 < m)
    (hzero : Tape.nextTapeSegmentSize sizeofBucket = 0)
    (hfits : ∀ i, (data.filter fun e => index e.1 = i).length ≤ BucketSize)
    (hfull : (data.filter fun e => index e.1 = index d.1).length = BucketSize) :
    ∃ t : ChainedTable Key Payload BucketSize m,
      insertAll (insert Sentinel sizeofBucket index) (data ++ [d]) (empty Sentinel)
        = .threw .outOfBounds t := by
  have hkeys' : ∀ e ∈ data, e.1 ≠ Sentinel := fun e he => hkeys e (List.mem_append_left _ he)
  have hindex' : ∀ e ∈ data, index e.1 < m := fun e he => hindex e (List.mem_append_left _ he)
  obtain ⟨t, ht⟩ : ∃ t : ChainedTable Key Payload BucketSize m,
      insertAll (insert Sentinel sizeofBucket index) data (empty Sentinel) = .returned t :=
    exists_insertAll hkeys' hindex' (Or.inr hfits)
  obtain ⟨⟨chain, hbuilt⟩, -⟩ := built_of_insertAll hkeys' hindex' ht
  have hd : d ∈ data ++ [d] := by simp
  rcases hbuilt.insert_cases (hindex d hd) (hkeys d hd) d.2 with ⟨hroom, -⟩ | ⟨-, t', ht'⟩
  · omega
  · refine ⟨t', ?_⟩
    rw [insertAll] at ht ⊢
    rw [Outcome.runAll_append, ht, Outcome.andThen_returned, Outcome.runAll_cons, ht',
      Outcome.andThen_threw]

end

/-- The table holds and finds exactly the pairs `data`: each chain those of its directory index, in
    order, and each lookup its key. -/
def HoldsExactly (Sentinel : Key) (index : Key → ℕ) (data : List (Key × Payload))
    (t : ChainedTable Key Payload BucketSize m) : Prop :=
  (∀ i < m, t.contents Sentinel i = .ok (data.filter fun d => index d.1 = i)) ∧
  ∀ q, q ≠ Sentinel →
    t.operatorSubscript Sentinel index q = .ok (if q ∈ data.map Prod.fst then 1 else 0)

theorem Built.holdsExactly [Inhabited Payload] {Sentinel : Key} {sizeofBucket : ℕ} {index : Key → ℕ}
    {chain : ℕ → List (Ptr × Bucket Key Payload BucketSize)} {data : List (Key × Payload)}
    {t : ChainedTable Key Payload BucketSize m} (h : Built Sentinel sizeofBucket index chain data t)
    (hindex : ∀ q, index q < m) : HoldsExactly Sentinel index data t := by
  refine ⟨fun i hi => h.contents_eq hi, fun q hq => ?_⟩
  have hmem : q ∈ (data.filter fun d => index d.1 = index q).map Prod.fst ↔
      q ∈ data.map Prod.fst := by
    simp only [List.mem_map, List.mem_filter, decide_eq_true_eq]
    constructor
    · rintro ⟨d, ⟨hd, -⟩, hdq⟩
      exact ⟨d, hd, hdq⟩
    · rintro ⟨d, hd, rfl⟩
      exact ⟨d, ⟨hd, rfl⟩, rfl⟩
  rw [h.lookup_eq (hindex q) hq]
  simp only [hmem]

end ChainedTable

open ChainedTable
variable {Key Payload : Type} [DecidableEq Key] [Inhabited Payload] {BucketSize m : ℕ}
  [NeZero BucketSize]

/-! ### The table of `chained.hpp` -/

/-- A bucket of 262144 pairs of 64-bit integers is larger than a tape segment. -/
theorem chained_hash_table_overflows_tape :
    let hashfn : HashFn UInt64 := ⟨fun _ => 0, "zero"⟩
    let data : List (UInt64 × UInt64) := List.replicate 262144 (1, 0) ++ [(1, 0)]
    let Sentinel : UInt64 := 18446744073709551615
    (∀ d ∈ data, d.1 ≠ Sentinel) ∧
    (∃ t : KapilChainedHashTable UInt64 UInt64 262144 1,
      insertAll (KapilChainedHashTable.insert Sentinel 4194312 hashfn) data
        (ChainedTable.empty Sentinel) = .threw .outOfBounds t) ∧
    ¬ ∃ t : KapilChainedHashTable UInt64 UInt64 262144 1,
      insertAll (KapilChainedHashTable.insert Sentinel 4194312 hashfn) data
        (ChainedTable.empty Sentinel) = .returned t ∧
      HoldsExactly Sentinel (KapilChainedHashTable.index hashfn 1) data t := by
  intro hashfn data Sentinel
  have hkeys : ∀ d ∈ data, d.1 ≠ Sentinel := by
    intro d hd
    rcases List.mem_append.mp hd with hd | hd
    · rw [List.eq_of_mem_replicate hd]; decide
    · rw [List.mem_singleton.mp hd]; decide
  have hindex : ∀ q, KapilChainedHashTable.index hashfn 1 q = 0 := fun q => Nat.mod_one _
  have hthrew : ∃ t : KapilChainedHashTable UInt64 UInt64 262144 1,
      insertAll (KapilChainedHashTable.insert Sentinel 4194312 hashfn) data
        (ChainedTable.empty Sentinel) = .threw .outOfBounds t := by
    refine insertAll_threw hkeys (fun d _ => by rw [hindex]; exact one_pos) (by decide)
      (fun i => ?_) ?_
    · exact (List.length_filter_le _ _).trans (by rw [List.length_replicate])
    · rw [List.filter_eq_self.mpr fun d _ => by simp [hindex]]
      exact List.length_replicate
  refine ⟨hkeys, hthrew, ?_⟩
  rintro ⟨t, hrun, -⟩
  obtain ⟨t', hrun'⟩ := hthrew
  cases hrun.symm.trans hrun'

/-- CORRECT: the chained table loses and invents nothing exactly if a tape segment has room for a
    bucket, or no directory bucket receives more pairs than it has slots. -/
theorem chained_hash_table_loses_nothing_iff [NeZero m] (hashfn : HashFn Key) (Sentinel : Key)
    (sizeofBucket : ℕ) [NeZero sizeofBucket] (data : List (Key × Payload))
    (hdata : ∀ d ∈ data, d.1 ≠ Sentinel) :
    (∃ t : KapilChainedHashTable Key Payload BucketSize m,
      insertAll (KapilChainedHashTable.insert Sentinel sizeofBucket hashfn) data
        (ChainedTable.empty Sentinel) = .returned t ∧
      HoldsExactly Sentinel (KapilChainedHashTable.index hashfn m) data t) ↔
    sizeofBucket ≤ 4194304 ∨ ∀ i < m,
      (data.filter fun d => KapilChainedHashTable.index hashfn m d.1 = i).length ≤ BucketSize := by
  have hindex : ∀ q, KapilChainedHashTable.index hashfn m q < m := fun q =>
    Nat.mod_lt _ (NeZero.pos m)
  rw [← fits_iff fun d _ => hindex d.1]
  constructor
  · rintro ⟨t, hrun, -⟩
    exact (built_of_insertAll hdata (fun d _ => hindex d.1) hrun).2
  · intro h
    obtain ⟨t, hrun⟩ := exists_insertAll hdata (fun d _ => hindex d.1) h
    obtain ⟨⟨chain, hbuilt⟩, -⟩ := built_of_insertAll hdata (fun d _ => hindex d.1) hrun
    exact ⟨t, hrun, hbuilt.holdsExactly hindex⟩

/-- A chain of three buckets over two tape segments, with a key inserted twice. -/
theorem chained_hash_table_loses_nothing_iff_three_buckets :
    let hashfn : HashFn UInt64 := ⟨id, "identity"⟩
    let data : List (UInt64 × UInt64) := [(1, 10), (3, 30), (2, 20), (3, 31)]
    ∃ t : KapilChainedHashTable UInt64 UInt64 1 2,
      insertAll (KapilChainedHashTable.insert 0 4194304 hashfn) data
        (ChainedTable.empty 0) = .returned t ∧
      HoldsExactly 0 (KapilChainedHashTable.index hashfn 2) data t :=
  (chained_hash_table_loses_nothing_iff _ 0 4194304 _ (by simp)).mpr (Or.inl (le_refl _))

/-! ### The table of `chained_model.hpp` -/

namespace KapilChainedModelHashTable

omit [DecidableEq Key] in
/-- The insert's directory index is below the model's prediction, unless that is zero. -/
theorem insertIndex_lt {model : Model Key} {key : Key} (h : model key ≠ 0) :
    insertIndex model key < (model key).toNat := by
  refine Binary64.toNat_div_ofNat_lt (by norm_num) (Nat.pos_of_ne_zero fun hzero => h ?_)
  exact UInt64.toNat_inj.mp hzero

omit [DecidableEq Key] in
theorem insertIndex_eq_zero {model : Model Key} {key : Key} (h : model key = 0) :
    insertIndex model key = 0 := by
  rw [insertIndex, h]; exact Binary64.toNat_div_ofNat_zero _

omit [DecidableEq Key] in
theorem insertIndex_lt_of_lt {model : Model Key} {key : Key} (h : (model key).toNat < m) :
    insertIndex model key < m := by
  by_cases hzero : model key = 0
  · rw [insertIndex_eq_zero hzero]; exact Nat.zero_lt_of_lt h
  · exact (insertIndex_lt hzero).trans h

/-- The lookup law of the table after the inserts `data`. -/
def FindsExactly (Sentinel : Key) (model : Model Key) (data : List (Key × Payload))
    (t : KapilChainedModelHashTable Key Payload BucketSize m) : Prop :=
  ∀ q, q ≠ Sentinel →
    operatorSubscript Sentinel model t q = .ok (if q ∈ data.map Prod.fst then 1 else 0)

/-- After inserts that return, the law holds exactly if the model predicts 0 for every key. -/
theorem findsExactly_iff {Sentinel : Key} {sizeofBucket : ℕ} {model : Model Key}
    (hmodel : ∀ key, (model key).toNat < m) {data : List (Key × Payload)}
    (hdata : ∀ d ∈ data, d.1 ≠ Sentinel)
    {t : KapilChainedModelHashTable Key Payload BucketSize m}
    (hrun : insertAll (insert Sentinel sizeofBucket model) data (ChainedTable.empty Sentinel)
      = .returned t) :
    FindsExactly Sentinel model data t ↔ ∀ d ∈ data, model d.1 = 0 := by
  obtain ⟨⟨chain, hbuilt⟩, -⟩ := built_of_insertAll hdata
    (fun d _ => insertIndex_lt_of_lt (hmodel d.1)) hrun
  have hlookup : ∀ q, q ≠ Sentinel → operatorSubscript Sentinel model t q = .ok
      (if q ∈ (data.filter fun d => insertIndex model d.1 = (model q).toNat).map Prod.fst
        then 1 else 0) := fun q hq => hbuilt.lookup_eq (hmodel q) hq
  constructor
  · intro h d hd
    by_contra hne
    -- the key is in the chain of a smaller index than the one it is looked up in
    have hmem : d.1 ∈ data.map Prod.fst := List.mem_map_of_mem hd
    have hnot : d.1 ∉ (data.filter fun e => insertIndex model e.1 = (model d.1).toNat).map
        Prod.fst := by
      intro hin
      obtain ⟨e, he, hed⟩ := List.mem_map.mp hin
      have heq := of_decide_eq_true (List.mem_filter.mp he).2
      rw [hed] at heq
      exact (insertIndex_lt hne).ne heq
    have hd1 := h d.1 (hdata d hd)
    rw [hlookup d.1 (hdata d hd), if_pos hmem, if_neg hnot] at hd1
    cases hd1
  · intro hzero q hq
    have hmem : q ∈ (data.filter fun d => insertIndex model d.1 = (model q).toNat).map Prod.fst ↔
        q ∈ data.map Prod.fst := by
      simp only [List.mem_map, List.mem_filter, decide_eq_true_eq]
      constructor
      · rintro ⟨d, ⟨hd, -⟩, hdq⟩
        exact ⟨d, hd, hdq⟩
      · rintro ⟨d, hd, rfl⟩
        refine ⟨d, ⟨hd, ?_⟩, rfl⟩
        rw [insertIndex_eq_zero (hzero d hd), hzero d hd]; rfl
    rw [hlookup q hq]
    simp only [hmem]

end KapilChainedModelHashTable

open KapilChainedModelHashTable

/-- A key with prediction 1 is stored in directory bucket 0 and looked for in directory bucket 1. -/
theorem chained_model_table_misses_key :
    let model : Model UInt64 := ⟨fun _ => 1, "one"⟩
    let data : List (UInt64 × UInt64) := [(5, 50)]
    (∀ key, (model key).toNat < 2) ∧ (∀ d ∈ data, d.1 ≠ 0) ∧
    ¬ ∃ t : KapilChainedModelHashTable UInt64 UInt64 1 2,
      insertAll (KapilChainedModelHashTable.insert 0 64 model) data
        (ChainedTable.empty 0) = .returned t ∧
      FindsExactly 0 model data t := by
  intro model data
  have hmodel : ∀ key, (model key).toNat < 2 := fun _ => Nat.one_lt_two
  have hdata : ∀ d ∈ data, d.1 ≠ 0 := by simp [data]
  refine ⟨hmodel, hdata, ?_⟩
  rintro ⟨t, hrun, hfinds⟩
  have hzero := (findsExactly_iff hmodel hdata hrun).mp hfinds
  exact absurd (hzero (5, 50) (by decide)) (by decide)

/-- CORRECT: the chained model table finds what it stores exactly if the model predicts directory
    bucket 0 for every inserted key, and that bucket's chain fits. -/
theorem chained_model_table_finds_iff (model : Model Key) (hmodel : ∀ key, (model key).toNat < m)
    (Sentinel : Key) (sizeofBucket : ℕ) [NeZero sizeofBucket] (data : List (Key × Payload))
    (hdata : ∀ d ∈ data, d.1 ≠ Sentinel) :
    (∃ t : KapilChainedModelHashTable Key Payload BucketSize m,
      insertAll (KapilChainedModelHashTable.insert Sentinel sizeofBucket model) data
        (ChainedTable.empty Sentinel) = .returned t ∧
      FindsExactly Sentinel model data t) ↔
    (∀ d ∈ data, model d.1 = 0) ∧ (sizeofBucket ≤ 4194304 ∨ data.length ≤ BucketSize) := by
  have hindex : ∀ d ∈ data, insertIndex model d.1 < m := fun d _ =>
    insertIndex_lt_of_lt (hmodel d.1)
  -- with all pairs in chain 0, what has to fit is the whole of the data
  have hfits : (∀ d ∈ data, model d.1 = 0) →
      (Fits BucketSize sizeofBucket (insertIndex model) data ↔
        sizeofBucket ≤ 4194304 ∨ data.length ≤ BucketSize) := by
    intro hzero
    rw [Fits, segment_size_pos_iff]
    refine or_congr_right ⟨fun h => ?_, fun h i => (List.length_filter_le _ _).trans h⟩
    have hall := h 0
    rwa [List.filter_eq_self.mpr fun d hd => by simp [insertIndex_eq_zero (hzero d hd)]] at hall
  constructor
  · rintro ⟨t, hrun, hfinds⟩
    have hzero := (findsExactly_iff hmodel hdata hrun).mp hfinds
    exact ⟨hzero, (hfits hzero).mp (built_of_insertAll hdata hindex hrun).2⟩
  · rintro ⟨hzero, h⟩
    obtain ⟨t, hrun⟩ := exists_insertAll hdata hindex ((hfits hzero).mpr h)
    exact ⟨t, hrun, (findsExactly_iff hmodel hdata hrun).mpr hzero⟩

/-- A model that predicts 0 everywhere, and a chain of two buckets. -/
theorem chained_model_table_finds_iff_two_buckets :
    let model : Model UInt64 := ⟨fun _ => 0, "zero"⟩
    let data : List (UInt64 × UInt64) := [(5, 50), (6, 60)]
    ∃ t : KapilChainedModelHashTable UInt64 UInt64 1 2,
      insertAll (KapilChainedModelHashTable.insert 0 64 model) data
        (ChainedTable.empty 0) = .returned t ∧
      FindsExactly 0 model data t :=
  (chained_model_table_finds_iff _ (fun _ => Nat.zero_lt_two) 0 64 _ (by simp)).mpr
    ⟨by simp, Or.inl (by decide)⟩

end HashingBenchmark
