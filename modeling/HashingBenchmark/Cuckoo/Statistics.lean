import HashingBenchmark.Cuckoo.Correct

/-! The two statistics of the cuckoo tables.

    `print_data_statistics` walks over the directory and counts the keys, and those among them that
    are in their primary bucket; `lookup_statistics` looks into the primary bucket of every key of a
    dataset. On the keys of the table both count the same (`Sound.printDataStatistics_eq`). -/

namespace HashingBenchmark
open SlotArray

namespace CuckooTable
variable {Key Payload : Type} {BucketSize m : ℕ} [DecidableEq Key] [NeZero m]

/-- `primary_key_cnt` and `total_cnt` of `print_data_statistics`. -/
def printDataStatistics (primary : Key → UInt64) (Sentinel : Key)
    (t : CuckooTable Key Payload BucketSize m) : ℕ × ℕ :=
  (visited Sentinel t.keys).foldl (fun (primary_key_cnt, total_cnt) p =>
    (if i1 primary m (t.keys p.1 p.2) = p.1 then primary_key_cnt + 1 else primary_key_cnt,
      total_cnt + 1)) (0, 0)

/-- `primary_key_cnt` of `lookup_statistics`. -/
def lookupStatistics (primary : Key → UInt64) (dataset : List Key)
    (t : CuckooTable Key Payload BucketSize m) : ℕ :=
  dataset.foldl (fun primary_key_cnt key => (List.finRange BucketSize).foldl
    (fun primary_key_cnt i => if t.keys (i1 primary m key) i = key then primary_key_cnt + 1
      else primary_key_cnt) primary_key_cnt) 0

/-! ### The loops as counts -/

theorem foldl_count {α : Type*} (c : α → Prop) [DecidablePred c] (l : List α) (n : ℕ) :
    l.foldl (fun n a => if c a then n + 1 else n) n = n + l.countP c := by
  induction l generalizing n with
  | nil => rfl
  | cons a l ih =>
    rw [List.foldl_cons, ih, List.countP_cons]
    by_cases h : c a
    · simp only [h, if_true, decide_true]
      omega
    · simp [h]

theorem foldl_count_total {α : Type*} (c : α → Prop) [DecidablePred c] (l : List α) (n : ℕ × ℕ) :
    l.foldl (fun (x, y) a => (if c a then x + 1 else x, y + 1)) n
      = (n.1 + l.countP c, n.2 + l.length) := by
  induction l generalizing n with
  | nil => rfl
  | cons a l ih =>
    rw [List.foldl_cons, ih, List.countP_cons, List.length_cons]
    by_cases h : c a
    · simp only [h, if_true, decide_true, Prod.mk.injEq]
      omega
    · simp only [h, if_false, decide_false, Prod.mk.injEq, Bool.false_eq_true]
      omega

variable {primary secondary : Key → UInt64} {Sentinel : Key} {M : Key → Option Payload}
  {t : CuckooTable Key Payload BucketSize m}

/-- The key is in its primary bucket. -/
def InPrimary (primary : Key → UInt64) (t : CuckooTable Key Payload BucketSize m) (key : Key) : Prop :=
  ∃ i, t.keys (i1 primary m key) i = key

instance (key : Key) : Decidable (t.InPrimary primary key) :=
  inferInstanceAs (Decidable (∃ i, t.keys (i1 primary m key) i = key))

/-- The keys that the walk over the directory comes to. -/
def visitedKeys (Sentinel : Key) (t : CuckooTable Key Payload BucketSize m) : List Key :=
  (visited Sentinel t.keys).map fun p => t.keys p.1 p.2

/-- They are the keys of the map, each once. -/
theorem Sound.visitedKeys_perm (h : Sound primary secondary Sentinel M t) {dataset : List Key}
    (hnodup : dataset.Nodup) (hdataset : ∀ k, k ∈ dataset ↔ k ≠ Sentinel ∧ (M k).isSome) :
    (t.visitedKeys Sentinel).Perm dataset := by
  have hnodup' : (t.visitedKeys Sentinel).Nodup :=
    List.Nodup.map_on (fun p hp q _ heq => h.represents.unique p q heq
      ((mem_visited h.prefixes).mp hp)) (nodup_visited Sentinel t.keys)
  refine (List.perm_ext_iff_of_nodup hnodup' hnodup).mpr fun k => ?_
  rw [hdataset, visitedKeys, List.mem_map]
  constructor
  · rintro ⟨p, hp, rfl⟩
    have hne : t.keys p.1 p.2 ≠ Sentinel := (mem_visited h.prefixes).mp hp
    exact ⟨hne, (h.represents.stored_iff hne).mpr ⟨p, rfl⟩⟩
  · rintro ⟨hne, hsome⟩
    obtain ⟨p, rfl⟩ := (h.represents.stored_iff hne).mp hsome
    exact ⟨p, (mem_visited h.prefixes).mpr hne, rfl⟩

/-- The walk over the directory counts the keys of the map. -/
theorem Sound.printDataStatistics_eq (h : Sound primary secondary Sentinel M t) {dataset : List Key}
    (hnodup : dataset.Nodup) (hdataset : ∀ k, k ∈ dataset ↔ k ≠ Sentinel ∧ (M k).isSome) :
    t.printDataStatistics primary Sentinel
      = (dataset.countP fun k => t.InPrimary primary k, dataset.length) := by
  have hperm := h.visitedKeys_perm hnodup hdataset
  rw [printDataStatistics, foldl_count_total (fun p : Fin m × Fin BucketSize =>
    i1 primary m (t.keys p.1 p.2) = p.1), Nat.zero_add, Nat.zero_add, ← hperm.countP_eq,
    ← hperm.length_eq, visitedKeys, List.countP_map, List.length_map]
  congr 1
  refine List.countP_congr fun p hp => ?_
  have hne : t.keys p.1 p.2 ≠ Sentinel := (mem_visited h.prefixes).mp hp
  simp only [decide_eq_true_eq, Function.comp_apply]
  constructor
  · intro hi
    exact ⟨p.2, by rw [hi]⟩
  · rintro ⟨i, hi⟩
    -- the key is in one slot only
    have hslot := h.represents.unique (i1 primary m (t.keys p.1 p.2), i) p hi (by
      change t.keys _ i ≠ Sentinel
      rwa [hi])
    exact congrArg Prod.fst hslot

/-- So does the loop over the dataset. -/
theorem Sound.lookupStatistics_eq (h : Sound primary secondary Sentinel M t) {dataset : List Key}
    (hdataset : ∀ k ∈ dataset, k ≠ Sentinel) :
    t.lookupStatistics primary dataset = dataset.countP fun k => t.InPrimary primary k := by
  have hone : ∀ k ∈ dataset, (List.finRange BucketSize).countP
      (fun i => t.keys (i1 primary m k) i = k) = if t.InPrimary primary k then 1 else 0 := by
    intro k hk
    split_ifs with hin
    · obtain ⟨i, hi⟩ := hin
      have hiff : ∀ j, t.keys (i1 primary m k) j = k ↔ j = i := by
        refine fun j => ⟨fun hj => ?_, fun hj => hj ▸ hi⟩
        have hslot := h.represents.unique (i1 primary m k, j) (i1 primary m k, i) (hj.trans hi.symm)
          (by change t.keys _ j ≠ Sentinel; rw [hj]; exact hdataset k hk)
        exact congrArg Prod.snd hslot
      simp only [hiff]
      have hcount := List.count_eq_one_of_mem (List.nodup_finRange BucketSize) (List.mem_finRange i)
      rw [List.count_eq_countP] at hcount
      rw [← hcount]
      exact List.countP_congr fun j _ => by simp
    · exact List.countP_eq_zero.mpr fun i _ => by
        simpa using fun hi => hin ⟨i, hi⟩
  have hsum : ∀ (l : List Key) (n : ℕ), (∀ k ∈ l, k ∈ dataset) → l.foldl (fun n k =>
      (List.finRange BucketSize).foldl (fun n i => if t.keys (i1 primary m k) i = k then n + 1
        else n) n) n = n + l.countP fun k => t.InPrimary primary k := by
    intro l
    induction l with
    | nil => exact fun n _ => rfl
    | cons k l ih =>
      intro n hl
      rw [List.foldl_cons, foldl_count (fun i => t.keys (i1 primary m k) i = k),
        hone k (hl k List.mem_cons_self), ih _ fun k' hk' => hl k' (List.mem_cons_of_mem k hk'),
        List.countP_cons]
      simp only [decide_eq_true_eq]
      omega
  rw [lookupStatistics, hsum dataset 0 fun _ hk => hk, Nat.zero_add]

/-- After a run that returns both statistics count the same. -/
theorem printDataStatistics_of_insertAll [Inhabited Payload] [NeZero BucketSize]
    {kickingfn : KickingFn} {rand_ : Stream' UInt32} {data : List (Key × Payload)}
    (hdata : ∀ d ∈ data, d.1 ≠ Sentinel) {dataset : List Key} (hnodup : dataset.Nodup)
    (hdataset : ∀ k, k ∈ dataset ↔ ∃ d ∈ data, d.1 = k)
    (hrun : insertAll (CuckooTable.insert kickingfn primary secondary Sentinel) data
      (empty Sentinel rand_) = .returned t) :
    t.printDataStatistics primary Sentinel = (t.lookupStatistics primary dataset, dataset.length) := by
  have h : Sound primary secondary Sentinel (lastWrite data) t := sound_of_insertAll hdata hrun
  have hne : ∀ k ∈ dataset, k ≠ Sentinel := by
    intro k hk
    obtain ⟨d, hd, rfl⟩ := (hdataset k).mp hk
    exact hdata d hd
  rw [h.lookupStatistics_eq hne, h.printDataStatistics_eq hnodup fun k => ?_]
  rw [lastWrite_isSome_iff, ← hdataset]
  exact ⟨fun hk => ⟨hne k hk, hk⟩, fun hk => hk.2⟩

end CuckooTable

open CuckooTable

/-- CORRECT: for each cuckoo class, every kicking strategy and all random numbers, after inserts that
    do not throw `print_data_statistics` counts every key once, and those in their primary bucket as
    `lookup_statistics` of all keys does. -/
theorem cuckoo_statistics_agree {Key Payload : Type} [DecidableEq Key] [OfNat Key 408957]
    [Inhabited Payload] {BucketSize m : ℕ} [NeZero BucketSize] [NeZero m] (kickingfn : KickingFn)
    (rand_ : Stream' UInt32) (Sentinel : Key) (data : List (Key × Payload))
    (hdata : ∀ d ∈ data, d.1 ≠ Sentinel) (dataset : List Key) (hnodup : dataset.Nodup)
    (hdataset : ∀ k, k ∈ dataset ↔ ∃ d ∈ data, d.1 = k) :
    (∀ (hashfn1 hashfn2 : HashFn Key) (t : KapilCuckooHashTable Key Payload BucketSize m),
      insertAll (KapilCuckooHashTable.insert kickingfn hashfn1 hashfn2 Sentinel) data
        (CuckooTable.empty Sentinel rand_) = .returned t →
      t.printDataStatistics hashfn1 Sentinel = (t.lookupStatistics hashfn1 dataset, dataset.length)) ∧
    (∀ (model : Model Key) (hashfn2 : HashFn Key)
      (t : KapilCuckooModelHashTable Key Payload BucketSize m),
      insertAll (KapilCuckooModelHashTable.insert kickingfn model hashfn2 Sentinel) data
        (CuckooTable.empty Sentinel rand_) = .returned t →
      t.printDataStatistics model Sentinel = (t.lookupStatistics model dataset, dataset.length)) ∧
    (∀ (mmphf hashfn2 : HashFn Key) (t : KapilCuckooExoticHashTable Key Payload BucketSize m),
      insertAll (KapilCuckooExoticHashTable.insert kickingfn mmphf hashfn2 Sentinel) data
        (CuckooTable.empty Sentinel rand_) = .returned t →
      t.printDataStatistics mmphf Sentinel = (t.lookupStatistics mmphf dataset, dataset.length)) :=
  ⟨fun _ _ _ hrun => printDataStatistics_of_insertAll hdata hnodup hdataset hrun,
    fun _ _ _ hrun => printDataStatistics_of_insertAll hdata hnodup hdataset hrun,
    fun _ _ _ hrun => printDataStatistics_of_insertAll hdata hnodup hdataset hrun⟩

/-- Three keys, one of them in its secondary bucket. -/
theorem cuckoo_statistics_agree_secondary :
    let model : Model UInt64 := ⟨id, "identity"⟩
    let flip : HashFn UInt64 := ⟨fun key => 1 ^^^ key, "flip"⟩
    let data : List (UInt64 × UInt64) := [(12, 120), (8, 80), (6, 60), (6, 61)]
    let t : KapilCuckooModelHashTable UInt64 UInt64 1 4 :=
      (insertAll (KapilCuckooModelHashTable.insert .KapilBalancedKicking model flip 0) data
        (CuckooTable.empty 0 (Stream'.const 1))).state
    t.printDataStatistics model 0 = (t.lookupStatistics model [12, 8, 6], 3) ∧
      t.lookupStatistics model [12, 8, 6] = 2 := by
  intro model flip data t
  have hdataset : ∀ k : UInt64, k ∈ [12, 8, 6] ↔ ∃ d ∈ data, d.1 = k := by
    intro k
    simp [data, eq_comm]
  refine ⟨?_, by decide⟩
  exact (cuckoo_statistics_agree .KapilBalancedKicking (Stream'.const 1) 0 data
    (by simp [data]) [12, 8, 6] (by simp) hdataset).2.1 model flip t
    (Outcome.eq_returned_state (by decide +kernel))

end HashingBenchmark
