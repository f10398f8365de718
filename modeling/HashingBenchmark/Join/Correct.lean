import HashingBenchmark.Chained.Correct
import HashingBenchmark.Cuckoo.Correct
import HashingBenchmark.Join.Size
import HashingBenchmark.Probe.Correct

/-! The hash join counts the join.

    Three facts meet here. Whatever the scheme, a search in the table is membership in the keys of R
    (`search_cases`). The slices of the threads, read one after the other, are the relation S
    (`window_initialize`). And the number of joining pairs is the number of tuples of S whose
    key is in R, since no key is twice in R (`joinSize_eq`). The probe loop skips the Sentinel, which
    is no key of R. -/

namespace HashingBenchmark
namespace Join

/-! ### The slices -/

/-- The tuples of a slice. -/
def window (tuples : List Tuple) (s : Slice) : List Tuple :=
  (tuples.drop s.offset).take s.num_tuples

/-- The slices from thread `i` on lie in the relation and are what follows the earlier slices. -/
theorem window_threadArgsLoop {T p q i numR numS : ℕ} {tuples : List Tuple} {threads : ℕ}
    (hpos : 0 < threads) (hi : i + threads = T) (hq : q * T ≤ tuples.length)
    (hnum : numS = tuples.length - q * i) :
    (∀ args ∈ threadArgsLoop T p q threads i numR numS,
      args.relS.offset + args.relS.num_tuples ≤ tuples.length) ∧
    (threadArgsLoop T p q threads i numR numS).flatMap (fun args => window tuples args.relS)
      = tuples.drop (q * i) := by
  induction threads generalizing i numR numS with
  | zero => omega
  | succ threads ih =>
    have hqi : q * i + q ≤ tuples.length := by
      calc q * i + q = q * (i + 1) := (Nat.mul_succ q i).symm
        _ ≤ q * T := Nat.mul_le_mul_left q (by omega)
        _ ≤ tuples.length := hq
    rw [threadArgsLoop, List.flatMap_cons]
    rcases Nat.eq_zero_or_pos threads with rfl | hmore
    · -- the last thread takes the rest
      have hlast : i = T - 1 := by omega
      simp only [if_pos hlast, threadArgsLoop, List.flatMap_nil, List.append_nil, hnum]
      refine ⟨fun args hargs => ?_, ?_⟩
      · rw [List.mem_singleton.mp hargs]
        simp only; omega
      · exact List.take_of_length_le (by rw [List.length_drop])
    · have hnext : i ≠ T - 1 := by omega
      have hnum' : numS - q = tuples.length - q * (i + 1) := by rw [hnum, Nat.mul_succ]; omega
      obtain ⟨hbounds, hread⟩ := @ih (i + 1) (numR - p) (numS - q) hmore (by omega) hnum'
      simp only [if_neg hnext]
      refine ⟨fun args hargs => ?_, ?_⟩
      · rcases List.mem_cons.mp hargs with rfl | hargs
        · exact hqi
        · exact hbounds args hargs
      · rw [hread, window, Nat.mul_succ, ← List.drop_drop, List.take_append_drop]

/-- The slices of the threads lie in S and together are S. -/
theorem window_initialize {NUM_THREADS : ℕ} (hthreads : 1 ≤ NUM_THREADS) (rel_r rel_s : Relation) :
    (∀ args ∈ initializeInljJoinThreadArgs NUM_THREADS rel_r rel_s,
      args.relS.offset + args.relS.num_tuples ≤ rel_s.tuples.length) ∧
    (initializeInljJoinThreadArgs NUM_THREADS rel_r rel_s).flatMap
      (fun args => window rel_s.tuples args.relS) = rel_s.tuples := by
  have hall := @window_threadArgsLoop NUM_THREADS (rel_r.tuples.length / NUM_THREADS)
    (rel_s.tuples.length / NUM_THREADS) 0 rel_r.tuples.length rel_s.tuples.length rel_s.tuples
    NUM_THREADS hthreads (Nat.zero_add _) (Nat.div_mul_le_self _ _) (by rw [Nat.mul_zero]; rfl)
  rwa [Nat.mul_zero, List.drop_zero] at hall

/-! ### The tables -/

variable {BUCKET_SIZE m : ℕ} [NeZero m]

/-- Whatever the scheme, a search in the table is membership in the keys inserted. -/
theorem search_cases [NeZero BUCKET_SIZE] {cfg : Config} {data : List (UInt32 × UInt32)}
    (hdata : ∀ d ∈ data, d.1 ≠ Sentinel) {ht : HashTable BUCKET_SIZE m}
    (hbuild : build cfg data = .ok ht) {q : UInt32} (hq : q ≠ Sentinel) :
    ∃ found, ht.search cfg q = .ok found ∧ (found ≠ 0 ↔ q ∈ data.map Prod.fst) := by
  rw [build] at hbuild
  cases hscheme : cfg.scheme with
  | CHAINTRADITIONAL =>
    simp only [hscheme] at hbuild
    split at hbuild
    · rename_i t hrun
      obtain rfl := Except.ok.inj hbuild
      have hindex : ∀ q, KapilChainedHashTable.index cfg.hashFun m q < m := fun q =>
        Nat.mod_lt _ (NeZero.pos m)
      obtain ⟨⟨chain, hbuilt⟩, -⟩ := ChainedTable.built_of_insertAll hdata
        (fun d _ => hindex d.1) hrun
      refine ⟨_, (hbuilt.holdsExactly hindex).2 q hq, ?_⟩
      split_ifs with hmem
      · exact iff_of_true one_ne_zero hmem
      · exact iff_of_false (fun h => h rfl) hmem
    · cases hbuild
  | PROBETRADITIONAL =>
    simp only [hscheme] at hbuild
    split at hbuild
    · rename_i t hrun
      obtain rfl := Except.ok.inj hbuild
      have hbuilt := ProbeTable.built_of_insertAll hdata hrun
      have hone := hbuilt.lookup_eq_one_iff_mem (le_refl 50000) hq
      have hle := ProbeTable.operatorSubscript_le_one hq cfg.hashFun 50000 t
      refine ⟨_, rfl, ?_⟩
      change ProbeTable.operatorSubscript Sentinel cfg.hashFun 50000 t q ≠ 0 ↔ _
      rw [List.mem_map, ← hone]; omega
    · cases hbuild
  | CUCKOOTRADITIONAL =>
    simp only [hscheme] at hbuild
    split at hbuild
    · rename_i t hrun
      obtain rfl := Except.ok.inj hbuild
      have hsound : CuckooTable.Sound _ _ Sentinel (lastWrite data) t :=
        CuckooTable.sound_of_insertAll hdata hrun
      have hone := hsound.placed.lookup_eq_one_iff hq
      refine ⟨_, rfl, ?_⟩
      change CuckooTable.lookup _ _ t q ≠ 0 ↔ _
      rw [List.mem_map, ← lastWrite_isSome_iff, ← hone]
      rcases t.lookup_cases q with ⟨h, -⟩ | ⟨h, -⟩
      · rw [h]; decide
      · rw [h]; decide
    · cases hbuild

/-! ### The loops -/

section Loops
variable {cfg : Config} {ht : HashTable BUCKET_SIZE m} {keys : List UInt32}
  (hsearch : ∀ q, q ≠ Sentinel → ∃ found, ht.search cfg q = .ok found ∧ (found ≠ 0 ↔ q ∈ keys))
  (hsentinel : Sentinel ∉ keys) {tuples : List Tuple}
include hsearch hsentinel

/-- A thread counts the tuples of its slice whose key is in the table. -/
theorem probeLoop_eq {remaining i : ℕ} (hi : i + remaining ≤ tuples.length) (matches' : UInt64) :
    probeLoop cfg ht tuples remaining i matches' = .ok (matches' +
      UInt64.ofNat (((tuples.drop i).take remaining).countP fun s => s.key ∈ keys)) := by
  induction remaining generalizing i matches' with
  | zero => simp [probeLoop]
  | succ remaining ih =>
    have hlt : i < tuples.length := by omega
    have hdrop : (tuples.drop i).take (remaining + 1)
        = tuples[i] :: (tuples.drop (i + 1)).take remaining := by
      rw [List.drop_eq_getElem_cons hlt, List.take_succ_cons]
    have hnext := ih (i := i + 1) (by omega)
    rw [probeLoop, List.getElem?_eq_getElem hlt, hdrop, List.countP_cons]
    by_cases hs : tuples[i].key = Sentinel
    · -- the Sentinel is skipped, and is no key of the table
      have hskip : ¬ tuples[i].key ≠ 4294967295 := fun h => h hs
      have hnot : tuples[i].key ∉ keys := by rw [hs]; exact hsentinel
      simp only [if_neg hskip, hnext, hnot, decide_false, Bool.false_eq_true, if_false,
        Nat.add_zero]
    · have hguard : tuples[i].key ≠ 4294967295 := hs
      obtain ⟨found, hfound, hiff⟩ := hsearch _ hs
      simp only [if_pos hguard, hfound, hnext, hiff, decide_eq_true_eq, UInt64.ofNat_add]
      split_ifs with hmem
      · rw [UInt64.add_comm (UInt64.ofNat _), UInt64.add_assoc]; rfl
      · simp

/-- The threads together count the tuples of all slices. -/
theorem joinLoop_eq {threads : List JoinThreadArgs}
    (hbounds : ∀ args ∈ threads, args.relS.offset + args.relS.num_tuples ≤ tuples.length)
    (result : UInt64) :
    joinLoop cfg ht tuples threads result = .ok (result + UInt64.ofNat
      ((threads.flatMap fun args => window tuples args.relS).countP fun s => s.key ∈ keys)) := by
  induction threads generalizing result with
  | nil => simp [joinLoop]
  | cons args threads ih =>
    have hargs := probeLoop_eq hsearch hsentinel (hbounds args List.mem_cons_self) 0
    rw [joinLoop, inljWithHashProbeRelSPartition, hargs]
    simp only [ih fun a ha => hbounds a (List.mem_cons_of_mem _ ha)]
    rw [List.flatMap_cons, List.countP_append, UInt64.ofNat_add, UInt64.zero_add, UInt64.add_assoc,
      window]

end Loops

/-- CORRECT: for every scheme, every slicing into threads and every S, the threads' results add up
    to the number of pairs of tuples with equal keys. -/
theorem hash_join_counts_join [NeZero BUCKET_SIZE] (cfg : Config) (rel_r rel_s : Relation)
    (hkeys : (rel_r.tuples.map Tuple.key).Nodup)
    (hsentinel : ∀ r ∈ rel_r.tuples, r.key ≠ 4294967295)
    {data : List (UInt32 × UInt32)} (hdata : data.Perm (rel_r.tuples.map Tuple.toPair))
    {ht : HashTable BUCKET_SIZE m} (hbuild : build cfg data = .ok ht) {NUM_THREADS : ℕ}
    (hthreads : 1 ≤ NUM_THREADS) :
    ∃ result, join cfg ht NUM_THREADS rel_r rel_s = .ok result ∧
      result.toNat = joinSize rel_r.tuples rel_s.tuples := by
  have hpair : (rel_r.tuples.map Tuple.toPair).map Prod.fst = rel_r.tuples.map Tuple.key := by
    rw [List.map_map]; rfl
  have hperm : (data.map Prod.fst).Perm (rel_r.tuples.map Tuple.key) := by
    rw [← hpair]; exact hdata.map Prod.fst
  have hnot : Sentinel ∉ rel_r.tuples.map Tuple.key := by
    intro hmem
    obtain ⟨r, hr, hrs⟩ := List.mem_map.mp hmem
    exact hsentinel r hr hrs
  have hne : ∀ d ∈ data, d.1 ≠ Sentinel := by
    rintro d hd hds
    exact hnot (hperm.mem_iff.mp (hds ▸ List.mem_map_of_mem hd))
  have hsearch : ∀ q, q ≠ Sentinel → ∃ found, ht.search cfg q = .ok found ∧
      (found ≠ 0 ↔ q ∈ rel_r.tuples.map Tuple.key) := by
    intro q hq
    obtain ⟨found, hfound, hiff⟩ := search_cases hne hbuild hq
    exact ⟨found, hfound, hiff.trans hperm.mem_iff⟩
  obtain ⟨hbounds, hread⟩ := window_initialize hthreads rel_r rel_s
  refine ⟨_, joinLoop_eq hsearch hnot hbounds 0, ?_⟩
  have hle : joinSize rel_r.tuples rel_s.tuples ≤ rel_s.tuples.length := by
    rw [joinSize_eq hkeys]; exact List.countP_le_length
  have hfits := rel_s.fits
  rw [hread, UInt64.zero_add, ← joinSize_eq hkeys]
  exact UInt64.toNat_ofNat_of_lt' (show _ < 2 ^ 64 by omega)

/-- Two threads over five tuples: a repeated key, the Sentinel and a key not in R. -/
theorem hash_join_counts_join_two_threads :
    let cfg : Config :=
      ⟨.CHAINTRADITIONAL, ⟨UInt32.toUInt64, "identity"⟩, ⟨UInt32.toUInt64, "identity"⟩,
        Stream'.const 0, 24⟩
    let rel_r : Relation := ⟨[⟨1, 10⟩, ⟨2, 20⟩], by decide⟩
    let rel_s : Relation := ⟨[⟨1, 0⟩, ⟨4294967295, 0⟩, ⟨2, 0⟩, ⟨1, 0⟩, ⟨3, 0⟩], by decide⟩
    ∃ ht : HashTable 1 2, build cfg [(2, 20), (1, 10)] = .ok ht ∧
      ∃ result, join cfg ht 2 rel_r rel_s = .ok result ∧
        result.toNat = joinSize rel_r.tuples rel_s.tuples := by
  refine ⟨_, rfl, ?_⟩
  exact hash_join_counts_join _ _ _ (by decide) (by decide) (List.Perm.swap _ _ _) rfl (by decide)

end Join
end HashingBenchmark
