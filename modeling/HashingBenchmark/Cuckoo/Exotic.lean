import HashingBenchmark.Cuckoo.Statistics
import HashingBenchmark.Lib.Spread

/-! The cuckoo table of `cuckoo_exotic.hpp`, whose primary hash is a minimal perfect one.

    Biased kicking puts a key into its primary bucket as long as this one has room. A minimal perfect
    hash leaves room there for every key, if the directory has slots for all pairs: then nothing is
    ever kicked, no random number is drawn, and no key is in its secondary bucket (`AllPrimary`). -/

namespace HashingBenchmark
open SlotArray

namespace CuckooTable
variable {Key Payload : Type} {BucketSize m : ℕ} [DecidableEq Key] [NeZero m]
  {primary secondary : Key → UInt64} {Sentinel : Key}

/-- After the inserts `done` every key is in its primary bucket. -/
structure AllPrimary (primary : Key → UInt64) (Sentinel : Key) (done : List (Key × Payload))
    (t : CuckooTable Key Payload BucketSize m) : Prop where
  at_primary : ∀ b i, t.keys b i ≠ Sentinel → i1 primary m (t.keys b i) = b
  occupied : ∀ b, occupied Sentinel (t.keys b)
    = (done.map Prod.fst).countP fun k => i1 primary m k = b

/-- Step lemma: with room in its primary bucket a new key is inserted there. -/
theorem AllPrimary.insert [NeZero BucketSize] (Bias : UInt8) {done : List (Key × Payload)}
    {t : CuckooTable Key Payload BucketSize m} (h : AllPrimary primary Sentinel done t)
    (hsound : Sound primary secondary Sentinel (lastWrite done) t) {d : Key × Payload}
    (hkey : d.1 ≠ Sentinel) (hnew : d.1 ∉ done.map Prod.fst)
    (hroom : (done.map Prod.fst).countP (fun k => i1 primary m k = i1 primary m d.1) < BucketSize) :
    ∃ t', CuckooTable.insert (.KapilBiasedKicking Bias) primary secondary Sentinel d.1 d.2 t
        = .returned t' ∧ t'.rand_ = t.rand_ ∧ AllPrimary primary Sentinel (done ++ [d]) t' := by
  have hnone : lastWrite done d.1 = none := by
    rw [lastWrite_eq_none_iff]
    intro w hw heq
    exact hnew (List.mem_map.mpr ⟨w, hw, heq⟩)
  have hnot := (hsound.represents.notStored_iff hkey).mp hnone
  have hfind : t.findKey (i1 primary m d.1) (i2 primary secondary m d.1) d.1 = none := by
    rcases t.findKey_cases (i1 primary m d.1) (i2 primary secondary m d.1) d.1 with
      ⟨b, i, -, hhit, -⟩ | ⟨hfind, -⟩
    · exact absurd hhit (hnot (b, i))
    · exact hfind
  have hlt : t.count Sentinel (i1 primary m d.1) < BucketSize := by
    change SlotArray.occupied Sentinel (t.keys (i1 primary m d.1)) < BucketSize
    rw [h.occupied]
    exact hroom
  have hkick : t.kick (.KapilBiasedKicking Bias) Sentinel (i1 primary m d.1)
      (i2 primary secondary m d.1) d.1 d.2
        = (none, t.write (i1 primary m d.1) ⟨t.count Sentinel (i1 primary m d.1), hlt⟩ d.1 d.2) := by
    rw [kick, kapilBiasedKicking, dif_pos hlt]
  have hprefix := hsound.prefixes (i1 primary m d.1)
  refine ⟨t.write (i1 primary m d.1) ⟨t.count Sentinel (i1 primary m d.1), hlt⟩ d.1 d.2, ?_, rfl,
    fun b i hb => ?_, fun b => ?_⟩
  · rw [CuckooTable.insert, insertLoop, hfind, hkick]
  · rw [keys_write] at hb ⊢
    split_ifs at hb ⊢ with heq
    · subst heq
      rcases eq_or_ne i ⟨t.count Sentinel (i1 primary m d.1), hlt⟩ with rfl | hne
      · rw [Function.update_self]
      · rw [Function.update_of_ne hne] at hb ⊢
        exact h.at_primary _ i hb
    · exact h.at_primary b i hb
  · rw [List.map_append, List.countP_append, ← h.occupied b, List.map_singleton,
      List.countP_singleton, keys_write]
    rcases eq_or_ne b (i1 primary m d.1) with rfl | hne
    · rw [if_pos rfl, occupied_write hprefix hkey (eq_of_val_eq_occupied hprefix rfl) fun j hj =>
        (ne_iff_lt_occupied hprefix j).mpr hj]
      simp
    · simp [hne, hne.symm]

/-- Run lemma: keys that are spread over the primary buckets are inserted without a kick. -/
theorem exists_insertAll_allPrimary [NeZero BucketSize] [Inhabited Payload] (Bias : UInt8)
    (rand_ : Stream' UInt32) {data : List (Key × Payload)} (hdata : ∀ d ∈ data, d.1 ≠ Sentinel)
    (hnodup : (data.map Prod.fst).Nodup)
    (hspread : Spread (i1 primary m) BucketSize (data.map Prod.fst)) :
    ∃ t : CuckooTable Key Payload BucketSize m,
      insertAll (CuckooTable.insert (.KapilBiasedKicking Bias) primary secondary Sentinel) data
        (empty Sentinel rand_) = .returned t ∧
      t.rand_ = rand_ ∧ AllPrimary primary Sentinel data t := by
  suffices hrun : ∃ t : CuckooTable Key Payload BucketSize m,
      insertAll (CuckooTable.insert (.KapilBiasedKicking Bias) primary secondary Sentinel) data
        (empty Sentinel rand_) = .returned t ∧
      Sound primary secondary Sentinel (lastWrite data) t ∧ t.rand_ = rand_ ∧
      AllPrimary primary Sentinel data t by
    obtain ⟨t, hrun, -, hrand, hin⟩ := hrun
    exact ⟨t, hrun, hrand, hin⟩
  refine Outcome.runAll_returns (I := fun done t => Sound primary secondary Sentinel (lastWrite done) t ∧
    t.rand_ = rand_ ∧ AllPrimary primary Sentinel done t) ⟨sound_empty rand_, rfl,
      fun _ _ h => absurd rfl h, fun _ => occupied_eq_zero_iff.mpr fun _ => rfl⟩
    fun done d t hpre ⟨hsound, hrand, hin⟩ => ?_
  have hkey : d.1 ≠ Sentinel := hdata d (hpre.subset (by simp))
  have hkeys : done.map Prod.fst ++ [d.1] <+: data.map Prod.fst := by
    simpa using hpre.map Prod.fst
  obtain ⟨t', hins, hrand', hin'⟩ := hin.insert Bias hsound hkey (notMem_of_snoc hnodup hkeys)
    (hspread.lt_of_snoc hkeys)
  refine ⟨t', hins, ?_, hrand'.trans hrand, hin'⟩
  rw [lastWrite_snoc]
  exact hsound.insertLoop hkey hins

end CuckooTable

/-- CORRECT: with a minimal perfect hash of its keys and biased kicking the constructor's inserts
    return exactly if the directory has a slot for every pair, in whatever order it shuffles them;
    then no random number has been drawn, every pair is in the primary bucket of its key, and
    `print_data_statistics` counts all keys as primary ones. -/
theorem exotic_cuckoo_table_never_kicks {Key Payload : Type} [DecidableEq Key] [Inhabited Payload]
    {BucketSize m : ℕ} [NeZero BucketSize] [NeZero m] (Bias : UInt8) (rand_ : Stream' UInt32)
    (mmphf hashfn2 : HashFn Key) (Sentinel : Key) (data shuffled : List (Key × Payload))
    (hshuffled : shuffled.Perm data) (hdata : ∀ d ∈ data, d.1 ≠ Sentinel)
    (hmmphf : MinimalPerfect (fun key => (mmphf key).toNat) (data.map Prod.fst)) :
    let run := insertAll
      (KapilCuckooExoticHashTable.insert (.KapilBiasedKicking Bias) mmphf hashfn2 Sentinel) shuffled
      (CuckooTable.empty Sentinel rand_ : KapilCuckooExoticHashTable Key Payload BucketSize m)
    ((∃ t, run = .returned t) ↔ data.length ≤ m * BucketSize) ∧
    ∀ t, run = .returned t →
      t.rand_ = rand_ ∧
      (∀ d ∈ data, ∃ i, t.slots (CuckooTable.i1 mmphf m d.1, i) = d) ∧
      t.printDataStatistics mmphf Sentinel = (data.length, data.length) ∧
      ∀ q, q ≠ Sentinel →
        (KapilCuckooExoticHashTable.lookup mmphf hashfn2 t q = 1 ↔ ∃ d ∈ data, d.1 = q) := by
  intro run
  have hkeys : ∀ d ∈ shuffled, d.1 ≠ Sentinel := fun d hd => hdata d (hshuffled.mem_iff.mp hd)
  have hperfect := hmmphf.perm (hshuffled.map Prod.fst)
  have hnodup : (shuffled.map Prod.fst).Nodup := hperfect.nodup
  have hmem : ∀ q, (∃ d ∈ shuffled, d.1 = q) ↔ ∃ d ∈ data, d.1 = q := fun q =>
    exists_congr fun d => and_congr_left' hshuffled.mem_iff
  have hstored : ∀ t, run = .returned t → ∀ d ∈ data, ∃ p, t.slots p = d := by
    intro t hrun d hd
    have hsound := CuckooTable.sound_of_insertAll hkeys hrun
    have hlast : lastWrite shuffled d.1 = some d.2 :=
      lastWrite_of_nodup hnodup (hshuffled.mem_iff.mpr hd)
    obtain ⟨p, hp, -⟩ := hsound.represents.existsUnique (hdata d hd) hlast
    exact ⟨p, hp⟩
  have hlength : ∀ t, run = .returned t → data.length ≤ m * BucketSize := by
    intro t hrun
    have hle := length_le_of_slots hmmphf.nodup t.keys fun k hk => by
      obtain ⟨d, hd, rfl⟩ := List.mem_map.mp hk
      obtain ⟨p, hp⟩ := hstored t hrun d hd
      exact ⟨p.1, p.2, congrArg Prod.fst hp⟩
    simpa using hle
  have hprimary : data.length ≤ m * BucketSize → ∃ t, run = .returned t ∧ t.rand_ = rand_ ∧
      CuckooTable.AllPrimary mmphf Sentinel shuffled t := fun hle =>
    CuckooTable.exists_insertAll_allPrimary Bias rand_ hkeys hnodup
      (hperfect.spread_iff.mpr (by rwa [List.length_map, hshuffled.length_eq]))
  refine ⟨⟨fun ⟨t, hrun⟩ => hlength t hrun, fun hle => ?_⟩, fun t hrun => ?_⟩
  · obtain ⟨t, hrun, -⟩ := hprimary hle
    exact ⟨t, hrun⟩
  · obtain ⟨t', hrun', hrand, hin⟩ := hprimary (hlength t hrun)
    obtain rfl := Outcome.returned.inj (hrun.symm.trans hrun')
    have hmap := CuckooTable.isMapOf_of_insertAll hkeys hrun
    have hslot : ∀ d ∈ data, ∃ i, t.slots (CuckooTable.i1 mmphf m d.1, i) = d := by
      intro d hd
      obtain ⟨⟨b, i⟩, hp⟩ := hstored t hrun d hd
      have hkey : t.keys b i = d.1 := congrArg Prod.fst hp
      have hb := hin.at_primary b i (by rw [hkey]; exact hdata d hd)
      rw [hkey] at hb
      exact ⟨i, by rw [hb]; exact hp⟩
    refine ⟨hrand, hslot, ?_, fun q hq => ((hmap q hq).1.trans (hmem q))⟩
    have hsound := CuckooTable.sound_of_insertAll hkeys hrun
    rw [hsound.printDataStatistics_eq hmmphf.nodup fun k => ?_]
    · have hall : ∀ k ∈ data.map Prod.fst, decide (t.InPrimary mmphf k) = true := by
        intro k hk
        obtain ⟨d, hd, rfl⟩ := List.mem_map.mp hk
        obtain ⟨i, hi⟩ := hslot d hd
        exact decide_eq_true ⟨i, congrArg Prod.fst hi⟩
      rw [List.countP_eq_length.mpr hall, List.length_map]
    · rw [lastWrite_isSome_iff, hmem, List.mem_map]
      exact ⟨fun ⟨d, hd, heq⟩ => ⟨heq ▸ hdata d hd, d, hd, heq⟩, fun h => h.2⟩

/-- Three pairs in two buckets of two slots, inserted in descending order; the hash values are in no
    order. -/
theorem exotic_cuckoo_table_never_kicks_three :
    let mmphf : HashFn ℕ := ⟨fun key => UInt64.ofNat ([5, 9, 2].idxOf key), "index"⟩
    let hashfn2 : HashFn ℕ := ⟨fun _ => 0, "zero"⟩
    let data : List (ℕ × ℕ) := [(2, 20), (5, 50), (9, 90)]
    ∃ t : KapilCuckooExoticHashTable ℕ ℕ 2 2,
      insertAll (KapilCuckooExoticHashTable.insert (.KapilBiasedKicking 5) mmphf hashfn2 100)
        data.reverse (CuckooTable.empty 100 (Stream'.const 1)) = .returned t ∧
      t.rand_ = Stream'.const 1 ∧
      (∀ d ∈ data, ∃ i, t.slots (CuckooTable.i1 mmphf 2 d.1, i) = d) ∧
      t.printDataStatistics mmphf 100 = (3, 3) ∧
      ∀ q, q ≠ 100 →
        (KapilCuckooExoticHashTable.lookup mmphf hashfn2 t q = 1 ↔ ∃ d ∈ data, d.1 = q) := by
  intro mmphf hashfn2 data
  obtain ⟨hreturns, hin⟩ := @exotic_cuckoo_table_never_kicks ℕ ℕ _ _ 2 2 _ _ 5 (Stream'.const 1)
    mmphf hashfn2 100 data data.reverse (List.reverse_perm data) (by decide) (by decide)
  obtain ⟨t, hrun⟩ := hreturns.mpr (by decide)
  exact ⟨t, hrun, hin t hrun⟩

end HashingBenchmark
