import HashingBenchmark.Lib.Spread
import HashingBenchmark.Probe.Invariant

/-! The probing table of `probe_exotic.hpp`, whose home function is a minimal perfect hash.

    It probes like the table of `probe.hpp`. A minimal perfect hash spreads its keys over the
    directory so evenly that no insert leaves the home bucket, if the directory has slots for all
    pairs, in whatever order the constructor has shuffled them (`InHome`). -/

namespace HashingBenchmark
open SlotArray Probe

/-- `KapilLinearExoticHashTable`. -/
abbrev KapilLinearExoticHashTable := ProbeTable

namespace KapilLinearExoticHashTable
variable {Key Payload : Type} [DecidableEq Key] {BucketSize m : ℕ} [NeZero m]

def name (args : TemplateArgs Key) (BucketSize : ℕ) (mmphf : HashFn Key) : String :=
  args.name "KapilLinearExoticHashTable" BucketSize mmphf.name

/-- `KapilLinearExoticHashTable::insert`. -/
def insert (args : TemplateArgs Key) (mmphf : HashFn Key) (key : Key) (payload : Payload)
    (t : KapilLinearExoticHashTable Key Payload BucketSize m) :
    Outcome Fault (KapilLinearExoticHashTable Key Payload BucketSize m) :=
  ProbeTable.insert args.Sentinel mmphf 50000 (name args BucketSize mmphf) key payload t

/-- `KapilLinearExoticHashTable::operator[]`. -/
def operatorSubscript (args : TemplateArgs Key) (mmphf : HashFn Key)
    (t : KapilLinearExoticHashTable Key Payload BucketSize m) (key : Key) : ℕ :=
  ProbeTable.operatorSubscript args.Sentinel mmphf 50000 t key

end KapilLinearExoticHashTable

namespace ProbeTable
variable {Key Payload : Type} {BucketSize m : ℕ} [NeZero m] {home : Key → UInt64} {Sentinel : Key}

/-- The home bucket of a key. -/
def homeBucket (home : Key → UInt64) (m : ℕ) [NeZero m] (key : Key) : Fin m :=
  Fin.ofNat m (home key).toNat

theorem walk_zero (home : Key → UInt64) (m : ℕ) [NeZero m] (key : Key) :
    walk home m key 0 = homeBucket home m key := by
  simp [walk, homeBucket, Fin.ext_iff]

variable [DecidableEq Key]

/-- After the inserts `done` every key is in its home bucket. -/
structure InHome (Sentinel : Key) (home : Key → UInt64) (done : List (Key × Payload))
    (t : ProbeTable Key Payload BucketSize m) : Prop where
  at_home : ∀ i j, (t.buckets i).keys j ≠ Sentinel → homeBucket home m ((t.buckets i).keys j) = i
  occupied : ∀ i, occupied Sentinel (t.buckets i).keys
    = (done.map Prod.fst).countP fun k => homeBucket home m k = i

/-- Step lemma: with room in its home bucket a new key is inserted there. -/
theorem InHome.insert {limit : ℕ} (hlimit : 0 < limit) (name : String)
    {done : List (Key × Payload)} {t : ProbeTable Key Payload BucketSize m}
    (h : InHome Sentinel home done t) (hbuilt : Built Sentinel home limit done t)
    {d : Key × Payload} (hkey : d.1 ≠ Sentinel) (hnew : d.1 ∉ done.map Prod.fst)
    (hroom : (done.map Prod.fst).countP (fun k => homeBucket home m k = homeBucket home m d.1)
      < BucketSize) :
    ∃ t', ProbeTable.insert Sentinel home limit name d.1 d.2 t = .returned t' ∧
      InHome Sentinel home (done ++ [d]) t' := by
  have hfree : ¬ (t.buckets (walk home m d.1 0)).Passes Sentinel d.1 := by
    intro hpass
    have hfull := full_iff_occupied_eq.mp hpass.1
    rw [walk_zero, h.occupied] at hfull
    omega
  have hnone : lastWrite done d.1 = none := by
    rw [lastWrite_eq_none_iff]
    intro w hw heq
    exact hnew (List.mem_map.mpr ⟨w, hw, heq⟩)
  rcases insertLoop_cases Sentinel d.1 d.2
      ("Building " ++ name ++ " failed: during probing, all buckets along the way are full") t limit
      ((home d.1).toNat % m) with ⟨hall, -⟩ | ⟨s, -, hbefore, j, hstop, hret⟩
  · exact absurd (hall 0 hlimit) hfree
  · -- the walk stops at once
    obtain rfl : s = 0 := by
      by_contra hne
      exact hfree (hbefore 0 (Nat.pos_of_ne_zero hne))
    have hwalk : Fin.ofNat m ((home d.1).toNat % m + 0) = homeBucket home m d.1 := walk_zero home m d.1
    rw [hwalk] at hstop hret
    have hempty : (t.buckets (homeBucket home m d.1)).keys j = Sentinel :=
      hstop.1.resolve_right ((hbuilt.represents.notStored_iff hkey).mp hnone (_, j))
    refine ⟨_, hret, fun a b hab => ?_, fun a => ?_⟩
    · by_cases hp : a = homeBucket home m d.1 ∧ b = j
      · obtain ⟨rfl, rfl⟩ := hp
        rw [keys_write_self]
      · rw [keys_write_of_ne hp] at hab ⊢
        exact h.at_home a b hab
    · rw [List.map_append, List.countP_append, ← h.occupied a, List.map_singleton,
        List.countP_singleton, keys_write]
      rcases eq_or_ne a (homeBucket home m d.1) with rfl | hne
      · rw [if_pos rfl, occupied_write (hbuilt.prefixes _) hkey hempty fun j' hj' => (hstop.2 j' hj').1]
        simp
      · simp [hne, hne.symm]

/-- Run lemma: keys that are spread over the buckets are inserted without a step away from home. -/
theorem exists_insertAll_inHome [Inhabited Payload] (limit : ℕ) (hlimit : 0 < limit) (name : String)
    {data : List (Key × Payload)} (hdata : ∀ d ∈ data, d.1 ≠ Sentinel)
    (hnodup : (data.map Prod.fst).Nodup)
    (hspread : Spread (homeBucket home m) BucketSize (data.map Prod.fst)) :
    ∃ t : ProbeTable Key Payload BucketSize m,
      insertAll (ProbeTable.insert Sentinel home limit name) data (empty Sentinel) = .returned t ∧
      Built Sentinel home limit data t ∧ InHome Sentinel home data t := by
  refine Outcome.runAll_returns (I := fun done t => Built Sentinel home limit done t ∧
    InHome Sentinel home done t) ⟨built_empty Sentinel home limit, fun _ _ h => absurd rfl h,
      fun _ => occupied_eq_zero_iff.mpr fun _ => rfl⟩ fun done d t hpre ⟨hbuilt, hin⟩ => ?_
  have hkey : d.1 ≠ Sentinel := hdata d (hpre.subset (by simp))
  have hkeys : done.map Prod.fst ++ [d.1] <+: data.map Prod.fst := by
    simpa using hpre.map Prod.fst
  obtain ⟨t', hins, hin'⟩ := hin.insert hlimit name hbuilt hkey (notMem_of_snoc hnodup hkeys)
    (hspread.lt_of_snoc hkeys)
  exact ⟨t', hins, hbuilt.insert hkey hins, hin'⟩

end ProbeTable

/-- CORRECT: with a minimal perfect hash of its keys the constructor's inserts return exactly if the
    directory has a slot for every pair, in whatever order it shuffles them; then every pair is in
    the home bucket of its key, and a lookup finds it there and finds nothing else. -/
theorem exotic_linear_table_never_probes {Key Payload : Type} [DecidableEq Key] [Inhabited Payload]
    {BucketSize m : ℕ} [NeZero m] (args : TemplateArgs Key) (mmphf : HashFn Key)
    (data shuffled : List (Key × Payload)) (hshuffled : shuffled.Perm data)
    (hdata : ∀ d ∈ data, d.1 ≠ args.Sentinel)
    (hmmphf : MinimalPerfect (fun key => (mmphf key).toNat) (data.map Prod.fst)) :
    let run := insertAll (KapilLinearExoticHashTable.insert args mmphf) shuffled
      (ProbeTable.empty args.Sentinel : KapilLinearExoticHashTable Key Payload BucketSize m)
    ((∃ t, run = .returned t) ↔ data.length ≤ m * BucketSize) ∧
    ∀ t, run = .returned t →
      (∀ d ∈ data, ∃ j, t.slots (ProbeTable.homeBucket mmphf m d.1, j) = d) ∧
      (∀ d ∈ data, ProbeTable.operatorSubscript args.Sentinel mmphf 1 t d.1 = 1) ∧
      ∀ q, q ≠ args.Sentinel →
        (KapilLinearExoticHashTable.operatorSubscript args mmphf t q = 1 ↔ ∃ d ∈ data, d.1 = q) := by
  intro run
  have hkeys : ∀ d ∈ shuffled, d.1 ≠ args.Sentinel := fun d hd => hdata d (hshuffled.mem_iff.mp hd)
  have hperfect := hmmphf.perm (hshuffled.map Prod.fst)
  have hnodup : (shuffled.map Prod.fst).Nodup := hperfect.nodup
  have hstored : ∀ t, run = .returned t → ∀ d ∈ data, ∃ p, t.slots p = d := by
    intro t hrun d hd
    have hbuilt := ProbeTable.built_of_insertAll hkeys hrun
    have hlast : lastWrite shuffled d.1 = some d.2 :=
      lastWrite_of_nodup hnodup (hshuffled.mem_iff.mpr hd)
    obtain ⟨p, hp, -⟩ := hbuilt.represents.existsUnique (hdata d hd) hlast
    exact ⟨p, hp⟩
  have hlength : ∀ t, run = .returned t → data.length ≤ m * BucketSize := by
    intro t hrun
    have hle := length_le_of_slots hmmphf.nodup (fun i j => (t.buckets i).keys j) fun k hk => by
      obtain ⟨d, hd, rfl⟩ := List.mem_map.mp hk
      obtain ⟨p, hp⟩ := hstored t hrun d hd
      exact ⟨p.1, p.2, congrArg Prod.fst hp⟩
    simpa using hle
  have hhome : data.length ≤ m * BucketSize → ∃ t, run = .returned t ∧
      ProbeTable.InHome args.Sentinel mmphf shuffled t := by
    intro hle
    obtain ⟨t, hrun, -, hin⟩ := ProbeTable.exists_insertAll_inHome 50000 (by decide)
      (KapilLinearExoticHashTable.name args BucketSize mmphf) hkeys hnodup
      (hperfect.spread_iff.mpr (by rwa [List.length_map, hshuffled.length_eq]))
    exact ⟨t, hrun, hin⟩
  refine ⟨⟨fun ⟨t, hrun⟩ => hlength t hrun, fun hle => ?_⟩, fun t hrun => ?_⟩
  · obtain ⟨t, hrun, -⟩ := hhome hle
    exact ⟨t, hrun⟩
  · obtain ⟨t', hrun', hin⟩ := hhome (hlength t hrun)
    obtain rfl := Outcome.returned.inj (hrun.symm.trans hrun')
    have hbuilt := ProbeTable.built_of_insertAll hkeys hrun
    have hslot : ∀ d ∈ data, ∃ j, t.slots (ProbeTable.homeBucket mmphf m d.1, j) = d := by
      intro d hd
      obtain ⟨⟨i, j⟩, hp⟩ := hstored t hrun d hd
      have hkey : (t.buckets i).keys j = d.1 := congrArg Prod.fst hp
      have hi := hin.at_home i j (by rw [hkey]; exact hdata d hd)
      rw [hkey] at hi
      exact ⟨j, by rw [hi]; exact hp⟩
    refine ⟨hslot, fun d hd => ?_, fun q hq => ?_⟩
    · rw [hbuilt.lookup_eq_one_iff (hdata d hd)]
      obtain ⟨j, hj⟩ := hslot d hd
      refine ⟨0, Nat.one_pos, j, ?_⟩
      rw [ProbeTable.walk_zero]
      exact congrArg Prod.fst hj
    · rw [KapilLinearExoticHashTable.operatorSubscript, hbuilt.lookup_eq_one_iff_mem le_rfl hq]
      exact exists_congr fun d => and_congr_left' hshuffled.mem_iff

/-- Three pairs in two buckets of two slots, inserted in descending order; the hash values are in no
    order. -/
theorem exotic_linear_table_never_probes_three :
    let args : TemplateArgs ℕ := ⟨8, 8, false, 100⟩
    let mmphf : HashFn ℕ := ⟨fun key => UInt64.ofNat ([5, 9, 2].idxOf key), "index"⟩
    let data : List (ℕ × ℕ) := [(2, 20), (5, 50), (9, 90)]
    ∃ t : KapilLinearExoticHashTable ℕ ℕ 2 2,
      insertAll (KapilLinearExoticHashTable.insert args mmphf) data.reverse (ProbeTable.empty 100)
        = .returned t ∧
      (∀ d ∈ data, ∃ j, t.slots (ProbeTable.homeBucket mmphf 2 d.1, j) = d) ∧
      (∀ d ∈ data, ProbeTable.operatorSubscript 100 mmphf 1 t d.1 = 1) ∧
      ∀ q, q ≠ 100 →
        (KapilLinearExoticHashTable.operatorSubscript args mmphf t q = 1 ↔ ∃ d ∈ data, d.1 = q) := by
  intro args mmphf data
  obtain ⟨hreturns, hin⟩ := @exotic_linear_table_never_probes ℕ ℕ _ _ 2 2 _ args mmphf data
    data.reverse (List.reverse_perm data) (by decide) (by decide)
  obtain ⟨t, hrun⟩ := hreturns.mpr (by decide)
  exact ⟨t, hrun, hin t hrun⟩

end HashingBenchmark
