import HashingBenchmark.Probe.Occupancy
import Mathlib.Data.Finset.Card
import Mathlib.Data.List.Sort

/-! The statistics of a linear probing table, `print_data_statistics` of `probe.hpp`.

    For each stored key the function takes a distance between the key's bucket and its home bucket,
    for each bucket the distance to the next free slot, and counts both into a `std::map<int, int>`.
    The distances are `uint64_t`, the keys of the maps `int`.

    The distance to the next free slot is the bucket reached minus the bucket of the start. The one
    from the ideal bucket is the other way round, home bucket minus bucket, so a key that lies `d`
    buckets behind its home counts as `-d`, and as `m - d` if its walk wrapped around the end of the
    directory. -/

namespace HashingBenchmark
open SlotArray Probe

namespace ProbeTable
variable {Key Payload : Type} {BucketSize m : ℕ}

/-! ### Counting -/

/-- A `uint64_t` distance as a key of the maps. -/
def mapKey (distance : UInt64) : ℤ := (distance.toNat : ℤ).bmod (2 ^ 32)

/-- `std::map<int, int>`: the value under a key, if it has one. -/
abbrev IntMap := ℤ → Option ℤ

/-- A loop `for(int i=0;i<distances.size();i++)`, from `i` on; the increment behind the last `int`
    is undefined. -/
def intLoop (body : IntMap → ℤ → IntMap) : List UInt64 → ℕ → IntMap → Option IntMap
  | [], _, map => some map
  | distance :: distances, i, map =>
    if i < intMax then intLoop body distances (i + 1) (body map (mapKey distance)) else none

/-- `map[key]=0`. -/
def setZero (map : IntMap) (key : ℤ) : IntMap := Function.update map key (some 0)

/-- `map[key]+=1`. No count is larger than the index of the loop, so none overflows. -/
def addOne (map : IntMap) (key : ℤ) : IntMap :=
  Function.update map key (some ((map key).getD 0 + 1))

/-- `std::sort`, then the loop that sets the counts to zero, then the loop that counts. -/
def countDistances (distances : List UInt64) : Option IntMap := do
  let sorted := distances.insertionSort (· ≤ ·)
  let map ← intLoop setZero sorted 0 fun _ => none
  intLoop addOne sorted 0 map

theorem intLoop_eq (body : IntMap → ℤ → IntMap) (distances : List UInt64) {i : ℕ} (hi : i ≤ intMax)
    (map : IntMap) : intLoop body distances i map =
      if i + distances.length ≤ intMax then some ((distances.map mapKey).foldl body map) else none := by
  induction distances generalizing i map with
  | nil => rw [intLoop, List.length_nil, if_pos (by omega)]; rfl
  | cons distance distances ih =>
    rw [intLoop, List.length_cons]
    by_cases hlt : i < intMax
    · rw [if_pos hlt, ih (i := i + 1) hlt, Nat.add_right_comm, Nat.add_assoc]; rfl
    · rw [if_neg hlt, if_neg (by omega)]

theorem foldl_setZero_getD (keys : List ℤ) (map : IntMap) (hmap : ∀ k, (map k).getD 0 = 0) (k : ℤ) :
    (keys.foldl setZero map k).getD 0 = 0 := by
  induction keys generalizing map with
  | nil => exact hmap k
  | cons key keys ih =>
    refine ih _ fun k' => ?_
    rw [setZero]
    rcases eq_or_ne k' key with rfl | hne
    · rw [Function.update_self]; rfl
    · rw [Function.update_of_ne hne]; exact hmap k'

theorem foldl_addOne_getD (keys : List ℤ) (map : IntMap) (k : ℤ) :
    (keys.foldl addOne map k).getD 0 = (map k).getD 0 + keys.count k := by
  induction keys generalizing map with
  | nil => simp
  | cons key keys ih =>
    rw [List.foldl_cons, ih, addOne]
    rcases eq_or_ne k key with rfl | hne
    · rw [Function.update_self, Option.getD_some, List.count_cons_self]
      push_cast; omega
    · rw [Function.update_of_ne hne, List.count_cons_of_ne hne.symm]

/-- The two loops count each distance, if the number of distances fits an `int`. -/
theorem countDistances_cases (distances : List UInt64) :
    (intMax < distances.length ∧ countDistances distances = none) ∨
    (distances.length ≤ intMax ∧ ∃ map, countDistances distances = some map ∧
      ∀ k, (map k).getD 0 = ((distances.map mapKey).count k : ℤ)) := by
  have hperm := List.perm_insertionSort (· ≤ ·) distances
  rw [countDistances, intLoop_eq _ _ (Nat.zero_le _), Nat.zero_add, hperm.length_eq]
  by_cases hfits : distances.length ≤ intMax
  · refine Or.inr ⟨hfits, ?_⟩
    rw [if_pos hfits, Option.bind_eq_bind, Option.bind_some, intLoop_eq _ _ (Nat.zero_le _),
      Nat.zero_add, hperm.length_eq, if_pos hfits]
    refine ⟨_, rfl, fun k => ?_⟩
    rw [foldl_addOne_getD, foldl_setZero_getD _ _ fun _ => rfl, zero_add,
      (hperm.map mapKey).count_eq]
  · exact Or.inl ⟨not_le.mp hfits, by rw [if_neg hfits]; rfl⟩

/-! ### The distances -/

variable [DecidableEq Key]

/-- The slots that the first loop of `print_data_statistics` comes to: bucket by bucket, each up to
    its first Sentinel. -/
def visited (Sentinel : Key) (t : ProbeTable Key Payload BucketSize m) :
    List (Fin m × Fin BucketSize) :=
  (List.finRange m).flatMap fun buck_ind =>
    ((List.finRange BucketSize).takeWhile fun i => (t.buckets buck_ind).keys i ≠ Sentinel).map
      fun i => (buck_ind, i)

/-- What the loop pushes for the key of one slot, `directory_ind-buck_ind`. -/
def distance (home : Key → UInt64) (t : ProbeTable Key Payload BucketSize m)
    (p : Fin m × Fin BucketSize) : UInt64 :=
  let directory_ind := (home (t.slots p).1).toNat % m
  UInt64.ofNat directory_ind - UInt64.ofNat p.1

/-- `dist_from_ideal`. -/
def distFromIdeal (Sentinel : Key) (home : Key → UInt64)
    (t : ProbeTable Key Payload BucketSize m) : List UInt64 :=
  (t.visited Sentinel).map (t.distance home)

/-- `dist_to_empty`. -/
def distsToEmpty [NeZero m] (Sentinel : Key) (t : ProbeTable Key Payload BucketSize m) :
    Option (List UInt64) :=
  (List.finRange m).mapM fun buck_ind => (t.distToEmpty Sentinel buck_ind).map UInt64.ofNat

/-- `print_data_statistics`: the maps `dist_from_ideal_map` and `dist_to_empty_map` it prints. -/
def printDataStatistics [NeZero m] (Sentinel : Key) (home : Key → UInt64)
    (t : ProbeTable Key Payload BucketSize m) : Option (IntMap × IntMap) := do
  let dist_from_ideal_map ← countDistances (t.distFromIdeal Sentinel home)
  let dist_to_empty_map ← (t.distsToEmpty Sentinel).bind countDistances
  some (dist_from_ideal_map, dist_to_empty_map)

/-- The stored keys. -/
def storedKeys (Sentinel : Key) (t : ProbeTable Key Payload BucketSize m) : Finset Key :=
  (Finset.univ.filter fun p => (t.slots p).1 ≠ Sentinel).image fun p => (t.slots p).1

/-- The stored keys that lie `d` buckets further along the cyclic walk than their home bucket. -/
def keysAtDistance [NeZero m] (Sentinel : Key) (home : Key → UInt64)
    (t : ProbeTable Key Payload BucketSize m) (d : ℕ) : Finset Key :=
  (Finset.univ.filter fun p => (t.slots p).1 ≠ Sentinel ∧ walk home m (t.slots p).1 d = p.1).image
    fun p => (t.slots p).1

/-- A map counts the probe lengths: under each `d < m` the stored keys at distance `d`, and nothing
    under any other key. -/
def CountsProbeLengths [NeZero m] (Sentinel : Key) (home : Key → UInt64)
    (t : ProbeTable Key Payload BucketSize m) (map : IntMap) : Prop :=
  (∀ d < m, (map d).getD 0 = (t.keysAtDistance Sentinel home d).card) ∧
  ∀ x : ℤ, x < 0 ∨ m ≤ x → (map x).getD 0 = 0

theorem nodup_visited (Sentinel : Key) (t : ProbeTable Key Payload BucketSize m) :
    (t.visited Sentinel).Nodup := SlotArray.nodup_visited Sentinel fun i => (t.buckets i).keys

/-- Two bucket indices of a directory of 50000 buckets, subtracted as `uint64_t` and narrowed, give
    their difference. -/
theorem mapKey_sub (hm : m ≤ 50000) {a b : ℕ} (ha : a < m) (hb : b < m) :
    mapKey (UInt64.ofNat a - UInt64.ofNat b) = (a : ℤ) - b := by
  have hnat : (UInt64.ofNat a - UInt64.ofNat b).toNat = (2 ^ 64 - b + a) % 2 ^ 64 := by
    rw [UInt64.toNat_sub, UInt64.toNat_ofNat_of_lt' (by rw [UInt64.size]; omega),
      UInt64.toNat_ofNat_of_lt' (by rw [UInt64.size]; omega)]
  have hbmod := Int.bmod_def (((2 ^ 64 - b + a) % 2 ^ 64 : ℕ) : ℤ) (2 ^ 32)
  calc mapKey (UInt64.ofNat a - UInt64.ofNat b)
      = (((2 ^ 64 - b + a) % 2 ^ 64 : ℕ) : ℤ).bmod (2 ^ 32) := by rw [← hnat]; rfl
    _ = (a : ℤ) - b := by omega

/-- How many buckets the bucket of a slot lies in front of the home bucket of its key. -/
def lead (home : Key → UInt64) (t : ProbeTable Key Payload BucketSize m)
    (p : Fin m × Fin BucketSize) : ℤ := ((home (t.slots p).1).toNat % m : ℕ) - p.1

/-- The number of entries of `dist_from_ideal` that count under the key `x`. -/
theorem count_distFromIdeal (hm : m ≤ 50000) (Sentinel : Key) (home : Key → UInt64)
    (t : ProbeTable Key Payload BucketSize m) (x : ℤ) :
    ((t.distFromIdeal Sentinel home).map mapKey).count x =
      (t.visited Sentinel).countP fun p => t.lead home p = x := by
  have hkeys : (t.distFromIdeal Sentinel home).map mapKey =
      (t.visited Sentinel).map (t.lead home) := by
    rw [distFromIdeal, List.map_map]
    refine List.map_congr_left fun p _ => ?_
    rw [Function.comp_apply, distance]
    exact mapKey_sub hm (Nat.mod_lt _ (Nat.zero_lt_of_lt p.1.isLt)) p.1.isLt
  rw [hkeys, List.count_eq_countP, List.countP_map]
  exact List.countP_congr fun p _ => beq_iff_eq.trans decide_eq_true_iff.symm

/-- Every stored key whose bucket is not its home bucket lies in front of it: its walk has wrapped
    around the end of the directory. -/
def OnlyWrapped (Sentinel : Key) (home : Key → UInt64)
    (t : ProbeTable Key Payload BucketSize m) : Prop :=
  ∀ p, (t.slots p).1 ≠ Sentinel → (p.1 : ℕ) ≤ (home (t.slots p).1).toNat % m

variable [NeZero m]

/-- The second map never fails: there are at most 50000 buckets. -/
theorem countDistances_distsToEmpty (hm : m ≤ 50000) (Sentinel : Key)
    (t : ProbeTable Key Payload BucketSize m) :
    ∃ map, (t.distsToEmpty Sentinel).bind countDistances = some map := by
  have hsome : ∀ i : Fin m, (t.distToEmpty Sentinel i).map UInt64.ofNat
      = some (UInt64.ofNat (emptyLoop Sentinel t 50000 i - i)) := by
    intro i
    have hi := i.isLt
    rw [distToEmpty, if_pos (by rw [intMax]; omega), Option.map_some]
  have hdists : t.distsToEmpty Sentinel = some ((List.finRange m).map fun i : Fin m =>
      UInt64.ofNat (emptyLoop Sentinel t 50000 i - i)) := by
    rw [distsToEmpty, funext hsome]
    exact List.mapM_pure (m := Option)
  have hlength : ((List.finRange m).map fun i : Fin m =>
      UInt64.ofNat (emptyLoop Sentinel t 50000 i - i)).length = m := by
    rw [List.length_map, List.length_finRange]
  rw [hdists, Option.bind_some]
  rcases countDistances_cases _ with ⟨hlong, -⟩ | ⟨-, map, hmap, -⟩
  · rw [hlength, intMax] at hlong; omega
  · exact ⟨map, hmap⟩

namespace Built
variable {Sentinel : Key} {home : Key → UInt64} {limit : ℕ} {done : List (Key × Payload)}
  {t : ProbeTable Key Payload BucketSize m}

/-- In buckets filled from the front the slots visited are the occupied ones. -/
theorem mem_visited (h : Built Sentinel home limit done t) {p : Fin m × Fin BucketSize} :
    p ∈ t.visited Sentinel ↔ (t.slots p).1 ≠ Sentinel := SlotArray.mem_visited h.prefixes

/-- Counting visited slots counts the stored keys: no key is in two slots. -/
theorem countP_visited (h : Built Sentinel home limit done t)
    (Q : Fin m × Fin BucketSize → Prop) [DecidablePred Q] :
    (t.visited Sentinel).countP Q =
      ((Finset.univ.filter fun p => (t.slots p).1 ≠ Sentinel ∧ Q p).image
        fun p => (t.slots p).1).card := by
  rw [Finset.card_image_of_injOn, List.countP_eq_length_filter,
    ← List.toFinset_card_of_nodup ((nodup_visited Sentinel t).filter _)]
  · congr 1
    ext p
    simp [h.mem_visited]
  · intro p hp q _ heq
    exact h.represents.unique p q heq (Finset.mem_filter.mp hp).2.1

theorem length_distFromIdeal (h : Built Sentinel home limit done t) :
    (t.distFromIdeal Sentinel home).length = (t.storedKeys Sentinel).card := by
  have hcount := h.countP_visited fun _ => True
  rw [distFromIdeal, List.length_map, storedKeys]
  simpa using hcount

/-- If all displaced keys have wrapped, the keys at distance `m - d` are those that count under
    `d`. -/
theorem countP_of_onlyWrapped (h : Built Sentinel home limit done t)
    (hwrapped : t.OnlyWrapped Sentinel home) {d : ℕ} (hd : d < m) :
    ((t.visited Sentinel).countP fun p => t.lead home p = d) =
    (t.keysAtDistance Sentinel home ((m - d) % m)).card := by
  rw [h.countP_visited, keysAtDistance]
  congr 2
  refine Finset.filter_congr fun p _ => and_congr_right fun hp => ?_
  have hmod : (m - d) % m < m := Nat.mod_lt _ (by omega)
  have hhome : (home (t.slots p).1).toNat % m < m := Nat.mod_lt _ (by omega)
  have hle := hwrapped p hp
  have hi := p.1.isLt
  rw [walk_eq_iff home _ hmod, lead]
  rcases Nat.eq_zero_or_pos d with rfl | hpos
  · rw [Nat.sub_zero, Nat.mod_self]; omega
  · rw [Nat.mod_eq_of_lt (show m - d < m by omega)]; omega

/-- The counts under a key that is no probe length, if all displaced keys have wrapped. -/
theorem countP_eq_zero_of_onlyWrapped (h : Built Sentinel home limit done t)
    (hwrapped : t.OnlyWrapped Sentinel home) {x : ℤ} (hx : x < 0 ∨ m ≤ x) :
    ((t.visited Sentinel).countP fun p => t.lead home p = x) = 0 := by
  refine List.countP_eq_zero.mpr fun p hp => ?_
  have hle := hwrapped p (h.mem_visited.mp hp)
  have hhome : (home (t.slots p).1).toNat % m < m := Nat.mod_lt _ (Nat.zero_lt_of_lt p.1.isLt)
  rw [decide_eq_true_eq, lead]
  omega

/-- A key behind its home bucket counts under a negative number. -/
theorem onlyWrapped_of_countP (h : Built Sentinel home limit done t)
    (hzero : ∀ x : ℤ, x < 0 → ((t.visited Sentinel).countP fun p => t.lead home p = x) = 0) :
    t.OnlyWrapped Sentinel home := by
  intro p hp
  by_contra hgt
  have hneg : t.lead home p < 0 := by rw [lead]; omega
  have hnone := List.countP_eq_zero.mp (hzero _ hneg) p (h.mem_visited.mpr hp)
  exact hnone (decide_eq_true rfl)

/-- When the printed map counts the probe lengths of a table that inserts have built. -/
theorem printDataStatistics_iff (h : Built Sentinel home limit done t) (hm : m ≤ 50000) :
    (∃ maps, t.printDataStatistics Sentinel home = some maps ∧
      t.CountsProbeLengths Sentinel home maps.1) ↔
    (t.storedKeys Sentinel).card ≤ intMax ∧ t.OnlyWrapped Sentinel home ∧
    ∀ d, 0 < d → d < m →
      (t.keysAtDistance Sentinel home d).card = (t.keysAtDistance Sentinel home (m - d)).card := by
  have hlength := h.length_distFromIdeal
  obtain ⟨toEmpty, htoEmpty⟩ := countDistances_distsToEmpty hm Sentinel t
  rw [printDataStatistics]
  rcases countDistances_cases (t.distFromIdeal Sentinel home) with
    ⟨hlong, hnone⟩ | ⟨hfits, map, hmap, hcount⟩
  · rw [hnone]
    refine iff_of_false ?_ fun hcond => ?_
    · rintro ⟨maps, heq, -⟩; cases heq
    · rw [← hlength] at hcond; omega
  · rw [hmap, htoEmpty]
    simp only [count_distFromIdeal hm] at hcount
    have hmaps : (∃ maps, some (map, toEmpty) = some maps ∧
        t.CountsProbeLengths Sentinel home maps.1) ↔ t.CountsProbeLengths Sentinel home map :=
      ⟨fun ⟨_, heq, hc⟩ => by cases heq; exact hc, fun hc => ⟨_, rfl, hc⟩⟩
    refine hmaps.trans ?_
    rw [← hlength, and_iff_right hfits, CountsProbeLengths]
    simp only [hcount, Nat.cast_eq_zero, Nat.cast_inj]
    constructor
    · rintro ⟨hdist, hzero⟩
      have hwrapped := h.onlyWrapped_of_countP fun x hx => hzero x (Or.inl hx)
      refine ⟨hwrapped, fun d hpos hd => ?_⟩
      rw [← hdist d hd, h.countP_of_onlyWrapped hwrapped hd,
        Nat.mod_eq_of_lt (by omega)]
    · rintro ⟨hwrapped, hsymm⟩
      refine ⟨fun d hd => ?_, fun x hx => h.countP_eq_zero_of_onlyWrapped hwrapped hx⟩
      rw [h.countP_of_onlyWrapped hwrapped hd]
      rcases Nat.eq_zero_or_pos d with rfl | hpos
      · rw [Nat.sub_zero, Nat.mod_self]
      · rw [Nat.mod_eq_of_lt (by omega), hsymm d hpos hd]

end Built
end ProbeTable

/-- The tables that inserts build from an empty directory; a caller may go on after a throw. -/
inductive KapilLinearHashTable.Reachable {Key Payload : Type} [DecidableEq Key]
    [Inhabited Payload] {BucketSize m : ℕ} [NeZero m] (args : TemplateArgs Key)
    (hashfn : HashFn Key) : KapilLinearHashTable Key Payload BucketSize m → Prop
  | empty : Reachable args hashfn (ProbeTable.empty args.Sentinel)
  | insert {t : KapilLinearHashTable Key Payload BucketSize m} (ht : Reachable args hashfn t)
      (key : Key) (payload : Payload) (hkey : key ≠ args.Sentinel) :
      Reachable args hashfn (KapilLinearHashTable.insert args hashfn key payload t).state

/-- A reachable table is what its returning inserts have built. -/
theorem KapilLinearHashTable.Reachable.built {Key Payload : Type} [DecidableEq Key]
    [Inhabited Payload] {BucketSize m : ℕ} [NeZero m] {args : TemplateArgs Key}
    {hashfn : HashFn Key} {t : KapilLinearHashTable Key Payload BucketSize m}
    (ht : KapilLinearHashTable.Reachable args hashfn t) :
    ∃ done, ProbeTable.Built args.Sentinel hashfn 50000 done t := by
  induction ht with
  | empty => exact ⟨[], ProbeTable.built_empty _ _ _⟩
  | @insert t ht key payload hkey ih =>
    obtain ⟨done, hbuilt⟩ := ih
    rcases ProbeTable.insertLoop_cases args.Sentinel key payload _ t 50000
      ((hashfn key).toNat % m) with ⟨-, hthrow⟩ | ⟨s, -, -, j, -, hret⟩
    · -- a throwing insert leaves the table
      refine ⟨done, ?_⟩
      rw [KapilLinearHashTable.insert, ProbeTable.insert, hthrow]
      exact hbuilt
    · have hins : ProbeTable.insert args.Sentinel hashfn 50000 _ key payload t = _ := hret
      refine ⟨done ++ [(key, payload)], ?_⟩
      rw [KapilLinearHashTable.insert, hins]
      exact hbuilt.insert hkey hins

/-- CORRECT: the map `dist_from_ideal_map` counts the probe lengths of a reachable table exactly if
    its number of keys fits an `int`, no displaced key lies behind its home bucket without having
    wrapped, and as many keys lie `d` buckets along their walk as `m - d`. -/
theorem dist_from_ideal_counts_iff {Key Payload : Type} [DecidableEq Key] [Inhabited Payload]
    {BucketSize m : ℕ} [NeZero m] (args : TemplateArgs Key) (hashfn : HashFn Key) (hm : m ≤ 50000)
    (t : KapilLinearHashTable Key Payload BucketSize m)
    (ht : KapilLinearHashTable.Reachable args hashfn t) :
    (∃ maps, t.printDataStatistics args.Sentinel hashfn = some maps ∧
      t.CountsProbeLengths args.Sentinel hashfn maps.1) ↔
    (t.storedKeys args.Sentinel).card ≤ ProbeTable.intMax ∧
    t.OnlyWrapped args.Sentinel hashfn ∧
    ∀ d, 0 < d → d < m → (t.keysAtDistance args.Sentinel hashfn d).card =
      (t.keysAtDistance args.Sentinel hashfn (m - d)).card := by
  obtain ⟨done, hbuilt⟩ := ht.built
  exact hbuilt.printDataStatistics_iff hm

/-- Two keys whose home is the second of two one-slot buckets: the walk of the later one wraps, and of
    two buckets the next one is the one before. -/
theorem dist_from_ideal_counts_iff_wraps :
    let args : TemplateArgs UInt64 := ⟨8, 8, false, 18446744073709551615⟩
    let hashfn : HashFn UInt64 := ⟨id, "identity"⟩
    let insert (key : UInt64) (t : KapilLinearHashTable UInt64 UInt64 1 2) :=
      (KapilLinearHashTable.insert args hashfn key 0 t).state
    let t := insert 3 (insert 5 (ProbeTable.empty args.Sentinel))
    ∃ maps, t.printDataStatistics args.Sentinel hashfn = some maps ∧
      t.CountsProbeLengths args.Sentinel hashfn maps.1 := by
  intro args hashfn insert t
  have ht : KapilLinearHashTable.Reachable args hashfn t :=
    (KapilLinearHashTable.Reachable.empty.insert 5 0 (by decide)).insert 3 0 (by decide)
  refine (dist_from_ideal_counts_iff args hashfn (by omega) t ht).mpr
    ⟨by decide +kernel, by unfold ProbeTable.OnlyWrapped; decide +kernel, fun d hpos hd => ?_⟩
  obtain rfl : d = 1 := by omega
  rfl

/-- Two keys whose home is the first of the two buckets: the later one lies one bucket along its
    walk, and its distance is pushed as `0 - 1`. -/
theorem dist_from_ideal_of_displaced :
    let args : TemplateArgs UInt64 := ⟨8, 8, false, 18446744073709551615⟩
    let hashfn : HashFn UInt64 := ⟨id, "identity"⟩
    let insert (key : UInt64) (t : KapilLinearHashTable UInt64 UInt64 1 2) :=
      (KapilLinearHashTable.insert args hashfn key 0 t).state
    let t := insert 4 (insert 2 (ProbeTable.empty args.Sentinel))
    KapilLinearHashTable.Reachable args hashfn t ∧
    (t.keysAtDistance args.Sentinel hashfn 1).card = 1 ∧
    t.distFromIdeal args.Sentinel hashfn = [0, 18446744073709551615] ∧
    ¬ ∃ maps, t.printDataStatistics args.Sentinel hashfn = some maps ∧
      t.CountsProbeLengths args.Sentinel hashfn maps.1 := by
  intro args hashfn insert t
  have ht : KapilLinearHashTable.Reachable args hashfn t :=
    (KapilLinearHashTable.Reachable.empty.insert 2 0 (by decide)).insert 4 0 (by decide)
  obtain ⟨done, hbuilt⟩ := ht.built
  refine ⟨ht, by decide, by decide, ?_⟩
  rw [hbuilt.printDataStatistics_iff (by omega)]
  rintro ⟨-, hwrapped, -⟩
  exact absurd (hwrapped (1, 0) (by decide)) (by decide)

end HashingBenchmark
