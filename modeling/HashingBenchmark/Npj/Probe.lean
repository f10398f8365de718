import HashingBenchmark.Join.Size
import HashingBenchmark.Npj.Interleave

/-! When the bucket-chaining probe counts the join.

    With `SINGLE_TUPLE_PER_BUCKET` the probe compares a key with the first tuple of every bucket of
    its chain. The build puts `BUCKET_SIZE` tuples into a bucket, so of the tuples inserted with one
    index only every `BUCKET_SIZE`-th is seen, the leaders of the layout (`chainLoop_eq`), and the
    probe misses the pairs of the others. A directory bucket without tuples is compared as well:
    there zeroed memory reads as a tuple with key 0. The count is right exactly if there are as many
    such hits as missed pairs. -/

namespace HashingBenchmark
namespace Npj
open ChunkList Join

/-- The pairs of S with the tuples that are not the first of their bucket, for the tuples `log` in
    the order of their inserts. -/
def missedPairs {m : ℕ} (BUCKET_SIZE : ℕ) (index : UInt32 → Fin m) (log S : List Tuple) : ℕ :=
  (S.map fun s => (followers BUCKET_SIZE (log.filter fun r => index r.key = index s.key)).countP
    fun r => r.key = s.key).sum

/-- The tuples of S with key 0, if no tuple of R is in the chain of key 0. -/
def falseHits {m : ℕ} (index : UInt32 → Fin m) (R S : List Tuple) : ℕ :=
  S.countP fun s => s.key = 0 ∧ ∀ r ∈ R, index r.key ≠ index s.key

namespace State
variable {BUCKET_SIZE T m : ℕ} [NeZero BUCKET_SIZE] {OVERFLOW_BUF_SIZE : ℕ}

/-- The walk along a chain counts the buckets that start with the key. -/
theorem chainLoop_eq {s : State Tuple BUCKET_SIZE T m} {key : UInt32} {p : Ptr T m}
    {l : List (Ptr T m × Bucket Tuple BUCKET_SIZE T m)} {fuel : ℕ}
    (hlinked : Linked (s.load OVERFLOW_BUF_SIZE) Bucket.next (some p) l) (hfuel : l.length ≤ fuel)
    (matches' : UInt64) : chainLoop OVERFLOW_BUF_SIZE s key fuel p matches' = .ok
      (matches' + UInt64.ofNat (l.countP fun x => key = (x.2.tuples 0).key)) := by
  induction l generalizing p fuel matches' with
  | nil => cases hlinked
  | cons x l ih =>
    obtain ⟨hp, hload, hrest⟩ := hlinked
    obtain rfl := Option.some.inj hp
    cases fuel with
    | zero => cases hfuel
    | succ fuel =>
      have hmatch : (if key = (x.2.tuples 0).key then matches' + 1 else matches')
          = matches' + UInt64.ofNat (if key = (x.2.tuples 0).key then 1 else 0) := by
        split_ifs
        · rfl
        · exact (UInt64.add_zero _).symm
      rw [chainLoop, hload, List.countP_cons, Nat.add_comm, UInt64.ofNat_add]
      simp only [hmatch, decide_eq_true_eq]
      cases hnext : x.2.next with
      | none =>
        rw [hnext] at hrest
        cases l with
        | nil => simp
        | cons y l => cases hrest.1
      | some p' =>
        simp only
        rw [hnext] at hrest
        rw [ih hrest (Nat.le_of_succ_le_succ hfuel), UInt64.add_assoc]

section Chain
variable {index : Tuple → Fin m} {chain : Fin m → List (Ptr T m × Bucket Tuple BUCKET_SIZE T m)}
  {log : List Tuple} {s : State Tuple BUCKET_SIZE T m}

omit [NeZero BUCKET_SIZE] in
/-- A chain has at most as many buckets as there are pointers. -/
theorem Holds.length_le (h : Holds OVERFLOW_BUF_SIZE ⟨0, 0⟩ index chain log s) (i : Fin m) :
    (chain i).length ≤ (s.pointers OVERFLOW_BUF_SIZE).length := by
  have hsub : Linked.addresses (chain i) ⊆ s.pointers OVERFLOW_BUF_SIZE := by
    intro p hp
    obtain ⟨x, hx, rfl⟩ := List.mem_map.mp hp
    exact mem_pointers.mpr (Option.isSome_of_eq_some ((h.linked i).load_eq hx))
  have hle := ((h.linked i).nodup.subperm hsub).length_le
  simpa [Linked.addresses] using hle

/-- The buckets of a chain start with the leaders; the one bucket of a chain without tuples starts
    with zeroed memory. -/
theorem Holds.countP_first (h : Holds OVERFLOW_BUF_SIZE ⟨0, 0⟩ index chain log s) (i : Fin m)
    (key : UInt32) : (chain i).countP (fun x => key = (x.2.tuples 0).key)
      = (leaders BUCKET_SIZE (log.filter fun r => index r = i)).countP (fun r => r.key = key)
        + if key = 0 ∧ ∀ r ∈ log, index r ≠ i then 1 else 0 := by
  have hholds := h.holds i
  have hempty : (log.filter fun r => index r = i) = [] ↔ ∀ r ∈ log, index r ≠ i := by
    simp [List.filter_eq_nil_iff]
  by_cases hnil : (log.filter fun r => index r = i) = []
  · rw [hnil, layout_nil] at hholds
    obtain ⟨x, hchain, hstored⟩ := List.map_eq_singleton_iff.mp hholds
    have hx : x ∈ chain i := by rw [hchain]; exact List.mem_singleton_self x
    have hcount : x.2.count = 0 := by
      rw [← Bucket.length_stored (h.count_le i x hx), hstored]; rfl
    have hcond : (key = 0 ∧ ∀ r ∈ log, index r ≠ i) ↔ key = 0 := and_iff_left (hempty.mp hnil)
    rw [hnil, hchain, List.countP_singleton, h.zeroed i x hx hcount]
    simp [leaders, hcond]
  · have hnone : ¬ (key = 0 ∧ ∀ r ∈ log, index r ≠ i) := fun hall => hnil (hempty.mpr hall.2)
    -- no chunk of the layout is empty, and the first tuple of a bucket is the head of its chunk
    have hchunks : ∀ x ∈ chain i, x.2.stored.head? = some (x.2.tuples 0) := by
      intro x hx
      have hmem : x.2.stored ∈ layout BUCKET_SIZE (log.filter fun r => index r = i) := by
        rw [← hholds]; exact List.mem_map_of_mem hx
      have hpos : 0 < x.2.stored.length :=
        length_pos_of_mem_layout (NeZero.pos BUCKET_SIZE) hnil hmem
      rw [List.head?_eq_getElem?, List.getElem?_eq_getElem hpos]
      simp only [Bucket.stored, List.getElem_take, List.getElem_ofFn]
      rfl
    have hfirst : (chain i).filterMap (fun x => x.2.stored.head?)
        = (chain i).map fun x => x.2.tuples 0 := by
      rw [List.filterMap_congr hchunks, List.filterMap_eq_map']
    have hheads := (heads_perm (NeZero.pos BUCKET_SIZE)
      (log.filter fun r => index r = i)).countP_eq fun r => decide (r.key = key)
    rw [← hholds, List.filterMap_map] at hheads
    rw [if_neg hnone, Nat.add_zero, ← hheads]
    change _ = List.countP _ ((chain i).filterMap fun x => x.2.stored.head?)
    rw [hfirst, List.countP_map]
    refine List.countP_congr fun x _ => ?_
    simp [eq_comm]

end Chain

theorem probeLoop_eq {s : State Tuple BUCKET_SIZE T m} {index : UInt32 → Fin m} {hits : UInt32 → ℕ}
    (hchain : ∀ key matches', chainLoop OVERFLOW_BUF_SIZE s key
      (s.pointers OVERFLOW_BUF_SIZE).length (.directory (index key)) matches'
        = .ok (matches' + UInt64.ofNat (hits key))) (S : List Tuple) (matches' : UInt64) :
    probeLoop OVERFLOW_BUF_SIZE index s S matches'
      = .ok (matches' + UInt64.ofNat (S.map fun t => hits t.key).sum) := by
  induction S generalizing matches' with
  | nil => simp [probeLoop]
  | cons t S ih =>
    rw [probeLoop, hchain]
    simp only
    rw [ih, List.map_cons, List.sum_cons, UInt64.ofNat_add, UInt64.add_assoc]

/-- What the probe finds for one key, and what it misses. -/
theorem hits_add_missed (BUCKET_SIZE : ℕ) (index : UInt32 → Fin m) (log : List Tuple)
    (key : UInt32) :
    (leaders BUCKET_SIZE (log.filter fun r => index r.key = index key)).countP (fun r => r.key = key)
      + (followers BUCKET_SIZE (log.filter fun r => index r.key = index key)).countP
        (fun r => r.key = key) = log.countP fun r => r.key = key := by
  have hperm := (leaders_append_followers_perm BUCKET_SIZE
    (log.filter fun r => index r.key = index key)).countP_eq fun r => decide (r.key = key)
  rw [← List.countP_append, hperm, List.countP_filter]
  refine List.countP_congr fun r _ => ?_
  simp only [Bool.and_eq_true, decide_eq_true_eq]
  exact and_iff_left_of_imp fun heq => by rw [heq]

/-- After any build the probe finds the join, less the missed pairs, and the false hits. -/
theorem probe_eq (hsize : 0 < OVERFLOW_BUF_SIZE) (index : UInt32 → Fin m)
    (slices : Fin T → List Tuple) (malloc : Ptr T m → Bucket Tuple BUCKET_SIZE T m)
    {schedule : List (Fin T)} (hall : ∀ tid, schedule.count tid = (slices tid).length)
    (S : List Tuple) :
    ∃ s total, build OVERFLOW_BUF_SIZE (fun r => index r.key) slices schedule
        (init ⟨0, 0⟩ malloc) = .returned s ∧
      s.inljWithHashProbeRelSPartition OVERFLOW_BUF_SIZE index S = .ok (UInt64.ofNat total) ∧
      total + missedPairs BUCKET_SIZE index (Interleaving.merge slices schedule fun _ => 0) S
        = joinSize ((List.finRange T).flatMap slices) S
          + falseHits index ((List.finRange T).flatMap slices) S := by
  have hperm := Interleaving.merge_perm slices hall
  obtain ⟨s, hrun, chain, hholds⟩ := holds_of_build hsize ⟨0, 0⟩ malloc
    (fun r : Tuple => index r.key) fun tid => (hall tid).le
  let hits (key : UInt32) : ℕ := (chain (index key)).countP fun x => key = (x.2.tuples 0).key
  refine ⟨s, (S.map fun t => hits t.key).sum, hrun, ?_, ?_⟩
  · have hchain : ∀ key matches', chainLoop OVERFLOW_BUF_SIZE s key
        (s.pointers OVERFLOW_BUF_SIZE).length (.directory (index key)) matches'
          = .ok (matches' + UInt64.ofNat (hits key)) := fun key matches' =>
      chainLoop_eq (hholds.linked (index key)) (hholds.length_le (index key)) matches'
    rw [inljWithHashProbeRelSPartition, probeLoop_eq hchain, UInt64.zero_add]
  · rw [missedPairs, falseHits, countP_eq_sum, joinSize_eq_sum, ← List.sum_map_add,
      ← List.sum_map_add]
    congr 1
    refine List.map_congr_left fun t _ => ?_
    have hsplit := hits_add_missed BUCKET_SIZE index
      (Interleaving.merge slices schedule fun _ => 0) t.key
    have hempty : (∀ r ∈ Interleaving.merge slices schedule fun _ => 0,
        index r.key ≠ index t.key) ↔ ∀ r ∈ (List.finRange T).flatMap slices,
        index r.key ≠ index t.key := forall_congr' fun r => by rw [hperm.mem_iff]
    have hfirst := hholds.countP_first (index t.key) t.key
    rw [← hperm.countP_eq, ← hsplit]
    simp only [hempty] at hfirst
    simp only [hits, hfirst, decide_eq_true_eq]
    omega

end State

/-- The index is below the number of directory buckets. -/
theorem bucketIndex_lt (USE_MURMUR3_HASH : Bool) (k : ℕ) (key : UInt32) :
    bucketIndex USE_MURMUR3_HASH (2 ^ k) key < 2 ^ k := by
  have hpos : 0 < 2 ^ k := Nat.two_pow_pos k
  rw [bucketIndex]
  split_ifs
  · have hn : (UInt32.ofNat (2 ^ k)).toNat ≤ 2 ^ k := by
      rw [UInt32.toNat_ofNat']; exact Nat.mod_le _ _
    have hx : (murmurHash32 key).toNat < 4294967296 := (murmurHash32 key).toNat_lt
    have hprod : (murmurHash32 key).toNat * (UInt32.ofNat (2 ^ k)).toNat < 4294967296 * 2 ^ k :=
      calc (murmurHash32 key).toNat * (UInt32.ofNat (2 ^ k)).toNat
          ≤ (murmurHash32 key).toNat * 2 ^ k := Nat.mul_le_mul_left _ hn
        _ < 4294967296 * 2 ^ k := Nat.mul_lt_mul_of_pos_right hx hpos
    rw [altMod, UInt64.toNat_toUInt32, UInt64.toNat_shiftRight, UInt64.toNat_mul,
      UInt32.toNat_toUInt64, UInt32.toNat_toUInt64]
    refine lt_of_le_of_lt (Nat.mod_le _ _) ?_
    rw [Nat.shiftRight_eq_div_pow]
    refine Nat.div_lt_of_lt_mul (lt_of_le_of_lt (Nat.mod_le _ _) ?_)
    simpa using hprod
  · have hmask : (UInt32.ofNat (2 ^ k - 1)).toNat ≤ 2 ^ k - 1 := by
      rw [UInt32.toNat_ofNat']; exact Nat.mod_le _ _
    have hand : (key &&& UInt32.ofNat (2 ^ k - 1)).toNat ≤ (UInt32.ofNat (2 ^ k - 1)).toNat := by
      rw [UInt32.toNat_and]; exact Nat.and_le_right
    have hshift : HASH key (UInt32.ofNat (2 ^ k - 1)) 0 = key &&& UInt32.ofNat (2 ^ k - 1) := by
      rw [HASH]; simp
    rw [hshift]; omega

/-- The directory index of a key in a directory of `2 ^ k` buckets. -/
def directoryIndex (USE_MURMUR3_HASH : Bool) (k : ℕ) (key : UInt32) : Fin (2 ^ k) :=
  ⟨bucketIndex USE_MURMUR3_HASH (2 ^ k) key, bucketIndex_lt USE_MURMUR3_HASH k key⟩

open State

/-- The second tuple of a bucket is not found. -/
theorem bucket_chaining_probe_misses_second_tuple :
    let R : Fin 1 → List Tuple := ![[⟨5, 50⟩, ⟨6, 60⟩]]
    let S : List Tuple := [⟨6, 600⟩]
    let malloc : Ptr 1 (2 ^ 0) → Bucket Tuple 2 1 (2 ^ 0) := fun _ => ⟨0, none, fun _ => ⟨0, 0⟩⟩
    (∃ s, build 1024 (fun r => directoryIndex false 0 r.key) R [0, 0] (init ⟨0, 0⟩ malloc)
        = .returned s ∧
      s.inljWithHashProbeRelSPartition 1024 (directoryIndex false 0) S = .ok 0) ∧
    joinSize ((List.finRange 1).flatMap R) S = 1 := by
  intro R S malloc
  exact ⟨⟨_, rfl, by rfl⟩, by decide⟩

/-- CORRECT: after a build, by any interleaving, the bucket-chaining probe returns the size of the
    join exactly if, modulo 2^64, there are as many false hits as missed pairs. -/
theorem bucket_chaining_probe_counts_join_iff {BUCKET_SIZE T : ℕ} [NeZero BUCKET_SIZE]
    (OVERFLOW_BUF_SIZE : ℕ) [NeZero OVERFLOW_BUF_SIZE] (USE_MURMUR3_HASH : Bool) (k : ℕ)
    (slices : Fin T → List Tuple) (malloc : Ptr T (2 ^ k) → Bucket Tuple BUCKET_SIZE T (2 ^ k))
    (schedule : List (Fin T)) (hall : ∀ tid, schedule.count tid = (slices tid).length)
    (S : List Tuple) :
    ∃ s, build OVERFLOW_BUF_SIZE (fun r => directoryIndex USE_MURMUR3_HASH k r.key) slices schedule
        (init ⟨0, 0⟩ malloc) = .returned s ∧
      (s.inljWithHashProbeRelSPartition OVERFLOW_BUF_SIZE (directoryIndex USE_MURMUR3_HASH k) S
          = .ok (UInt64.ofNat (joinSize ((List.finRange T).flatMap slices) S)) ↔
        UInt64.ofNat (missedPairs BUCKET_SIZE (directoryIndex USE_MURMUR3_HASH k)
            (Interleaving.merge slices schedule fun _ => 0) S)
          = UInt64.ofNat (falseHits (directoryIndex USE_MURMUR3_HASH k)
            ((List.finRange T).flatMap slices) S)) := by
  obtain ⟨s, total, hrun, hprobe, hcount⟩ := probe_eq (NeZero.pos OVERFLOW_BUF_SIZE)
    (directoryIndex USE_MURMUR3_HASH k) slices malloc hall S
  refine ⟨s, hrun, ?_⟩
  have hsum := congrArg UInt64.ofNat hcount
  rw [UInt64.ofNat_add, UInt64.ofNat_add] at hsum
  rw [hprobe, Except.ok.injEq]
  constructor
  · intro h
    rw [h] at hsum
    exact (UInt64.add_right_inj _).mp hsum
  · intro h
    rw [h] at hsum
    exact (UInt64.add_left_inj _).mp hsum

/-- Two threads, and a probe for key 0 that finds no tuple and is not fooled. -/
theorem bucket_chaining_probe_counts_join_iff_two_threads :
    let slices : Fin 2 → List Tuple := ![[⟨1, 10⟩, ⟨3, 30⟩], [⟨2, 20⟩]]
    let malloc : Ptr 2 (2 ^ 1) → Bucket Tuple 1 2 (2 ^ 1) := fun _ => ⟨7, none, fun _ => ⟨9, 9⟩⟩
    ∃ s, build 1 (fun r => directoryIndex false 1 r.key) slices [1, 0, 0] (init ⟨0, 0⟩ malloc)
        = .returned s ∧
      s.inljWithHashProbeRelSPartition 1 (directoryIndex false 1) [⟨3, 0⟩, ⟨0, 0⟩]
        = .ok (UInt64.ofNat (joinSize ((List.finRange 2).flatMap slices) [⟨3, 0⟩, ⟨0, 0⟩])) := by
  intro slices malloc
  obtain ⟨s, hrun, hiff⟩ := bucket_chaining_probe_counts_join_iff 1 false 1 slices malloc [1, 0, 0]
    (by decide) [⟨3, 0⟩, ⟨0, 0⟩]
  exact ⟨s, hrun, hiff.mpr (by decide)⟩

end Npj
end HashingBenchmark
