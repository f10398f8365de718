import HashingBenchmark.Chained.Table
import HashingBenchmark.Cuckoo.Table
import HashingBenchmark.Probe.Table

/-! The index-nested-loop hash join of `npj_join_runner.cpp`, for the scheme tables
    `CHAINTRADITIONAL`, `PROBETRADITIONAL` and `CUCKOOTRADITIONAL`.

    `main` builds one table from relation R, gives every thread a slice of relation S and adds up
    what the threads return. A slice is a pointer into the tuples of S and a length; all slices are
    `num_tuples / NUM_THREADS` long but the last, which takes what is left of a running remainder.

    Keys and payloads are `uint32_t`. `result` and `num_results` are signed in the source; the counts
    are far below 2^63, where the sums agree. -/

namespace HashingBenchmark
namespace Join

structure Tuple where
  key : UInt32
  payload : UInt32
  deriving DecidableEq

/-- A relation; `num_tuples` is the length, and 2^63 tuples would not fit into memory. -/
structure Relation where
  tuples : List Tuple
  fits : tuples.length < 2 ^ 63

/-- A relation argument of a thread: `tuples` points `offset` tuples into the whole relation. -/
structure Slice where
  offset : ℕ
  num_tuples : ℕ

structure JoinThreadArgs where
  tid : ℕ
  relR : Slice
  relS : Slice

/-- The loop of `initialize_inlj_join_thread_args` over the threads still to be set up. -/
def threadArgsLoop (NUM_THREADS numRthr numSthr : ℕ) : ℕ → ℕ → ℕ → ℕ → List JoinThreadArgs
  | 0, _, _, _ => []
  | threads + 1, i, numR, numS =>
    ⟨i, ⟨numRthr * i, if i = NUM_THREADS - 1 then numR else numRthr⟩,
      ⟨numSthr * i, if i = NUM_THREADS - 1 then numS else numSthr⟩⟩ ::
    threadArgsLoop NUM_THREADS numRthr numSthr threads (i + 1) (numR - numRthr) (numS - numSthr)

/-- `initialize_inlj_join_thread_args`. -/
def initializeInljJoinThreadArgs (NUM_THREADS : ℕ) (rel_r rel_s : Relation) :
    List JoinThreadArgs :=
  let numR := rel_r.tuples.length
  let numS := rel_s.tuples.length
  threadArgsLoop NUM_THREADS (numR / NUM_THREADS) (numS / NUM_THREADS) NUM_THREADS 0 numR numS

/-- The table `main` builds, by the scheme it was compiled for. -/
inductive HashTable (BUCKET_SIZE m : ℕ) where
  | CHAINTRADITIONAL (ht : KapilChainedHashTable UInt32 UInt32 BUCKET_SIZE m)
  | PROBETRADITIONAL (ht : KapilLinearHashTable UInt32 UInt32 BUCKET_SIZE m)
  | CUCKOOTRADITIONAL (ht : KapilCuckooHashTable UInt32 UInt32 BUCKET_SIZE m)

inductive Scheme where
  | CHAINTRADITIONAL
  | PROBETRADITIONAL
  | CUCKOOTRADITIONAL
  deriving DecidableEq

/-- The configuration: the scheme, `HASH_FUN`, `MURMUR`, the random numbers of the kicking strategy
    and `sizeof(Bucket)` of the chained table. -/
structure Config where
  scheme : Scheme
  hashFun : HashFn UInt32
  murmur : HashFn UInt32
  rand_ : Stream' UInt32
  sizeofBucket : ℕ

/-- `std::numeric_limits<uint32_t>::max()`. -/
def Sentinel : UInt32 := 4294967295

/-- The template arguments of the probing table. -/
def probeArgs : TemplateArgs UInt32 := ⟨4, 4, false, Sentinel⟩

/-- `std::make_pair(tuple.key, tuple.payload)`. -/
def Tuple.toPair (t : Tuple) : UInt32 × UInt32 := (t.key, t.payload)

variable {BUCKET_SIZE m : ℕ} [NeZero BUCKET_SIZE] [NeZero m]

/-- The inserts of the table's constructor, for the pairs in the order it shuffled them into. -/
def build (cfg : Config) (data : List (UInt32 × UInt32)) : Except Fault (HashTable BUCKET_SIZE m) :=
  match cfg.scheme with
  | .CHAINTRADITIONAL =>
    match insertAll (KapilChainedHashTable.insert Sentinel cfg.sizeofBucket cfg.hashFun) data
        (ChainedTable.empty Sentinel) with
    | .returned ht => .ok (.CHAINTRADITIONAL ht)
    | .threw fault _ => .error fault
  | .PROBETRADITIONAL =>
    match insertAll (KapilLinearHashTable.insert probeArgs cfg.hashFun) data
        (ProbeTable.empty Sentinel) with
    | .returned ht => .ok (.PROBETRADITIONAL ht)
    | .threw fault _ => .error fault
  | .CUCKOOTRADITIONAL =>
    match insertAll
        (KapilCuckooHashTable.insert .KapilBalancedKicking cfg.hashFun cfg.murmur Sentinel)
        data (CuckooTable.empty Sentinel cfg.rand_) with
    | .returned ht => .ok (.CUCKOOTRADITIONAL ht)
    | .threw fault _ => .error fault

/-- `ht->lookup(searched)` for the cuckoo table, else `ht->operator[](searched)`. -/
def HashTable.search (cfg : Config) (searched : UInt32) : HashTable BUCKET_SIZE m → Except Fault ℕ
  | .CHAINTRADITIONAL ht => KapilChainedHashTable.operatorSubscript Sentinel cfg.hashFun ht searched
  | .PROBETRADITIONAL ht =>
    .ok (KapilLinearHashTable.operatorSubscript probeArgs cfg.hashFun ht searched)
  | .CUCKOOTRADITIONAL ht => .ok (KapilCuckooHashTable.lookup cfg.hashFun cfg.murmur ht searched)

/-- The loop of `inlj_with_hash_probe_rel_s_partition`, from position `i` of the whole relation. -/
def probeLoop (cfg : Config) (ht : HashTable BUCKET_SIZE m) (tuples : List Tuple) :
    ℕ → ℕ → UInt64 → Except Fault UInt64
  | 0, _, matches' => .ok matches'
  | remaining + 1, i, matches' =>
    match tuples[i]? with
    | none => .error .outOfBounds
    | some tuple =>
      if tuple.key ≠ 4294967295 then
        match ht.search cfg tuple.key with
        | .error fault => .error fault
        | .ok found =>
          probeLoop cfg ht tuples remaining (i + 1) (matches' + if found ≠ 0 then 1 else 0)
      else probeLoop cfg ht tuples remaining (i + 1) matches'

/-- `inlj_with_hash_probe_rel_s_partition`. -/
def inljWithHashProbeRelSPartition (cfg : Config) (ht : HashTable BUCKET_SIZE m)
    (tuples : List Tuple) (rel_s_partition : Slice) : Except Fault UInt64 :=
  probeLoop cfg ht tuples rel_s_partition.num_tuples rel_s_partition.offset 0

/-- The end of `main`: what the threads return, added up in the order of the joins. -/
def joinLoop (cfg : Config) (ht : HashTable BUCKET_SIZE m) (tuples : List Tuple) :
    List JoinThreadArgs → UInt64 → Except Fault UInt64
  | [], result => .ok result
  | args :: rest, result =>
    match inljWithHashProbeRelSPartition cfg ht tuples args.relS with
    | .error fault => .error fault
    | .ok num_results => joinLoop cfg ht tuples rest (result + num_results)

/-- The hash join of R, in the table `ht`, with S. -/
def join (cfg : Config) (ht : HashTable BUCKET_SIZE m) (NUM_THREADS : ℕ) (rel_r rel_s : Relation) :
    Except Fault UInt64 :=
  joinLoop cfg ht rel_s.tuples (initializeInljJoinThreadArgs NUM_THREADS rel_r rel_s) 0

end Join
end HashingBenchmark
