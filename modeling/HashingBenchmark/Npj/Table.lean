import HashingBenchmark.Join.Runner

/-! The bucket-chaining table of the non-partitioned hash join: `eth_data_structures.h` and the build
    and probe functions of `npj_join_runner.cpp` without a hash scheme.

    The threads share the directory and each has its own overflow buffers. A thread inserts the
    tuples of its slice in order, one critical section per tuple, from `lock` to `unlock` of the
    directory bucket's latch. So a run of the build is a list of thread numbers, the threads whose
    critical sections come one after the other.

    `memory` is every bucket there will ever be. A pointer is valid if it is into the directory or
    into a buffer that its thread has allocated; what `malloc` returns is not initialised. -/

namespace HashingBenchmark
namespace Npj

/-- A non-null `Bucket*`: into the directory, or into the buffer number `buffer` of a thread. -/
inductive Ptr (T m : ℕ) where
  | directory (i : Fin m)
  | overflow (tid : Fin T) (buffer offset : ℕ)
  deriving DecidableEq

/-- `Bucket` without its latch. -/
structure Bucket (α : Type) (BUCKET_SIZE T m : ℕ) where
  count : ℕ
  next : Option (Ptr T m)
  tuples : Fin BUCKET_SIZE → α

/-- The state of a build: the buckets, and for each thread the number of the buffer `*buf` points to,
    its `count`, and the loop variable `i`. -/
structure State (α : Type) (BUCKET_SIZE T m : ℕ) where
  memory : Ptr T m → Bucket α BUCKET_SIZE T m
  buffer : Fin T → ℕ
  count : Fin T → ℕ
  pos : Fin T → ℕ

namespace State
variable {α : Type} {BUCKET_SIZE T m : ℕ}

/-- `*p`, if the pointer is valid. -/
def load (OVERFLOW_BUF_SIZE : ℕ) (s : State α BUCKET_SIZE T m) :
    Ptr T m → Option (Bucket α BUCKET_SIZE T m)
  | .directory i => some (s.memory (.directory i))
  | .overflow tid buffer offset =>
    if buffer ≤ s.buffer tid ∧ offset < OVERFLOW_BUF_SIZE then
      some (s.memory (.overflow tid buffer offset))
    else none

/-- `*p = b`. -/
def store (p : Ptr T m) (b : Bucket α BUCKET_SIZE T m) (s : State α BUCKET_SIZE T m) :
    State α BUCKET_SIZE T m := { s with memory := Function.update s.memory p b }

/-- All valid pointers. -/
def pointers (OVERFLOW_BUF_SIZE : ℕ) (s : State α BUCKET_SIZE T m) : List (Ptr T m) :=
  (List.finRange m).map .directory ++ (List.finRange T).flatMap fun tid =>
    (List.range (s.buffer tid + 1)).flatMap fun buffer =>
      (List.range OVERFLOW_BUF_SIZE).map (.overflow tid buffer)

/-- `allocate_hashtable` by one thread and `init_bucket_buffer` by each. -/
def init (zero : α) (malloc : Ptr T m → Bucket α BUCKET_SIZE T m) : State α BUCKET_SIZE T m where
  memory p := match p with
    | .directory _ => ⟨0, none, fun _ => zero⟩
    | .overflow tid buffer offset => malloc (.overflow tid buffer offset)
  buffer _ := 0
  count _ := 0
  pos _ := 0

/-- `get_new_bucket`. -/
def getNewBucket (OVERFLOW_BUF_SIZE : ℕ) (tid : Fin T) (s : State α BUCKET_SIZE T m) :
    Ptr T m × State α BUCKET_SIZE T m :=
  if s.count tid < OVERFLOW_BUF_SIZE then
    (.overflow tid (s.buffer tid) (s.count tid),
      { s with count := Function.update s.count tid (s.count tid + 1) })
  else
    (.overflow tid (s.buffer tid + 1) 0,
      { s with buffer := Function.update s.buffer tid (s.buffer tid + 1),
               count := Function.update s.count tid 1 })

/-- `dest = b->tuples + b->count; b->count ++; *dest = tuple`, for the bucket `b` at `p`. -/
def put (p : Ptr T m) (b : Bucket α BUCKET_SIZE T m) (tuple : α) (s : State α BUCKET_SIZE T m) :
    Outcome Fault (State α BUCKET_SIZE T m) :=
  if h : b.count < BUCKET_SIZE then
    .returned (s.store p
      { b with count := b.count + 1, tuples := Function.update b.tuples ⟨b.count, h⟩ tuple })
  else .threw .outOfBounds s

variable [NeZero BUCKET_SIZE]

/-- A new bucket with the tuple, between the directory bucket `head` at `curr` and its `next`. -/
def splice (OVERFLOW_BUF_SIZE : ℕ) (tid : Fin T) (curr : Ptr T m) (head : Bucket α BUCKET_SIZE T m)
    (tuple : α) (s : State α BUCKET_SIZE T m) : Outcome Fault (State α BUCKET_SIZE T m) :=
  let (b, s') := s.getNewBucket OVERFLOW_BUF_SIZE tid
  match s'.load OVERFLOW_BUF_SIZE b with
  | none => .threw .outOfBounds s'
  | some fresh =>
    .returned ((s'.store curr { head with next := some b }).store b
      ⟨1, head.next, Function.update fresh.tuples 0 tuple⟩)

/-- The critical section for one tuple, whose directory index is `idx`. -/
def insert (OVERFLOW_BUF_SIZE : ℕ) (tid : Fin T) (idx : Fin m) (tuple : α)
    (s : State α BUCKET_SIZE T m) : Outcome Fault (State α BUCKET_SIZE T m) :=
  let curr : Ptr T m := .directory idx
  let head := s.memory curr
  if head.count = BUCKET_SIZE then
    match head.next with
    | none => s.splice OVERFLOW_BUF_SIZE tid curr head tuple
    | some nxt =>
      match s.load OVERFLOW_BUF_SIZE nxt with
      | none => .threw .outOfBounds s
      | some b =>
        if b.count = BUCKET_SIZE then s.splice OVERFLOW_BUF_SIZE tid curr head tuple
        else s.put nxt b tuple
  else s.put curr head tuple

/-- One turn of the loop of `inlj_with_hash_build_rel_r_partition` in thread `tid`. -/
def step (OVERFLOW_BUF_SIZE : ℕ) (index : α → Fin m) (slices : Fin T → List α) (tid : Fin T)
    (s : State α BUCKET_SIZE T m) : Outcome Fault (State α BUCKET_SIZE T m) :=
  match (slices tid)[s.pos tid]? with
  | none => .returned s
  | some tuple =>
    (s.insert OVERFLOW_BUF_SIZE tid (index tuple) tuple).andThen fun s' =>
      .returned { s' with pos := Function.update s'.pos tid (s'.pos tid + 1) }

/-- A run of the build in which the critical sections come in the order `schedule`. -/
def build (OVERFLOW_BUF_SIZE : ℕ) (index : α → Fin m) (slices : Fin T → List α)
    (schedule : List (Fin T)) (s : State α BUCKET_SIZE T m) :
    Outcome Fault (State α BUCKET_SIZE T m) :=
  Outcome.runAll (step OVERFLOW_BUF_SIZE index slices) schedule s

end State

/-! ### The probe -/

open Join

/-- `HASH`. -/
def HASH (X MASK SKIP : UInt32) : UInt32 := (X &&& MASK) >>> SKIP

/-- `murmur_hash_32`. -/
def murmurHash32 (value : UInt32) : UInt32 :=
  let value := value ^^^ (value >>> 16)
  let value := value * 0x85ebca6b
  let value := value ^^^ (value >>> 13)
  let value := value * 0xc2b2ae35
  value ^^^ (value >>> 16)

/-- `alt_mod`. -/
def altMod (x n : UInt32) : UInt32 := ((x.toUInt64 * n.toUInt64) >>> 32).toUInt32

/-- `idx` for a key, with or without `USE_MURMUR3_HASH`; `skip_bits` is 0 and `hash_mask` is
    `num_buckets - 1`. -/
def bucketIndex (USE_MURMUR3_HASH : Bool) (num_buckets : ℕ) (key : UInt32) : ℕ :=
  if USE_MURMUR3_HASH then (altMod (murmurHash32 key) (UInt32.ofNat num_buckets)).toNat
  else (HASH key (UInt32.ofNat (num_buckets - 1)) 0).toNat

namespace State
variable {BUCKET_SIZE T m : ℕ} [NeZero BUCKET_SIZE]

/-- The loop of the probe over the chain, with `SINGLE_TUPLE_PER_BUCKET`. -/
def chainLoop (OVERFLOW_BUF_SIZE : ℕ) (s : State Tuple BUCKET_SIZE T m) (key : UInt32) :
    ℕ → Ptr T m → UInt64 → Except Fault UInt64
  | 0, _, _ => .error .diverges
  | fuel + 1, p, matches' =>
    match s.load OVERFLOW_BUF_SIZE p with
    | none => .error .outOfBounds
    | some b =>
      let matches'' := if key = (b.tuples 0).key then matches' + 1 else matches'
      match b.next with
      | none => .ok matches''
      | some p' => chainLoop OVERFLOW_BUF_SIZE s key fuel p' matches''

/-- The loop of `inlj_with_hash_probe_rel_s_partition` over the tuples of S. -/
def probeLoop (OVERFLOW_BUF_SIZE : ℕ) (index : UInt32 → Fin m) (s : State Tuple BUCKET_SIZE T m) :
    List Tuple → UInt64 → Except Fault UInt64
  | [], matches' => .ok matches'
  | tuple :: rest, matches' =>
    match chainLoop OVERFLOW_BUF_SIZE s tuple.key (s.pointers OVERFLOW_BUF_SIZE).length
        (.directory (index tuple.key)) matches' with
    | .error fault => .error fault
    | .ok matches'' => probeLoop OVERFLOW_BUF_SIZE index s rest matches''

/-- `inlj_with_hash_probe_rel_s_partition`. -/
def inljWithHashProbeRelSPartition (OVERFLOW_BUF_SIZE : ℕ) (index : UInt32 → Fin m)
    (s : State Tuple BUCKET_SIZE T m) (rel_s_partition : List Tuple) : Except Fault UInt64 :=
  probeLoop OVERFLOW_BUF_SIZE index s rel_s_partition 0

end State
end Npj
end HashingBenchmark
