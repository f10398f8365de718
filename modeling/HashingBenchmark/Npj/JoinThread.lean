import HashingBenchmark.Npj.Barrier
import HashingBenchmark.Npj.Latch

/-! `inlj_join_thread` of the join with bucket chaining, and the threads of `main`.

    The thread function is a sequence of parts with `BARRIER_ARRIVE` between them: one thread chooses
    the functions, each allocates its overflow buffer and thread 0 the table, all take over the
    pointer to it, build, and then probe `RUN_NUMS` times between two barriers each. A turn of a
    thread is one statement of its part; in the build it is a turn of `Latch.lean` and in the probe it
    reads one bucket. -/

namespace HashingBenchmark
namespace Npj
namespace JoinThread
open Join

/-- The local variables of `inlj_with_hash_probe_rel_s_partition`; `b` is null while the next bucket
    is the one of the directory. -/
structure Probe (T m : ℕ) where
  i : ℕ
  b : Option (Ptr T m)
  matches' : UInt64

/-- What the threads share, and what each has for itself; `completed` is the number of parts a thread
    is through with. -/
structure Data (BUCKET_SIZE T m : ℕ) where
  machine : SpinLock.Machine (Fin T) (Fin m) (Ptr T m) (Option (Bucket Tuple BUCKET_SIZE T m))
    (Latch.Thread T m)
  ht : Bool
  args_ht : Fin T → Bool
  probe : Fin T → Probe T m
  num_results : Fin T → UInt64
  completed : Fin T → ℕ
  fault : Fin T → Option Fault

/-- The parts of the thread function between its barriers. -/
inductive Part where
  | functions
  | allocate
  | publish
  | build
  | report
  | between
  | probe
  | done
  deriving DecidableEq

/-- The part that comes after so many barriers, if `RUN_NUMS` is not 0. -/
def part (RUN_NUMS : ℕ) : ℕ → Part
  | 0 => .functions
  | 1 => .allocate
  | 2 => .publish
  | 3 => .build
  | 4 => .report
  | k + 5 => if 2 * RUN_NUMS ≤ k then .done else if k % 2 = 0 then .between else .probe

section Steps
variable {BUCKET_SIZE T m : ℕ}

namespace Data

def complete (k : ℕ) (t : Fin T) (d : Data BUCKET_SIZE T m) : Data BUCKET_SIZE T m :=
  { d with completed := Function.update d.completed t (k + 1) }

def fail (f : Fault) (t : Fin T) (d : Data BUCKET_SIZE T m) : Data BUCKET_SIZE T m :=
  { d with fault := Function.update d.fault t (some f) }

/-- `init_bucket_buffer`. -/
def initBucketBuffer (OVERFLOW_BUF_SIZE : ℕ) (malloc : Ptr T m → Bucket Tuple BUCKET_SIZE T m)
    (t : Fin T) (d : Data BUCKET_SIZE T m) : Data BUCKET_SIZE T m :=
  { d with machine := { d.machine with
    memory := Latch.allocate OVERFLOW_BUF_SIZE malloc t 0 d.machine.memory,
    regs := Function.update d.machine.regs t ⟨0, 0, 0, .readNext⟩ } }

/-- The directory as `allocate_hashtable` returns it. -/
def zeroDirectory (memory : Latch.Memory Tuple BUCKET_SIZE T m) : Latch.Memory Tuple BUCKET_SIZE T m
  | .directory _ => some ⟨0, none, fun _ => ⟨0, 0⟩⟩
  | .overflow t buffer offset => memory (.overflow t buffer offset)

/-- `allocate_hashtable`: the buckets are zeroed, also their latches. -/
def allocateHashtable (d : Data BUCKET_SIZE T m) : Data BUCKET_SIZE T m :=
  { d with machine := { d.machine with
             latch := fun _ => false, memory := zeroDirectory d.machine.memory },
           ht := true }

/-- A turn of the build. -/
def build (OVERFLOW_BUF_SIZE : ℕ) (index : Tuple → Fin m) (rel_r : Fin T → List Tuple)
    (malloc : Ptr T m → Bucket Tuple BUCKET_SIZE T m) (k : ℕ) (t : Fin T)
    (d : Data BUCKET_SIZE T m) : Data BUCKET_SIZE T m :=
  let P := Latch.program OVERFLOW_BUF_SIZE index rel_r malloc
  if d.args_ht t then
    if (d.machine.regs t).pos < (rel_r t).length then { d with machine := SpinLock.turn P t d.machine }
    else d.complete k t
  else d.fail .outOfBounds t

variable [NeZero BUCKET_SIZE]

/-- A turn of the probe: one bucket of the chain of one tuple. -/
def probeBucket (index : UInt32 → Fin m) (rel_s : Fin T → List Tuple) (k : ℕ) (t : Fin T)
    (d : Data BUCKET_SIZE T m) : Data BUCKET_SIZE T m :=
  let r := d.probe t
  match (rel_s t)[r.i]? with
  | none => { d with num_results := Function.update d.num_results t r.matches' }.complete k t
  | some tuple =>
    match if d.args_ht t then d.machine.memory (r.b.getD (.directory (index tuple.key))) else none with
    | none => d.fail .outOfBounds t
    | some b =>
      let matches' := if tuple.key = (b.tuples 0).key then r.matches' + 1 else r.matches'
      match b.next with
      | none => { d with probe := Function.update d.probe t ⟨r.i + 1, none, matches'⟩ }
      | some p => { d with probe := Function.update d.probe t ⟨r.i, some p, matches'⟩ }

end Data

variable [NeZero BUCKET_SIZE]

/-- `inlj_join_thread`. -/
def work (OVERFLOW_BUF_SIZE RUN_NUMS : ℕ) (index : UInt32 → Fin m) (rel_r rel_s : Fin T → List Tuple)
    (malloc : Ptr T m → Bucket Tuple BUCKET_SIZE T m) :
    Phased.Work (Fin T) (Data BUCKET_SIZE T m) where
  step k t d :=
    match part RUN_NUMS k with
    | .functions => d.complete k t
    | .allocate =>
      let d := d.initBucketBuffer OVERFLOW_BUF_SIZE malloc t
      (if t.val = 0 then d.allocateHashtable else d).complete k t
    | .publish => { d with args_ht := Function.update d.args_ht t d.ht }.complete k t
    | .build => d.build OVERFLOW_BUF_SIZE (fun r => index r.key) rel_r malloc k t
    | .report => d.complete k t
    | .between => { d with probe := Function.update d.probe t ⟨0, none, 0⟩ }.complete k t
    | .probe => d.probeBucket index rel_s k t
    | .done => d
  finished k t d := k < d.completed t

/-- The state in which `main` creates the threads. -/
def init (num_results : Fin T → UInt64) : Data BUCKET_SIZE T m where
  machine := ⟨fun _ => false, fun _ => none, fun _ => false, fun _ => ⟨0, 0, 0, .readNext⟩⟩
  ht := false
  args_ht _ := false
  probe _ := ⟨0, none, 0⟩
  num_results := num_results
  completed _ := 0
  fault _ := none

/-- `result` of `main`, when all threads are joined. -/
def result (d : Data BUCKET_SIZE T m) : UInt64 :=
  (List.finRange T).foldl (fun result t => result + d.num_results t) 0

end Steps
end JoinThread
end Npj
end HashingBenchmark
