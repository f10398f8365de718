import HashingBenchmark.Lib.SpinLock
import HashingBenchmark.Npj.Interleave

/-! The build of the bucket-chaining table, access by access.

    In `Table.lean` a critical section is one step. Here every turn of a thread is one attempt at the
    latch, one read or write of a field of a bucket, or `get_new_bucket`, which only touches the
    thread's own buffers. The statements between `lock` and `unlock` come in the order of
    `inlj_with_hash_build_rel_r_partition`; a read through a pointer that no `malloc` has returned
    ends in a fault. -/

namespace HashingBenchmark
namespace Npj
namespace Latch

variable {α : Type} {BUCKET_SIZE T m : ℕ}

/-- The statement a thread is at, with its local variables. -/
inductive Pc (T m : ℕ) where
  | readNext
  | readCount (nxt : Option (Ptr T m))
  | readNextCount (nxt : Ptr T m)
  | newBucket (nxt : Option (Ptr T m))
  | linkHead (nxt : Option (Ptr T m)) (b : Ptr T m)
  | linkNew (nxt : Option (Ptr T m)) (b : Ptr T m)
  | countNew (b : Ptr T m)
  | dest (p : Ptr T m)
  | readInc (p : Ptr T m) (dest : ℕ)
  | writeInc (p : Ptr T m) (dest count : ℕ)
  | write (p : Ptr T m) (dest : ℕ)
  | unlock
  | fault (f : Fault)
  deriving DecidableEq

/-- What a thread has for itself: the number of its current buffer, the `count` there, the loop
    variable and where it is in the loop. -/
structure Thread (T m : ℕ) where
  buffer : ℕ
  count : ℕ
  pos : ℕ
  pc : Pc T m

/-- The buckets, where there are any. -/
abbrev Memory (α : Type) (BUCKET_SIZE T m : ℕ) := Ptr T m → Option (Bucket α BUCKET_SIZE T m)

/-- The access to memory of a statement: the bucket, and what comes next with that bucket. -/
def access (BUCKET_SIZE : ℕ) (curr : Ptr T m) (tuple : α) :
    Pc T m → Option (Ptr T m × (Bucket α BUCKET_SIZE T m → Pc T m × Bucket α BUCKET_SIZE T m))
  | .readNext => some (curr, fun b => (.readCount b.next, b))
  | .readCount nxt => some (curr, fun b =>
      (if b.count = BUCKET_SIZE then
        match nxt with
        | none => .newBucket none
        | some p => .readNextCount p
      else .dest curr, b))
  | .readNextCount nxt => some (nxt, fun b =>
      (if b.count = BUCKET_SIZE then .newBucket (some nxt) else .dest nxt, b))
  | .newBucket _ => none
  | .linkHead nxt b => some (curr, fun head => (.linkNew nxt b, { head with next := some b }))
  | .linkNew nxt b => some (b, fun fresh => (.countNew b, { fresh with next := nxt }))
  | .countNew b => some (b, fun fresh => (.write b 0, { fresh with count := 1 }))
  | .dest p => some (p, fun b => (.readInc p b.count, b))
  | .readInc p dest => some (p, fun b => (.writeInc p dest b.count, b))
  | .writeInc p dest count => some (p, fun b => (.write p dest, { b with count := count + 1 }))
  | .write p dest => some (p, fun b =>
      if h : dest < BUCKET_SIZE then
        (.unlock, { b with tuples := Function.update b.tuples ⟨dest, h⟩ tuple })
      else (.fault .outOfBounds, b))
  | .unlock => none
  | .fault _ => none

/-- A new `BucketBuffer` of a thread, as `malloc` returns it. -/
def allocate (OVERFLOW_BUF_SIZE : ℕ) (malloc : Ptr T m → Bucket α BUCKET_SIZE T m) (tid : Fin T)
    (buffer : ℕ) (memory : Memory α BUCKET_SIZE T m) : Memory α BUCKET_SIZE T m
  | .directory i => memory (.directory i)
  | .overflow t b offset =>
    if t = tid ∧ b = buffer ∧ offset < OVERFLOW_BUF_SIZE then some (malloc (.overflow t b offset))
    else memory (.overflow t b offset)

/-- `get_new_bucket`. -/
def getNewBucket (OVERFLOW_BUF_SIZE : ℕ) (malloc : Ptr T m → Bucket α BUCKET_SIZE T m) (tid : Fin T)
    (nxt : Option (Ptr T m)) (r : Thread T m) (memory : Memory α BUCKET_SIZE T m) :
    Thread T m × Memory α BUCKET_SIZE T m :=
  if r.count < OVERFLOW_BUF_SIZE then
    ({ r with count := r.count + 1, pc := .linkHead nxt (.overflow tid r.buffer r.count) }, memory)
  else
    ({ r with buffer := r.buffer + 1, count := 1,
              pc := .linkHead nxt (.overflow tid (r.buffer + 1) 0) },
      allocate OVERFLOW_BUF_SIZE malloc tid (r.buffer + 1) memory)

/-- A statement of the critical section for a tuple with directory bucket `curr`. -/
def statement (OVERFLOW_BUF_SIZE : ℕ) (malloc : Ptr T m → Bucket α BUCKET_SIZE T m) (tid : Fin T)
    (curr : Ptr T m) (tuple : α) (r : Thread T m) (memory : Memory α BUCKET_SIZE T m) :
    Thread T m × Memory α BUCKET_SIZE T m :=
  match r.pc with
  | .newBucket nxt => getNewBucket OVERFLOW_BUF_SIZE malloc tid nxt r memory
  | pc =>
    match access BUCKET_SIZE curr tuple pc with
    | none => (r, memory)
    | some (p, f) =>
      match memory p with
      | none => ({ r with pc := .fault .outOfBounds }, memory)
      | some b => ({ r with pc := (f b).1 }, Function.update memory p (some (f b).2))

/-- The loop of `inlj_with_hash_build_rel_r_partition` in all threads. -/
def program (OVERFLOW_BUF_SIZE : ℕ) (index : α → Fin m) (slices : Fin T → List α)
    (malloc : Ptr T m → Bucket α BUCKET_SIZE T m) :
    SpinLock.Program (Fin T) (Fin m) (Ptr T m) (Option (Bucket α BUCKET_SIZE T m)) (Thread T m) where
  lockOf tid r := ((slices tid)[r.pos]?).map index
  body tid r memory :=
    match (slices tid)[r.pos]? with
    | none => (r, memory)
    | some tuple =>
      statement OVERFLOW_BUF_SIZE malloc tid (.directory (index tuple)) tuple r memory
  atEnd r := r.pc = .unlock
  leave r := { r with pos := r.pos + 1, pc := .readNext }

/-- After `allocate_hashtable` and `init_bucket_buffer`. -/
def start (OVERFLOW_BUF_SIZE : ℕ) (zero : α) (malloc : Ptr T m → Bucket α BUCKET_SIZE T m) :
    SpinLock.Machine (Fin T) (Fin m) (Ptr T m) (Option (Bucket α BUCKET_SIZE T m)) (Thread T m) where
  latch _ := false
  memory := (State.init zero malloc).load OVERFLOW_BUF_SIZE
  inside _ := false
  regs _ := ⟨0, 0, 0, .readNext⟩

end Latch
end Npj
end HashingBenchmark
