import HashingBenchmark.Npj.Latch

/-! One critical section of the build, statement by statement.

    A section works on its directory bucket, the bucket behind it and the part of its thread's buffers
    that has not been handed out (`cells`); every statement stays there (`Owned.statement`) and does
    the same on any memory that agrees there (`Owned.statement_congr`). From the memory of an atomic
    state a section does what `State.insert` does (`ends_of_insert`). -/

namespace HashingBenchmark
namespace Npj
namespace Latch
open SpinLock

variable {α : Type} {BUCKET_SIZE T m OVERFLOW_BUF_SIZE : ℕ}
  {malloc : Ptr T m → Bucket α BUCKET_SIZE T m}

/-! ### Where a section works -/

/-- A bucket of the thread's buffers that it has not handed out. -/
def Fresh (tid : Fin T) (r : Thread T m) : Ptr T m → Prop
  | .directory _ => False
  | .overflow t buffer offset =>
    t = tid ∧ (r.buffer < buffer ∨ buffer = r.buffer ∧ r.count ≤ offset)

/-- The buckets of a section for a tuple with directory bucket `curr`. -/
def cells (tid : Fin T) (curr : Ptr T m) (r : Thread T m) (memory : Memory α BUCKET_SIZE T m) :
    Set (Ptr T m) :=
  {p | p = curr ∨ (∃ head, memory curr = some head ∧ head.next = some p) ∨ Fresh tid r p}

/-- The buckets of the next section of a thread. -/
def foot (index : α → Fin m) (slices : Fin T → List α) (tid : Fin T) (r : Thread T m)
    (memory : Memory α BUCKET_SIZE T m) : Set (Ptr T m) :=
  match (slices tid)[r.pos]? with
  | none => ∅
  | some tuple => cells tid (.directory (index tuple)) r memory

theorem cells_congr {tid : Fin T} {curr : Ptr T m} {r : Thread T m}
    {memory memory' : Memory α BUCKET_SIZE T m}
    (h : ∀ p ∈ cells tid curr r memory, memory' p = memory p) :
    cells tid curr r memory' = cells tid curr r memory := by
  have hcurr : memory' curr = memory curr := h curr (.inl rfl)
  rw [cells, cells, hcurr]

/-- The buckets that the local variables of a statement lead to are in `F`, and as long as the
    section has no new bucket the buffers are those of `r₀`. -/
def OwnedPc (F : Set (Ptr T m)) (r₀ r : Thread T m) : Prop :=
  match r.pc with
  | .readNext => r.buffer = r₀.buffer ∧ r.count = r₀.count
  | .readCount nxt => (∀ p, nxt = some p → p ∈ F) ∧ r.buffer = r₀.buffer ∧ r.count = r₀.count
  | .readNextCount nxt => nxt ∈ F ∧ r.buffer = r₀.buffer ∧ r.count = r₀.count
  | .newBucket _ => r.buffer = r₀.buffer ∧ r.count = r₀.count
  | .linkHead _ b => b ∈ F
  | .linkNew _ b => b ∈ F
  | .countNew b => b ∈ F
  | .dest p => p ∈ F
  | .readInc p _ => p ∈ F
  | .writeInc p _ _ => p ∈ F
  | .write p _ => p ∈ F
  | .unlock => True
  | .fault _ => True

/-- A state in a section that has started with `r₀` and `memory₀`. -/
structure Owned (F : Set (Ptr T m)) (curr : Ptr T m) (r₀ : Thread T m)
    (memory₀ : Memory α BUCKET_SIZE T m) (x : Thread T m × Memory α BUCKET_SIZE T m) : Prop where
  pos : x.1.pos = r₀.pos
  head : x.1.pc = .readNext → x.2 curr = memory₀ curr
  pc : OwnedPc F r₀ x.1

section Statement
variable {tid : Fin T} {curr : Ptr T m} {tuple : α} {r₀ r : Thread T m}
  {memory₀ memory memory₁ : Memory α BUCKET_SIZE T m}

/-- The bucket a statement accesses. -/
theorem Owned.access_mem (h : Owned (cells tid curr r₀ memory₀) curr r₀ memory₀ (r, memory))
    {p : Ptr T m} {f : Bucket α BUCKET_SIZE T m → Pc T m × Bucket α BUCKET_SIZE T m}
    (haccess : access BUCKET_SIZE curr tuple r.pc = some (p, f)) : p ∈ cells tid curr r₀ memory₀ := by
  have hpc := h.pc
  have hcurr : curr ∈ cells tid curr r₀ memory₀ := .inl rfl
  simp only [OwnedPc] at hpc
  cases hr : r.pc <;> rw [hr] at haccess hpc <;>
    simp only [access, Option.some.injEq, Prod.mk.injEq, reduceCtorEq] at haccess <;>
    obtain ⟨rfl, -⟩ := haccess <;> first | exact hcurr | exact hpc | exact hpc.1

/-- A statement that is not `get_new_bucket` reads and writes one bucket, or does nothing. -/
theorem statement_cases (OVERFLOW_BUF_SIZE : ℕ) (malloc : Ptr T m → Bucket α BUCKET_SIZE T m)
    (tid : Fin T) (curr : Ptr T m) (tuple : α) (r : Thread T m) :
    (∃ nxt, r.pc = .newBucket nxt ∧ ∀ memory : Memory α BUCKET_SIZE T m,
      statement OVERFLOW_BUF_SIZE malloc tid curr tuple r memory
        = getNewBucket OVERFLOW_BUF_SIZE malloc tid nxt r memory) ∨
    (access BUCKET_SIZE curr tuple r.pc = none ∧
      ∀ memory : Memory α BUCKET_SIZE T m,
        statement OVERFLOW_BUF_SIZE malloc tid curr tuple r memory = (r, memory)) ∨
    ∃ p f, access BUCKET_SIZE curr tuple r.pc = some (p, f) ∧
      ∀ memory : Memory α BUCKET_SIZE T m,
        (memory p = none ∧ statement OVERFLOW_BUF_SIZE malloc tid curr tuple r memory
          = ({ r with pc := .fault .outOfBounds }, memory)) ∨
        ∃ b, memory p = some b ∧ statement OVERFLOW_BUF_SIZE malloc tid curr tuple r memory
          = ({ r with pc := (f b).1 }, Function.update memory p (some (f b).2)) := by
  by_cases hnew : ∃ nxt, r.pc = .newBucket nxt
  · obtain ⟨nxt, hnxt⟩ := hnew
    exact .inl ⟨nxt, hnxt, fun memory => by rw [statement, hnxt]⟩
  push Not at hnew
  cases haccess : access BUCKET_SIZE curr tuple r.pc with
  | none =>
    refine .inr (.inl ⟨rfl, fun memory => ?_⟩)
    rw [statement]
    split
    · exact absurd ‹_› (hnew _)
    · simp only [haccess]
  | some pf =>
    obtain ⟨p, f⟩ := pf
    refine .inr (.inr ⟨p, f, rfl, fun memory => ?_⟩)
    rw [statement]
    split
    · exact absurd ‹_› (hnew _)
    · cases hload : memory p with
      | none => exact .inl ⟨rfl, by simp only [haccess, hload]⟩
      | some b => exact .inr ⟨b, rfl, by simp only [haccess, hload]⟩

/-- A statement does the same on memories that agree on the buckets of its section. -/
theorem Owned.statement_congr
    (h : Owned (cells tid curr r₀ memory₀) curr r₀ memory₀ (r, memory))
    (hsame : ∀ p ∈ cells tid curr r₀ memory₀, memory₁ p = memory p) :
    (statement OVERFLOW_BUF_SIZE malloc tid curr tuple r memory₁).1
      = (statement OVERFLOW_BUF_SIZE malloc tid curr tuple r memory).1 ∧
    (∀ p ∈ cells tid curr r₀ memory₀,
      (statement OVERFLOW_BUF_SIZE malloc tid curr tuple r memory₁).2 p
        = (statement OVERFLOW_BUF_SIZE malloc tid curr tuple r memory).2 p) ∧
    ∀ p ∉ cells tid curr r₀ memory₀,
      (statement OVERFLOW_BUF_SIZE malloc tid curr tuple r memory₁).2 p = memory₁ p := by
  rcases statement_cases OVERFLOW_BUF_SIZE malloc tid curr tuple r with
    ⟨nxt, hnxt, hnew⟩ | ⟨-, hnone⟩ | ⟨p, f, haccess, hstep⟩
  · have hpc := h.pc
    simp only [OwnedPc, hnxt] at hpc
    rw [hnew, hnew, getNewBucket, getNewBucket]
    split_ifs with hroom
    · exact ⟨rfl, hsame, fun _ _ => rfl⟩
    · refine ⟨rfl, fun p hp => ?_, fun p hp => ?_⟩
      · cases p with
        | directory i => exact hsame _ hp
        | overflow t b offset =>
          simp only [allocate]
          rw [hsame _ hp]
      · cases p with
        | directory i => rfl
        | overflow t b offset =>
          simp only [allocate]
          refine if_neg fun hin => hp (.inr (.inr ⟨hin.1, .inl ?_⟩))
          rw [hin.2.1, hpc.1]
          exact Nat.lt_succ_self _
  · rw [hnone, hnone]
    exact ⟨rfl, hsame, fun _ _ => rfl⟩
  · have hp := h.access_mem haccess
    have hload := hsame p hp
    rcases hstep memory with ⟨hm, heq⟩ | ⟨b, hm, heq⟩ <;>
      rcases hstep memory₁ with ⟨hm₁, heq₁⟩ | ⟨b₁, hm₁, heq₁⟩ <;>
      rw [heq, heq₁] <;> rw [hm, hm₁] at hload
    · exact ⟨rfl, hsame, fun _ _ => rfl⟩
    · cases hload
    · cases hload
    · obtain rfl := Option.some.inj hload
      refine ⟨rfl, fun q hq => ?_, fun q hq => ?_⟩
      · rcases eq_or_ne q p with rfl | hne
        · simp only [Function.update_self]
        · simp only [Function.update_of_ne hne]
          exact hsame q hq
      · exact Function.update_of_ne (fun hqp => hq (by rw [hqp]; exact hp)) _ _

/-- What comes after an access is owned. -/
theorem Owned.access_next (h : Owned (cells tid curr r₀ memory₀) curr r₀ memory₀ (r, memory))
    {p : Ptr T m} {f : Bucket α BUCKET_SIZE T m → Pc T m × Bucket α BUCKET_SIZE T m}
    (haccess : access BUCKET_SIZE curr tuple r.pc = some (p, f)) {b : Bucket α BUCKET_SIZE T m}
    (hload : memory p = some b) :
    (f b).1 ≠ .readNext ∧ OwnedPc (cells tid curr r₀ memory₀) r₀ { r with pc := (f b).1 } := by
  have hpc := h.pc
  have hhead := h.head
  have hcurr : curr ∈ cells tid curr r₀ memory₀ := .inl rfl
  simp only [OwnedPc] at hpc
  cases hr : r.pc <;> rw [hr] at haccess hpc <;>
    simp only [access, Option.some.injEq, Prod.mk.injEq, reduceCtorEq] at haccess <;>
    obtain ⟨rfl, rfl⟩ := haccess
  case readNext =>
    refine ⟨by simp, fun p hp => .inr (.inl ⟨b, ?_, hp⟩), hpc⟩
    rw [← hhead hr]
    exact hload
  case readCount nxt =>
    simp only
    split_ifs
    · cases nxt with
      | none => exact ⟨by simp, hpc.2⟩
      | some p => exact ⟨by simp, hpc.1 p rfl, hpc.2⟩
    · exact ⟨by simp, hcurr⟩
  case readNextCount nxt =>
    simp only
    split_ifs
    · exact ⟨by simp, hpc.2⟩
    · exact ⟨by simp, hpc.1⟩
  case write p dest =>
    simp only
    split_ifs <;> exact ⟨by simp, trivial⟩
  all_goals exact ⟨by simp, hpc⟩

/-- What a statement makes of an owned state is owned. -/
theorem Owned.statement (h : Owned (cells tid curr r₀ memory₀) curr r₀ memory₀ (r, memory)) :
    Owned (cells tid curr r₀ memory₀) curr r₀ memory₀
      (statement OVERFLOW_BUF_SIZE malloc tid curr tuple r memory) := by
  have hpos := h.pos
  rcases statement_cases OVERFLOW_BUF_SIZE malloc tid curr tuple r with
    ⟨nxt, hnxt, hnew⟩ | ⟨-, hnone⟩ | ⟨p, f, haccess, hstep⟩
  · have hpc := h.pc
    simp only [OwnedPc, hnxt] at hpc
    rw [hnew, getNewBucket]
    split_ifs
    · exact ⟨hpos, nofun, .inr (.inr ⟨rfl, .inr ⟨hpc.1, hpc.2.ge⟩⟩)⟩
    · refine ⟨hpos, nofun, .inr (.inr ⟨rfl, .inl ?_⟩)⟩
      rw [hpc.1]
      exact Nat.lt_succ_self _
  · rw [hnone]
    exact h
  · rcases hstep memory with ⟨-, heq⟩ | ⟨b, hload, heq⟩ <;> rw [heq]
    · exact ⟨hpos, nofun, trivial⟩
    · obtain ⟨hne, hpc⟩ := h.access_next haccess hload
      exact ⟨hpos, fun hnext => absurd hnext hne, hpc⟩

end Statement
/-! ### What a section does -/

/-- A thread at the start of a section, with the buffers and the loop variable of an atomic state. -/
def threadOf (s : State α BUCKET_SIZE T m) (tid : Fin T) : Thread T m :=
  ⟨s.buffer tid, s.count tid, s.pos tid, .readNext⟩

/-- The buffers to come are as `malloc` is going to return them. -/
def Raw (malloc : Ptr T m → Bucket α BUCKET_SIZE T m) (s : State α BUCKET_SIZE T m) : Prop :=
  ∀ tid buffer offset, s.buffer tid < buffer →
    s.memory (.overflow tid buffer offset) = malloc (.overflow tid buffer offset)

section Ends
variable {index : α → Fin m} {slices : Fin T → List α} {tid : Fin T} {tuple : α} {r : Thread T m}
  {memory : Memory α BUCKET_SIZE T m} {pc : Pc T m} {p : Ptr T m}
  {f : Bucket α BUCKET_SIZE T m → Pc T m × Bucket α BUCKET_SIZE T m} {b : Bucket α BUCKET_SIZE T m}
  {y : Thread T m × Memory α BUCKET_SIZE T m}

theorem ends_statement (htuple : (slices tid)[r.pos]? = some tuple) (hpc : r.pc ≠ .unlock)
    (h : Ends (program OVERFLOW_BUF_SIZE index slices malloc) tid
      (statement OVERFLOW_BUF_SIZE malloc tid (.directory (index tuple)) tuple r memory) y) :
    Ends (program OVERFLOW_BUF_SIZE index slices malloc) tid (r, memory) y := by
  refine Ends.step (decide_eq_false hpc) ?_
  simp only [program, htuple]
  exact h

/-- One access to a bucket that is there. -/
theorem ends_access (htuple : (slices tid)[r.pos]? = some tuple)
    (haccess : access BUCKET_SIZE (.directory (index tuple)) tuple pc = some (p, f))
    (hload : memory p = some b)
    (h : Ends (program OVERFLOW_BUF_SIZE index slices malloc) tid
      ({ r with pc := (f b).1 }, Function.update memory p (some (f b).2)) y) :
    Ends (program OVERFLOW_BUF_SIZE index slices malloc) tid ({ r with pc := pc }, memory) y := by
  refine ends_statement htuple (r := { r with pc := pc }) (fun hpc => ?_) ?_
  · simp only at hpc
    rw [hpc] at haccess
    cases haccess
  · rcases statement_cases OVERFLOW_BUF_SIZE malloc tid (.directory (index tuple)) tuple
      { r with pc := pc } with ⟨nxt, hnxt, -⟩ | ⟨hnone, -⟩ | ⟨q, g, haccess', hstep⟩
    · simp only at hnxt
      rw [hnxt] at haccess
      cases haccess
    · rw [haccess] at hnone
      cases hnone
    · simp only [haccess, Option.some.injEq, Prod.mk.injEq] at haccess'
      obtain ⟨rfl, rfl⟩ := haccess'
      rcases hstep memory with ⟨hnone, -⟩ | ⟨b', hload', heq⟩
      · rw [hload] at hnone
        cases hnone
      · obtain rfl := Option.some.inj (hload.symm.trans hload')
        rw [heq]
        exact h

/-- One read. -/
theorem ends_read (htuple : (slices tid)[r.pos]? = some tuple)
    (haccess : access BUCKET_SIZE (.directory (index tuple)) tuple pc = some (p, f))
    (hload : memory p = some b) (hread : (f b).2 = b)
    (h : Ends (program OVERFLOW_BUF_SIZE index slices malloc) tid
      ({ r with pc := (f b).1 }, memory) y) :
    Ends (program OVERFLOW_BUF_SIZE index slices malloc) tid ({ r with pc := pc }, memory) y := by
  refine ends_access htuple haccess hload ?_
  rw [hread, ← hload, Function.update_eq_self]
  exact h

/-- A tuple more in the bucket at `p`. -/
theorem ends_put (htuple : (slices tid)[r.pos]? = some tuple) (hload : memory p = some b)
    (hroom : b.count < BUCKET_SIZE) :
    Ends (program OVERFLOW_BUF_SIZE index slices malloc) tid ({ r with pc := .dest p }, memory)
      ({ r with pc := .unlock }, Function.update memory p (some
        { b with count := b.count + 1,
                 tuples := Function.update b.tuples ⟨b.count, hroom⟩ tuple })) := by
  refine ends_read htuple rfl hload rfl ?_
  refine ends_read htuple rfl hload rfl ?_
  refine ends_access htuple rfl hload ?_
  refine ends_access htuple rfl (Function.update_self ..) ?_
  simp only [hroom, dif_pos, Function.update_idem]
  exact Ends.refl (by simp [program])

/-- A new bucket `q` with the tuple behind the directory bucket. -/
theorem ends_splice [NeZero BUCKET_SIZE] (htuple : (slices tid)[r.pos]? = some tuple)
    {head fresh : Bucket α BUCKET_SIZE T m} {q : Ptr T m} (nxt : Option (Ptr T m))
    (hhead : memory (.directory (index tuple)) = some head) (hfresh : memory q = some fresh)
    (hne : q ≠ .directory (index tuple)) :
    Ends (program OVERFLOW_BUF_SIZE index slices malloc) tid
      ({ r with pc := .linkHead nxt q }, memory)
      ({ r with pc := .unlock },
        Function.update (Function.update memory (.directory (index tuple))
          (some { head with next := some q })) q
          (some ⟨1, nxt, Function.update fresh.tuples 0 tuple⟩)) := by
  refine ends_access htuple rfl hhead ?_
  refine ends_access htuple rfl ((Function.update_of_ne hne _ _).trans hfresh) ?_
  refine ends_access htuple rfl (Function.update_self ..) ?_
  refine ends_access htuple rfl (Function.update_self ..) ?_
  simp only [NeZero.pos BUCKET_SIZE, dif_pos, Function.update_idem]
  exact Ends.refl (by simp [program])

end Ends

theorem load_store' {s : State α BUCKET_SIZE T m} {p : Ptr T m} {b : Bucket α BUCKET_SIZE T m}
    (hp : (s.load OVERFLOW_BUF_SIZE p).isSome) :
    (s.store p b).load OVERFLOW_BUF_SIZE
      = Function.update (s.load OVERFLOW_BUF_SIZE) p (some b) := by
  funext q
  rw [State.load_store hp, Function.update_apply]

/-- `get_new_bucket` on the atomic state and in the thread. -/
theorem getNewBucket_eq {s : State α BUCKET_SIZE T m} (hraw : Raw malloc s) (tid : Fin T)
    (nxt : Option (Ptr T m)) (pc : Pc T m) :
    getNewBucket OVERFLOW_BUF_SIZE malloc tid nxt { threadOf s tid with pc := pc }
        (s.load OVERFLOW_BUF_SIZE)
      = ({ threadOf (s.getNewBucket OVERFLOW_BUF_SIZE tid).2 tid with
            pc := .linkHead nxt (s.getNewBucket OVERFLOW_BUF_SIZE tid).1 },
          (s.getNewBucket OVERFLOW_BUF_SIZE tid).2.load OVERFLOW_BUF_SIZE) := by
  rw [getNewBucket, State.getNewBucket]
  simp only [threadOf]
  by_cases hroom : s.count tid < OVERFLOW_BUF_SIZE
  · simp only [hroom, if_true, Function.update_self]
    refine Prod.ext rfl ?_
    funext p
    cases p <;> rfl
  · simp only [hroom, if_false, Function.update_self]
    refine Prod.ext rfl ?_
    funext p
    cases p with
    | directory i => rfl
    | overflow t b offset =>
      simp only [allocate, State.load, Function.update_apply]
      rcases eq_or_ne t tid with rfl | hne
      · simp only [true_and, if_true]
        rcases lt_trichotomy b (s.buffer t + 1) with hlt | rfl | hgt
        · have h1 : b ≤ s.buffer t := Nat.lt_succ_iff.mp hlt
          simp [h1, hlt.ne, hlt.le]
        · simp [hraw t _ offset (Nat.lt_succ_self _)]
        · have h1 : ¬ b ≤ s.buffer t := by omega
          simp [h1, hgt.ne', not_le.mpr hgt]
      · simp [hne]

theorem getNewBucket_fields (OVERFLOW_BUF_SIZE : ℕ) (s : State α BUCKET_SIZE T m) (tid : Fin T) :
    (∃ offset, (s.getNewBucket OVERFLOW_BUF_SIZE tid).1
      = .overflow tid ((s.getNewBucket OVERFLOW_BUF_SIZE tid).2.buffer tid) offset) ∧
    (s.getNewBucket OVERFLOW_BUF_SIZE tid).2.memory = s.memory ∧
    (s.getNewBucket OVERFLOW_BUF_SIZE tid).2.pos = s.pos ∧
    (∀ t, s.buffer t ≤ (s.getNewBucket OVERFLOW_BUF_SIZE tid).2.buffer t) ∧
    ∀ t ≠ tid, (s.getNewBucket OVERFLOW_BUF_SIZE tid).2.buffer t = s.buffer t ∧
      (s.getNewBucket OVERFLOW_BUF_SIZE tid).2.count t = s.count t := by
  rw [State.getNewBucket]
  split_ifs
  · exact ⟨⟨_, rfl⟩, rfl, rfl, fun t => le_rfl, fun t ht => ⟨rfl, by simp [ht]⟩⟩
  · refine ⟨⟨0, by simp⟩, rfl, rfl, fun t => ?_, fun t ht => ⟨by simp [ht], by simp [ht]⟩⟩
    simp only [Function.update_apply]
    split_ifs with ht
    · rw [ht]
      exact Nat.le_succ _
    · exact le_rfl

/-- What a section of thread `tid` leaves as it is. -/
structure Keeps (malloc : Ptr T m → Bucket α BUCKET_SIZE T m) (tid : Fin T)
    (s s' : State α BUCKET_SIZE T m) : Prop where
  pos : s'.pos = s.pos
  raw : Raw malloc s'
  others : ∀ t ≠ tid, s'.buffer t = s.buffer t ∧ s'.count t = s.count t

/-- A store to a bucket that is there. -/
theorem Raw.store {s : State α BUCKET_SIZE T m} (hraw : Raw malloc s) {p : Ptr T m}
    (hp : ∀ tid buffer offset, p = .overflow tid buffer offset → buffer ≤ s.buffer tid)
    (b : Bucket α BUCKET_SIZE T m) : Raw malloc (s.store p b) := by
  intro tid buffer offset hlt
  have hne : Ptr.overflow tid buffer offset ≠ p := by
    rintro rfl
    exact absurd (hp tid buffer offset rfl) (not_le.mpr hlt)
  exact (Function.update_of_ne hne _ _).trans (hraw tid buffer offset hlt)

section Insert
variable [NeZero BUCKET_SIZE] {index : α → Fin m} {slices : Fin T → List α}
  {s s' : State α BUCKET_SIZE T m} {tid : Fin T} {tuple : α}

/-- A section from where it takes a new bucket. -/
theorem ends_of_splice (hraw : Raw malloc s) (htuple : (slices tid)[s.pos tid]? = some tuple)
    {head : Bucket α BUCKET_SIZE T m} (hhead : s.memory (.directory (index tuple)) = head)
    (hret : s.splice OVERFLOW_BUF_SIZE tid (.directory (index tuple)) head tuple = .returned s') :
    Ends (program OVERFLOW_BUF_SIZE index slices malloc) tid
      ({ threadOf s tid with pc := .newBucket head.next }, s.load OVERFLOW_BUF_SIZE)
      ({ threadOf s' tid with pc := .unlock }, s'.load OVERFLOW_BUF_SIZE) ∧
      Keeps malloc tid s s' := by
  obtain ⟨⟨offset, hq⟩, hmem, hpos, hbuffer, hothers⟩ := getNewBucket_fields OVERFLOW_BUF_SIZE s tid
  have hnew : getNewBucket OVERFLOW_BUF_SIZE malloc tid head.next
      { threadOf s tid with pc := .newBucket head.next } (s.load OVERFLOW_BUF_SIZE) = _ :=
    getNewBucket_eq hraw tid head.next (.newBucket head.next)
  rw [State.splice] at hret
  rcases hget : s.getNewBucket OVERFLOW_BUF_SIZE tid with ⟨q, s₁⟩
  rw [hget] at hret hnew hq hmem hpos hbuffer hothers
  simp only at hret hq hmem hpos hbuffer hothers
  have hne : q ≠ .directory (index tuple) := by
    rw [hq]
    simp
  have hraw₁ : Raw malloc s₁ := by
    intro t buffer o hlt
    rw [hmem]
    exact hraw t buffer o ((hbuffer t).trans_lt hlt)
  cases hfresh : s₁.load OVERFLOW_BUF_SIZE q with
  | none =>
    rw [hfresh] at hret
    cases hret
  | some fresh =>
    rw [hfresh] at hret
    obtain rfl := Outcome.returned.inj hret
    have hdir : s₁.load OVERFLOW_BUF_SIZE (.directory (index tuple)) = some head := by
      rw [State.load, hmem, hhead]
    have hqload : ((s₁.store (.directory (index tuple)) { head with next := some q }).load
        OVERFLOW_BUF_SIZE q).isSome := by
      rw [load_store' (Option.isSome_of_eq_some hdir), Function.update_of_ne hne, hfresh]
      rfl
    refine ⟨ends_statement htuple (by simp) ?_, hpos, ?_, hothers⟩
    · rw [statement]
      simp only
      rw [hnew, load_store' hqload, load_store' (Option.isSome_of_eq_some hdir)]
      refine ends_splice (r := threadOf s₁ tid) ?_ head.next hdir hfresh hne
      rw [threadOf, hpos]
      exact htuple
    · refine (hraw₁.store (fun _ _ _ hp => by cases hp) _).store ?_ _
      rintro t buffer o rfl
      obtain ⟨rfl, rfl, -⟩ := Ptr.overflow.inj hq
      exact le_rfl

omit [NeZero BUCKET_SIZE] in
/-- A section from where it writes into the bucket at `p`. -/
theorem ends_of_put (hraw : Raw malloc s) (htuple : (slices tid)[s.pos tid]? = some tuple)
    {p : Ptr T m} {b : Bucket α BUCKET_SIZE T m} (hload : s.load OVERFLOW_BUF_SIZE p = some b)
    (hret : s.put p b tuple = .returned s') :
    Ends (program OVERFLOW_BUF_SIZE index slices malloc) tid
      ({ threadOf s tid with pc := .dest p }, s.load OVERFLOW_BUF_SIZE)
      ({ threadOf s' tid with pc := .unlock }, s'.load OVERFLOW_BUF_SIZE) ∧
      Keeps malloc tid s s' := by
  rw [State.put] at hret
  by_cases hroom : b.count < BUCKET_SIZE
  · rw [dif_pos hroom] at hret
    obtain rfl := Outcome.returned.inj hret
    refine ⟨?_, rfl, hraw.store ?_ _, fun _ _ => ⟨rfl, rfl⟩⟩
    · rw [load_store' (Option.isSome_of_eq_some hload)]
      exact ends_put (r := threadOf s tid) htuple hload hroom
    · rintro t buffer offset rfl
      rw [State.load] at hload
      split_ifs at hload with hvalid
      exact hvalid.1
  · rw [dif_neg hroom] at hret
    cases hret

/-- A section does what `insert` does. -/
theorem ends_of_insert (hraw : Raw malloc s) (htuple : (slices tid)[s.pos tid]? = some tuple)
    (hret : s.insert OVERFLOW_BUF_SIZE tid (index tuple) tuple = .returned s') :
    Ends (program OVERFLOW_BUF_SIZE index slices malloc) tid
      (threadOf s tid, s.load OVERFLOW_BUF_SIZE)
      ({ threadOf s' tid with pc := .unlock }, s'.load OVERFLOW_BUF_SIZE) ∧
      Keeps malloc tid s s' := by
  obtain ⟨head, hhead⟩ : ∃ head, s.memory (.directory (index tuple)) = head := ⟨_, rfl⟩
  have hdir : s.load OVERFLOW_BUF_SIZE (.directory (index tuple)) = some head := by
    rw [State.load, hhead]
  rw [State.insert, hhead] at hret
  -- the first statements read the directory bucket
  suffices hrest : Ends (program OVERFLOW_BUF_SIZE index slices malloc) tid
      ({ threadOf s tid with pc := .readCount head.next }, s.load OVERFLOW_BUF_SIZE)
      ({ threadOf s' tid with pc := .unlock }, s'.load OVERFLOW_BUF_SIZE) ∧
      Keeps malloc tid s s' from
    ⟨ends_read (r := threadOf s tid) htuple rfl hdir rfl hrest.1, hrest.2⟩
  by_cases hfull : head.count = BUCKET_SIZE
  · rw [if_pos hfull] at hret
    cases hnext : head.next with
    | none =>
      rw [hnext] at hret
      obtain ⟨hends, hrest⟩ := ends_of_splice hraw htuple hhead hret
      refine ⟨ends_read (r := threadOf s tid) htuple rfl hdir rfl ?_, hrest⟩
      simp only [hfull, if_true]
      rw [hnext] at hends
      exact hends
    | some nxt =>
      rw [hnext] at hret
      simp only at hret
      cases hload : s.load OVERFLOW_BUF_SIZE nxt with
      | none =>
        rw [hload] at hret
        cases hret
      | some b =>
        rw [hload] at hret
        simp only at hret
        by_cases hfull' : b.count = BUCKET_SIZE
        · rw [if_pos hfull'] at hret
          obtain ⟨hends, hrest⟩ := ends_of_splice hraw htuple hhead hret
          refine ⟨ends_read (r := threadOf s tid) htuple rfl hdir rfl ?_, hrest⟩
          simp only [hfull, if_true]
          refine ends_read (r := threadOf s tid) htuple rfl hload rfl ?_
          simp only [hfull', if_true]
          rw [hnext] at hends
          exact hends
        · rw [if_neg hfull'] at hret
          obtain ⟨hends, hrest⟩ := ends_of_put hraw htuple hload hret
          refine ⟨ends_read (r := threadOf s tid) htuple rfl hdir rfl ?_, hrest⟩
          simp only [hfull, if_true]
          refine ends_read (r := threadOf s tid) htuple rfl hload rfl ?_
          simp only [hfull', if_false]
          exact hends
  · rw [if_neg hfull] at hret
    obtain ⟨hends, hrest⟩ := ends_of_put hraw htuple hdir hret
    refine ⟨ends_read (r := threadOf s tid) htuple rfl hdir rfl ?_, hrest⟩
    simp only [hfull, if_false]
    exact hends

end Insert
end Latch
end Npj
end HashingBenchmark
