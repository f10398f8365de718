import HashingBenchmark.Npj.LatchSection

/-! The build with latches refines the build with atomic critical sections.

    Between sections the memory is that of an atomic state whose chains hold the tuples so far
    (`Between`). By the invariant of the chains, sections under different latches work on different
    buckets, which makes them atomic (`atomic_program`): so any interleaving of the threads' accesses
    gives the result of some order of whole sections, and no thread is kept waiting forever. -/

namespace HashingBenchmark
namespace Npj
namespace Latch
open SpinLock

variable {α : Type} {BUCKET_SIZE T m : ℕ} [NeZero BUCKET_SIZE] {OVERFLOW_BUF_SIZE : ℕ}
  {index : α → Fin m} {slices : Fin T → List α} {zero : α}
  {malloc : Ptr T m → Bucket α BUCKET_SIZE T m}

/-- The memory and the threads after the sections `done`. -/
def Between (OVERFLOW_BUF_SIZE : ℕ) (index : α → Fin m) (slices : Fin T → List α) (zero : α)
    (malloc : Ptr T m → Bucket α BUCKET_SIZE T m) (done : List (Fin T))
    (memory : Memory α BUCKET_SIZE T m) (threads : Fin T → Thread T m) : Prop :=
  ∃ s chain,
    State.build OVERFLOW_BUF_SIZE index slices done (State.init zero malloc) = .returned s ∧
    State.Holds OVERFLOW_BUF_SIZE zero index chain (Interleaving.merge slices done fun _ => 0) s ∧
    (∀ tid, s.pos tid = done.count tid) ∧ (∀ tid, done.count tid ≤ (slices tid).length) ∧
    Raw malloc s ∧ memory = s.load OVERFLOW_BUF_SIZE ∧ threads = threadOf s

omit [NeZero BUCKET_SIZE] in
theorem statement_pos (tid : Fin T) (curr : Ptr T m) (tuple : α) (r : Thread T m)
    (memory : Memory α BUCKET_SIZE T m) :
    (statement OVERFLOW_BUF_SIZE malloc tid curr tuple r memory).1.pos = r.pos := by
  rcases statement_cases OVERFLOW_BUF_SIZE malloc tid curr tuple r with
    ⟨nxt, -, hnew⟩ | ⟨-, hnone⟩ | ⟨p, f, -, hstep⟩
  · rw [hnew, getNewBucket]
    split_ifs <;> rfl
  · rw [hnone]
  · rcases hstep memory with ⟨-, heq⟩ | ⟨b, -, heq⟩ <;> rw [heq]

omit [NeZero BUCKET_SIZE] in
theorem body_pos (tid : Fin T) (r : Thread T m) (memory : Memory α BUCKET_SIZE T m) :
    ((program OVERFLOW_BUF_SIZE index slices malloc).body tid r memory).1.pos = r.pos := by
  simp only [program]
  split
  · rfl
  · exact statement_pos ..

omit [NeZero BUCKET_SIZE] in
theorem body_eq {tid : Fin T} {r : Thread T m} {tuple : α}
    (htuple : (slices tid)[r.pos]? = some tuple) (memory : Memory α BUCKET_SIZE T m) :
    (program OVERFLOW_BUF_SIZE index slices malloc).body tid r memory
      = statement OVERFLOW_BUF_SIZE malloc tid (.directory (index tuple)) tuple r memory := by
  simp only [program, htuple]

/-- One more section. -/
theorem Between.ends (hsize : 0 < OVERFLOW_BUF_SIZE) {done : List (Fin T)}
    {memory : Memory α BUCKET_SIZE T m} {threads : Fin T → Thread T m}
    (h : Between OVERFLOW_BUF_SIZE index slices zero malloc done memory threads) {tid : Fin T}
    (hlock : ((program OVERFLOW_BUF_SIZE index slices malloc).lockOf tid (threads tid)).isSome) :
    ∃ y, Ends (program OVERFLOW_BUF_SIZE index slices malloc) tid (threads tid, memory) y ∧
      Between OVERFLOW_BUF_SIZE index slices zero malloc (done ++ [tid]) y.2
        (Function.update threads tid
          ((program OVERFLOW_BUF_SIZE index slices malloc).leave y.1)) := by
  obtain ⟨s, chain, hbuild, hholds, hpos, hcount, hraw, rfl, rfl⟩ := h
  have hlt : s.pos tid < (slices tid).length := by
    by_contra hge
    simp [program, threadOf, List.getElem?_eq_none (not_lt.mp hge)] at hlock
  have htuple : (slices tid)[s.pos tid]? = some (slices tid)[s.pos tid] :=
    List.getElem?_eq_getElem hlt
  obtain ⟨s', hstep, hpos', chain', hholds'⟩ := State.step_spec hsize hholds hlt
  have hstep' := hstep
  rw [State.step, htuple] at hstep'
  obtain ⟨u, hinsert, hu⟩ := Outcome.andThen_eq_returned.mp hstep'
  obtain ⟨hends, hkeeps⟩ := ends_of_insert hraw htuple hinsert
  obtain rfl := Outcome.returned.inj hu
  have hposu := hkeeps.pos
  refine ⟨_, hends, { u with pos := Function.update u.pos tid (u.pos tid + 1) }, chain',
    Outcome.runAll_snoc_eq_returned.mpr ⟨s, hbuild, hstep⟩, ?_, fun t => ?_, fun t => ?_,
    hkeeps.raw, ?_, ?_⟩
  · rw [Interleaving.merge_snoc, Nat.zero_add, ← hpos tid]
    exact hholds'
  · rw [List.count_append, List.count_singleton, hposu, ← hpos]
    rcases eq_or_ne t tid with rfl | hne
    · simp
    · simp [hne, hne.symm]
  · rw [List.count_append, List.count_singleton]
    rcases eq_or_ne t tid with rfl | hne
    · rw [← hpos]
      simpa using Nat.succ_le_of_lt hlt
    · simpa [hne.symm] using hcount t
  · funext p
    cases p <;> rfl
  · funext t
    rcases eq_or_ne t tid with rfl | hne
    · simp [program, threadOf]
    · obtain ⟨hbuffer, hcount'⟩ := hkeeps.others t hne
      simp [threadOf, hne, hposu, hbuffer, hcount']

omit [NeZero BUCKET_SIZE] in
/-- A bucket of a section: it is in the chain of its tuple, or not handed out by its thread. -/
theorem mem_foot {s : State α BUCKET_SIZE T m}
    {chain : Fin m → List (Ptr T m × Bucket α BUCKET_SIZE T m)} {log : List α}
    (hholds : State.Holds OVERFLOW_BUF_SIZE zero index chain log s) {tid : Fin T} {i : Fin m}
    (hlock : (program OVERFLOW_BUF_SIZE index slices malloc).lockOf tid (threadOf s tid) = some i)
    {p : Ptr T m}
    (hp : p ∈ foot index slices tid (threadOf s tid) (s.load OVERFLOW_BUF_SIZE)) :
    p ∈ Linked.addresses (chain i) ∨ Fresh tid (threadOf s tid) p := by
  simp only [program] at hlock
  obtain ⟨tuple, htuple, rfl⟩ := Option.map_eq_some_iff.mp hlock
  simp only [foot, htuple] at hp
  have hlinked := hholds.linked (index tuple)
  rcases hp with rfl | ⟨head, hhead, hnext⟩ | hfresh
  · -- the chain starts at the directory bucket
    cases hchain : chain (index tuple) with
    | nil => rw [hchain] at hlinked; cases hlinked
    | cons x l =>
      rw [hchain] at hlinked
      exact .inl (by rw [Option.some.inj hlinked.1]; exact List.mem_cons_self)
  · cases hchain : chain (index tuple) with
    | nil => rw [hchain] at hlinked; cases hlinked
    | cons x l =>
      rw [hchain] at hlinked
      obtain ⟨hx, hload, hrest⟩ := hlinked
      rw [Option.some.inj hx, hload, Option.some.injEq] at hhead
      rw [hhead, hnext] at hrest
      cases l with
      | nil => cases hrest
      | cons y l =>
        exact .inl (by rw [Option.some.inj hrest.1]; exact List.mem_cons_of_mem _ List.mem_cons_self)
  · exact .inr hfresh

omit [NeZero BUCKET_SIZE] in
theorem Fresh.not_handed {s : State α BUCKET_SIZE T m} {tid : Fin T} {p : Ptr T m}
    (h : Fresh tid (threadOf s tid) p) : ¬ s.Handed p := by
  cases p with
  | directory i => exact h.elim
  | overflow t buffer offset =>
    obtain ⟨rfl, hfresh⟩ := h
    simp only [State.Handed, threadOf] at hfresh ⊢
    omega

omit [NeZero BUCKET_SIZE] in
theorem Fresh.tid_eq {r r' : Thread T m} {tid tid' : Fin T} {p : Ptr T m} (h : Fresh tid r p)
    (h' : Fresh tid' r' p) : tid = tid' := by
  cases p with
  | directory i => exact h.elim
  | overflow t buffer offset => exact h.1.symm.trans h'.1

/-- Sections under different latches have no bucket in common. -/
theorem Between.disjoint {done : List (Fin T)} {memory : Memory α BUCKET_SIZE T m}
    {threads : Fin T → Thread T m}
    (h : Between OVERFLOW_BUF_SIZE index slices zero malloc done memory threads) {t u : Fin T}
    {i j : Fin m}
    (hi : (program OVERFLOW_BUF_SIZE index slices malloc).lockOf t (threads t) = some i)
    (hj : (program OVERFLOW_BUF_SIZE index slices malloc).lockOf u (threads u) = some j)
    (htu : t ≠ u) (hij : i ≠ j) :
    Disjoint (foot index slices t (threads t) memory) (foot index slices u (threads u) memory) := by
  obtain ⟨s, chain, -, hholds, -, -, -, rfl, rfl⟩ := h
  refine Set.disjoint_left.mpr fun p hp hp' => ?_
  rcases mem_foot hholds hi hp with hchain | hfresh <;>
    rcases mem_foot hholds hj hp' with hchain' | hfresh'
  · exact hij (hholds.disjoint i j p hchain hchain')
  · exact hfresh'.not_handed (hholds.handed i p hchain)
  · exact hfresh.not_handed (hholds.handed j p hchain')
  · exact htu (hfresh.tid_eq hfresh')

omit [NeZero BUCKET_SIZE] in
/-- All statements of a section are owned. -/
theorem owned_steps {tid : Fin T} {r : Thread T m} {memory : Memory α BUCKET_SIZE T m} {tuple : α}
    (htuple : (slices tid)[r.pos]? = some tuple) (hpc : r.pc = .readNext) (k : ℕ) :
    Owned (cells tid (.directory (index tuple)) r memory) (.directory (index tuple)) r memory
      (steps (program OVERFLOW_BUF_SIZE index slices malloc) tid k (r, memory)) := by
  induction k with
  | zero => exact ⟨rfl, fun _ => rfl, by simp [OwnedPc, hpc]⟩
  | succ k ih =>
    have htuple' : (slices tid)[(steps (program OVERFLOW_BUF_SIZE index slices malloc) tid k
        (r, memory)).1.pos]? = some tuple := by rw [ih.pos, htuple]
    rw [steps_succ, body_eq htuple']
    exact ih.statement

/-- The sections of the build are atomic. -/
theorem atomic_program (hsize : 0 < OVERFLOW_BUF_SIZE) (index : α → Fin m)
    (slices : Fin T → List α) (zero : α) (malloc : Ptr T m → Bucket α BUCKET_SIZE T m) :
    Atomic (program OVERFLOW_BUF_SIZE index slices malloc)
      (Between OVERFLOW_BUF_SIZE index slices zero malloc) (foot index slices) where
  lockOf_body t r memory := by
    have hpos : ((program OVERFLOW_BUF_SIZE index slices malloc).body t r memory).1.pos = r.pos :=
      body_pos ..
    change ((slices t)[((program OVERFLOW_BUF_SIZE index slices malloc).body t r memory).1.pos]?).map
      index = _
    rw [hpos]
    rfl
  foot_congr {t r memory memory'} hsame := by
    simp only [foot] at hsame ⊢
    cases htuple : (slices t)[r.pos]? with
    | none => rfl
    | some tuple =>
      simp only [htuple] at hsame ⊢
      exact cells_congr hsame
  disjoint h := h.disjoint
  ends h := h.ends hsize
  stays {done memory threads t k} h hlock hk memory₁ hsame := by
    obtain ⟨i, hi⟩ := Option.isSome_iff_exists.mp hlock
    obtain ⟨tuple, htuple, -⟩ := Option.map_eq_some_iff.mp hi
    have hpc : (threads t).pc = .readNext := by
      obtain ⟨s, chain, -, -, -, -, -, -, rfl⟩ := h
      rfl
    have howned : Owned (cells t (.directory (index tuple)) (threads t) memory)
        (.directory (index tuple)) (threads t) memory
        (steps (program OVERFLOW_BUF_SIZE index slices malloc) t k (threads t, memory)) :=
      owned_steps htuple hpc k
    simp only [foot, htuple] at hsame ⊢
    have htuple' : (slices t)[(steps (program OVERFLOW_BUF_SIZE index slices malloc) t k
        (threads t, memory)).1.pos]? = some tuple := by rw [howned.pos, htuple]
    rw [steps_succ, body_eq htuple', body_eq htuple']
    exact howned.statement_congr hsame

/-! ### Runs of the build -/

theorem between_start (index : α → Fin m) (slices : Fin T → List α) (zero : α)
    (malloc : Ptr T m → Bucket α BUCKET_SIZE T m) :
    Between OVERFLOW_BUF_SIZE index slices zero malloc []
      (start OVERFLOW_BUF_SIZE zero malloc).memory (start OVERFLOW_BUF_SIZE zero malloc).regs :=
  ⟨State.init zero malloc, _, rfl, State.holds_init index zero malloc, fun _ => rfl,
    fun _ => Nat.zero_le _, fun _ _ _ _ => rfl, rfl, rfl⟩

section Done
variable {done : List (Fin T)} {memory : Memory α BUCKET_SIZE T m} {threads : Fin T → Thread T m}
  {s : Machine (Fin T) (Fin m) (Ptr T m) (Option (Bucket α BUCKET_SIZE T m)) (Thread T m)}
  (hatomic : Atomic (program OVERFLOW_BUF_SIZE index slices malloc)
    (Between OVERFLOW_BUF_SIZE index slices zero malloc) (foot index slices))
  (h : Between OVERFLOW_BUF_SIZE index slices zero malloc done memory threads)
  (hs : Simulates (program OVERFLOW_BUF_SIZE index slices malloc) (foot index slices) memory
    threads s)
include hatomic hs

/-- A thread that has inserted all its tuples is outside of its sections. -/
theorem outside_of_none {t : Fin T}
    (ht : (program OVERFLOW_BUF_SIZE index slices malloc).lockOf t (s.regs t) = none) :
    s.inside t = false := by
  by_contra hin
  rw [Bool.not_eq_false] at hin
  obtain ⟨k, -, hregs, -⟩ := hs.inside t hin
  have hlock := hs.locked t hin
  rw [← hatomic.lockOf_steps t k (threads t, memory), ← hregs, ht] at hlock
  cases hlock

include h in
theorem pos_eq_of_none {t : Fin T}
    (ht : (program OVERFLOW_BUF_SIZE index slices malloc).lockOf t (s.regs t) = none) :
    (s.regs t).pos = (slices t).length := by
  obtain ⟨s', chain, -, -, hpos, hcount, -, rfl, rfl⟩ := h
  have hle : (slices t).length ≤ (s.regs t).pos := by
    simpa [program] using ht
  have hregs := hs.outside t (outside_of_none hatomic hs ht)
  rw [hregs] at hle ⊢
  refine Nat.le_antisymm ?_ hle
  exact (hpos t).le.trans (hcount t)

include h in
/-- No pointer is followed that leads nowhere. -/
theorem not_fault (t : Fin T) (f : Fault) : (s.regs t).pc ≠ .fault f := by
  refine hatomic.not_stuck h hs (fun r => r.pc = .fault f) (fun t => ?_) (fun r hr => ?_)
    (fun t r memory hr => ?_) t
  · obtain ⟨s', chain, -, -, -, -, -, -, rfl⟩ := h
    exact nofun
  · simp [program, hr]
  · simp only [program]
    split
    · exact hr
    · rw [statement, hr]
      exact hr

include h in
/-- When all threads are done the memory is the one of an atomic build. -/
theorem build_of_done (hdone : ∀ t, (s.regs t).pos = (slices t).length) :
    (∀ t, done.count t = (slices t).length) ∧ ∃ s', State.build OVERFLOW_BUF_SIZE index slices done
      (State.init zero malloc) = .returned s' ∧ s.memory = s'.load OVERFLOW_BUF_SIZE := by
  have hout : ∀ t, s.inside t = false := fun t =>
    outside_of_none hatomic hs (by simp [program, hdone t])
  have hmem : s.memory = memory := by
    funext p
    refine hs.rest p fun t ht => ?_
    rw [hout t] at ht
    cases ht
  obtain ⟨s', chain, hbuild, -, hpos, -, -, rfl, rfl⟩ := h
  refine ⟨fun t => ?_, s', hbuild, hmem⟩
  rw [← hpos t, ← hdone t, hs.outside t (hout t)]
  rfl

end Done

/-- CORRECT: in every interleaving of the threads' accesses to memory no two threads are inside of
    critical sections of the same bucket and no pointer is followed that leads nowhere; when all
    tuples are inserted, the table is the one of the build with whole critical sections, in some
    order. -/
theorem latched_build_is_atomic (OVERFLOW_BUF_SIZE : ℕ) [NeZero OVERFLOW_BUF_SIZE] (index : α → Fin m)
    (slices : Fin T → List α) (zero : α) (malloc : Ptr T m → Bucket α BUCKET_SIZE T m)
    (schedule : List (Fin T)) :
    let P := program OVERFLOW_BUF_SIZE index slices malloc
    let s := turns P schedule (start OVERFLOW_BUF_SIZE zero malloc)
    (∀ t u, s.inside t = true → s.inside u = true →
      P.lockOf t (s.regs t) = P.lockOf u (s.regs u) → t = u) ∧
    (∀ t f, (s.regs t).pc ≠ .fault f) ∧
    ((∀ t, (s.regs t).pos = (slices t).length) →
      ∃ order, (∀ t, order.count t = (slices t).length) ∧
        ∃ s', State.build OVERFLOW_BUF_SIZE index slices order (State.init zero malloc)
          = .returned s' ∧ s.memory = s'.load OVERFLOW_BUF_SIZE) := by
  intro P s
  have hatomic := atomic_program (NeZero.pos OVERFLOW_BUF_SIZE) index slices zero malloc
  obtain ⟨done, memory, threads, hbetween, hs⟩ := hatomic.simulates_turns
    (between_start index slices zero malloc) (simulates_outside P (foot index slices) _ _) schedule
  exact ⟨fun t u ht hu => hatomic.exclusive hs ht hu, not_fault hatomic hbetween hs,
    fun hdone => ⟨done, build_of_done hatomic hbetween hs hdone⟩⟩

/-- Two threads take turns on one bucket until all three tuples are inserted; the second one waits for
    the latch of the first. -/
theorem latched_build_is_atomic_two_threads :
    let slices : Fin 2 → List ℕ := ![[7, 8], [5]]
    let malloc : Ptr 2 1 → Bucket ℕ 1 2 1 := fun _ => ⟨9, none, fun _ => 3⟩
    let P := program 1 (fun _ : ℕ => (0 : Fin 1)) slices malloc
    let s := turns P (List.replicate 30 [0, 1]).flatten (start 1 0 malloc)
    (∀ t u, s.inside t = true → s.inside u = true →
      P.lockOf t (s.regs t) = P.lockOf u (s.regs u) → t = u) ∧
    (∀ t f, (s.regs t).pc ≠ .fault f) ∧
    ∃ order, (∀ t, order.count t = (slices t).length) ∧
      ∃ s', State.build 1 (fun _ : ℕ => (0 : Fin 1)) slices order (State.init 0 malloc)
        = .returned s' ∧ s.memory = s'.load 1 := by
  intro slices malloc
  exact And.imp_right (And.imp_right fun hdone => hdone (by decide +kernel))
    (latched_build_is_atomic 1 (fun _ => 0) slices 0 malloc (List.replicate 30 [0, 1]).flatten)

/-- The number of tuples that the threads have not inserted yet. -/
def left (slices : Fin T → List α) (done : List (Fin T)) : ℕ :=
  ∑ t, ((slices t).length - done.count t)

/-- From every state the threads can insert what is left, by induction on its number. -/
theorem exists_done [NeZero OVERFLOW_BUF_SIZE] {done : List (Fin T)}
    {memory : Memory α BUCKET_SIZE T m} {threads : Fin T → Thread T m}
    {s : Machine (Fin T) (Fin m) (Ptr T m) (Option (Bucket α BUCKET_SIZE T m)) (Thread T m)}
    (h : Between OVERFLOW_BUF_SIZE index slices zero malloc done memory threads)
    (hs : Simulates (program OVERFLOW_BUF_SIZE index slices malloc) (foot index slices) memory
      threads s) :
    ∃ rest, ∀ t, (program OVERFLOW_BUF_SIZE index slices malloc).lockOf t
      ((turns (program OVERFLOW_BUF_SIZE index slices malloc) rest s).regs t) = none := by
  have hatomic := atomic_program (NeZero.pos OVERFLOW_BUF_SIZE) index slices zero malloc
  obtain ⟨n, hn⟩ : ∃ n, left slices done = n := ⟨_, rfl⟩
  induction n using Nat.strongRecOn generalizing done memory threads s with
  | ind n ih =>
    by_cases hnone : ∀ t, (program OVERFLOW_BUF_SIZE index slices malloc).lockOf t (s.regs t) = none
    · exact ⟨[], hnone⟩
    · push Not at hnone
      obtain ⟨t, ht⟩ := hnone
      obtain ⟨schedule, u, memory', threads', h', hs'⟩ :=
        hatomic.exists_section h hs (Option.isSome_iff_ne_none.mpr ht)
      have hcount : ∀ v, (done ++ [u]).count v ≤ (slices v).length := by
        obtain ⟨s', chain, -, -, -, hcount, -⟩ := h'
        exact hcount
      have hless : left slices (done ++ [u]) < n := by
        rw [← hn]
        refine Finset.sum_lt_sum (fun v _ => ?_) ⟨u, Finset.mem_univ u, ?_⟩
        · rw [List.count_append]
          omega
        · have hu := hcount u
          rw [List.count_append, List.count_singleton_self] at hu ⊢
          omega
      obtain ⟨rest, hrest⟩ := ih _ hless h' hs' rfl
      exact ⟨schedule ++ rest, by rwa [turns_append]⟩

omit [NeZero BUCKET_SIZE] in
/-- Chain `i` of a complete build stores the tuples with index `i`. -/
theorem stored_perm {chain : Fin m → List (Ptr T m × Bucket α BUCKET_SIZE T m)}
    {order : List (Fin T)} {s : State α BUCKET_SIZE T m}
    (hholds : State.Holds OVERFLOW_BUF_SIZE zero index chain
      (Interleaving.merge slices order fun _ => 0) s)
    (hall : ∀ t, order.count t = (slices t).length) (i : Fin m) :
    ((chain i).flatMap fun x => x.2.stored).Perm
      (((List.finRange T).flatMap slices).filter fun a => index a = i) := by
  have hlayout := ChunkList.layout_perm BUCKET_SIZE
    ((Interleaving.merge slices order fun _ => 0).filter fun a => index a = i)
  rw [← hholds.holds i, ← List.flatMap_def] at hlayout
  exact hlayout.trans ((Interleaving.merge_perm slices hall).filter _)

/-- CORRECT: no interleaving leads into a deadlock or a livelock that cannot be left: from every state
    the threads can finish, and then chain `i` stores the tuples with index `i`, each as often as it
    occurs in the relation. -/
theorem latched_build_can_finish (OVERFLOW_BUF_SIZE : ℕ) [NeZero OVERFLOW_BUF_SIZE] (index : α → Fin m)
    (slices : Fin T → List α) (zero : α) (malloc : Ptr T m → Bucket α BUCKET_SIZE T m)
    (schedule : List (Fin T)) :
    ∃ rest,
      let s := turns (program OVERFLOW_BUF_SIZE index slices malloc) (schedule ++ rest)
        (start OVERFLOW_BUF_SIZE zero malloc);
      (∀ t, (s.regs t).pos = (slices t).length ∧ s.inside t = false) ∧
      ∃ chain : Fin m → List (Ptr T m × Bucket α BUCKET_SIZE T m),
        (∀ i, Linked s.memory Bucket.next (some (.directory i)) (chain i)) ∧
        ∀ i, ((chain i).flatMap fun x => x.2.stored).Perm
          (((List.finRange T).flatMap slices).filter fun a => index a = i) := by
  have hatomic := atomic_program (NeZero.pos OVERFLOW_BUF_SIZE) index slices zero malloc
  obtain ⟨done, memory, threads, hbetween, hs⟩ := hatomic.simulates_turns
    (between_start index slices zero malloc)
    (simulates_outside (program OVERFLOW_BUF_SIZE index slices malloc) (foot index slices) _ _)
    schedule
  obtain ⟨rest, hnone⟩ := exists_done hbetween hs
  rw [← turns_append] at hnone
  obtain ⟨done', memory', threads', hbetween', hs'⟩ := hatomic.simulates_turns
    (between_start index slices zero malloc)
    (simulates_outside (program OVERFLOW_BUF_SIZE index slices malloc) (foot index slices) _ _)
    (schedule ++ rest)
  have hpos := fun t => pos_eq_of_none hatomic hbetween' hs' (hnone t)
  obtain ⟨hall, s', hbuild, hmem⟩ := build_of_done hatomic hbetween' hs' hpos
  refine ⟨rest, fun t => ⟨hpos t, outside_of_none hatomic hs' (hnone t)⟩, ?_⟩
  obtain ⟨s'', hbuild', chain, hholds⟩ := State.holds_of_build (NeZero.pos OVERFLOW_BUF_SIZE) zero
    malloc index fun tid => (hall tid).le
  obtain rfl := Outcome.returned.inj (hbuild.symm.trans hbuild')
  exact ⟨chain, fun i => hmem ▸ hholds.linked i, fun i => stored_perm hholds hall i⟩

/-- From the middle of the first section of one of two threads. -/
theorem latched_build_can_finish_two_threads :
    let slices : Fin 2 → List ℕ := ![[7, 8], [5]]
    let P := program 1 (fun _ : ℕ => (0 : Fin 1)) slices
      (fun _ => (⟨9, none, fun _ => 3⟩ : Bucket ℕ 1 2 1))
    ∃ rest, ∀ t, ((turns P ([0, 1, 0, 1] ++ rest) (start 1 0 fun _ => ⟨9, none, fun _ => 3⟩)).regs
      t).pos = (slices t).length := by
  intro slices P
  obtain ⟨rest, hdone, -⟩ := latched_build_can_finish 1 (fun _ : ℕ => (0 : Fin 1)) slices 0
    (fun _ => (⟨9, none, fun _ => 3⟩ : Bucket ℕ 1 2 1)) [0, 1, 0, 1]
  exact ⟨rest, fun t => (hdone t).1⟩

end Latch
end Npj
end HashingBenchmark
