import HashingBenchmark.Npj.BarrierCorrect
import HashingBenchmark.Npj.JoinThread
import HashingBenchmark.Npj.LatchRefine
import HashingBenchmark.Npj.Probe

/-! The join with bucket chaining in all interleavings of its threads.

    The parts of the threads are phases behind a safe barrier, each with its own invariant: while the
    tables are allocated (`Allocating`), in the build, which refines the atomic one (`Building`), and
    in the probes, where the memory stays that of a complete build and every thread has the count of
    the buckets it has seen (`Probing`). -/

namespace HashingBenchmark
namespace Npj
namespace JoinThread
open Join SpinLock

variable {BUCKET_SIZE T m : ℕ} [NeZero BUCKET_SIZE] {OVERFLOW_BUF_SIZE RUN_NUMS k : ℕ}
  {index : UInt32 → Fin m} {rel_r rel_s : Fin T → List Tuple}
  {malloc : Ptr T m → Bucket Tuple BUCKET_SIZE T m} {d : Data BUCKET_SIZE T m}

/-! ### The invariants -/

/-- The buckets of the chain of a key that start with it. -/
def hits (index : UInt32 → Fin m) (chain : Fin m → List (Ptr T m × Bucket Tuple BUCKET_SIZE T m))
    (key : UInt32) : ℕ := (chain (index key)).countP fun x => key = (x.2.tuples 0).key

/-- What the probe finds for the tuples of `S`. -/
def total (index : UInt32 → Fin m) (chain : Fin m → List (Ptr T m × Bucket Tuple BUCKET_SIZE T m))
    (S : List Tuple) : ℕ := (S.map fun t => hits index chain t.key).sum

/-- In phase `k`. -/
structure Common (k : ℕ) (d : Data BUCKET_SIZE T m) : Prop where
  completed : ∀ t, d.completed t = k ∨ d.completed t = k + 1
  fault : ∀ t, d.fault t = none
  args_ht : ∀ t, 3 ≤ d.completed t → d.args_ht t = true

/-- Before the build. -/
structure Allocating (OVERFLOW_BUF_SIZE : ℕ) (malloc : Ptr T m → Bucket Tuple BUCKET_SIZE T m)
    (d : Data BUCKET_SIZE T m) : Prop where
  inside : d.machine.inside = fun _ => false
  regs : d.machine.regs = fun _ => ⟨0, 0, 0, .readNext⟩
  overflow : ∀ t buffer offset, d.machine.memory (.overflow t buffer offset)
    = if 2 ≤ d.completed t ∧ buffer = 0 ∧ offset < OVERFLOW_BUF_SIZE then
        some (malloc (.overflow t buffer offset)) else none
  table : ∀ t, t.val = 0 → 2 ≤ d.completed t → d.ht = true ∧ d.machine.latch = (fun _ => false) ∧
    ∀ i, d.machine.memory (.directory i) = some ⟨0, none, fun _ => ⟨0, 0⟩⟩

/-- In the build. -/
def Building (OVERFLOW_BUF_SIZE : ℕ) (index : UInt32 → Fin m) (rel_r : Fin T → List Tuple)
    (malloc : Ptr T m → Bucket Tuple BUCKET_SIZE T m) (d : Data BUCKET_SIZE T m) : Prop :=
  (∃ done memory threads,
    Latch.Between OVERFLOW_BUF_SIZE (fun r => index r.key) rel_r ⟨0, 0⟩ malloc done memory threads ∧
    Simulates (Latch.program OVERFLOW_BUF_SIZE (fun r => index r.key) rel_r malloc)
      (Latch.foot (fun r => index r.key) rel_r) memory threads d.machine) ∧
  ∀ t, 4 ≤ d.completed t → (d.machine.regs t).pos = (rel_r t).length

/-- Thread `t` has compared the first tuples, and of the chain of the next one the buckets `seen`. -/
def InProbe (index : UInt32 → Fin m) (chain : Fin m → List (Ptr T m × Bucket Tuple BUCKET_SIZE T m))
    (memory : Latch.Memory Tuple BUCKET_SIZE T m) (S : List Tuple) (r : Probe T m) : Prop :=
  match S[r.i]? with
  | none => r.matches' = UInt64.ofNat (total index chain S)
  | some tuple => ∃ seen rest, chain (index tuple.key) = seen ++ rest ∧
    Linked memory Bucket.next (some (r.b.getD (.directory (index tuple.key)))) rest ∧
    r.matches' = UInt64.ofNat (total index chain (S.take r.i)
      + seen.countP fun x => tuple.key = (x.2.tuples 0).key)

/-- After the build `order`. -/
structure Probing (OVERFLOW_BUF_SIZE RUN_NUMS : ℕ) (index : UInt32 → Fin m)
    (rel_r rel_s : Fin T → List Tuple) (malloc : Ptr T m → Bucket Tuple BUCKET_SIZE T m)
    (order : List (Fin T)) (s : State Tuple BUCKET_SIZE T m)
    (chain : Fin m → List (Ptr T m × Bucket Tuple BUCKET_SIZE T m)) (d : Data BUCKET_SIZE T m) :
    Prop where
  count : ∀ t, order.count t = (rel_r t).length
  build : State.build OVERFLOW_BUF_SIZE (fun r => index r.key) rel_r order
    (State.init ⟨0, 0⟩ malloc) = .returned s
  holds : State.Holds OVERFLOW_BUF_SIZE ⟨0, 0⟩ (fun r => index r.key) chain
    (Interleaving.merge rel_r order fun _ => 0) s
  memory : d.machine.memory = s.load OVERFLOW_BUF_SIZE
  pos : ∀ t, (d.machine.regs t).pos = (rel_r t).length
  pc : ∀ t f, (d.machine.regs t).pc ≠ .fault f
  results : ∀ t, 7 ≤ d.completed t →
    d.num_results t = UInt64.ofNat (total index chain (rel_s t))
  probe : ∀ t, part RUN_NUMS (d.completed t) = .probe →
    InProbe index chain d.machine.memory (rel_s t) (d.probe t)

/-- The invariant of phase `k`. -/
structure Phase (OVERFLOW_BUF_SIZE RUN_NUMS : ℕ) (index : UInt32 → Fin m)
    (rel_r rel_s : Fin T → List Tuple) (malloc : Ptr T m → Bucket Tuple BUCKET_SIZE T m) (k : ℕ)
    (d : Data BUCKET_SIZE T m) : Prop extends Common k d where
  allocating : k ≤ 2 → Allocating OVERFLOW_BUF_SIZE malloc d
  building : k = 3 → Building OVERFLOW_BUF_SIZE index rel_r malloc d
  probing : 4 ≤ k → ∃ order s chain,
    Probing OVERFLOW_BUF_SIZE RUN_NUMS index rel_r rel_s malloc order s chain d

/-! ### The parts before the build -/

section Parts
variable {t : Fin T}

omit [NeZero BUCKET_SIZE] in
theorem Common.complete (h : Common k d) (ht : d.completed t = k)
    (hargs : 2 ≤ k → d.args_ht t = true) : Common k (d.complete k t) := by
  refine ⟨fun u => ?_, h.fault, fun u hu => ?_⟩
  · rcases eq_or_ne u t with rfl | hne
    · exact .inr (by simp [Data.complete])
    · simpa [Data.complete, hne] using h.completed u
  · rcases eq_or_ne u t with rfl | hne
    · refine hargs ?_
      simpa [Data.complete] using hu
    · exact h.args_ht u (by simpa [Data.complete, hne] using hu)

omit [NeZero BUCKET_SIZE] in
theorem Allocating.complete (h : Allocating OVERFLOW_BUF_SIZE malloc d) (ht : d.completed t = k)
    (hk : k ≠ 1) : Allocating OVERFLOW_BUF_SIZE malloc (d.complete k t) := by
  have hsame : ∀ u, 2 ≤ Function.update d.completed t (k + 1) u ↔ 2 ≤ d.completed u := by
    intro u
    rcases eq_or_ne u t with rfl | hne
    · simp only [Function.update_self, ht]
      omega
    · simp [hne]
  refine ⟨h.inside, h.regs, fun u buffer offset => ?_, fun u hu htwo => ?_⟩
  · simp only [Data.complete, hsame]
    exact h.overflow u buffer offset
  · exact h.table u hu ((hsame u).mp htwo)

omit [NeZero BUCKET_SIZE] in
/-- The second part. -/
theorem Allocating.allocate (h : Allocating OVERFLOW_BUF_SIZE malloc d) (ht : d.completed t = 1) :
    Allocating OVERFLOW_BUF_SIZE malloc
      ((if t.val = 0 then (d.initBucketBuffer OVERFLOW_BUF_SIZE malloc t).allocateHashtable
        else d.initBucketBuffer OVERFLOW_BUF_SIZE malloc t).complete 1 t) := by
  have hregs : Function.update d.machine.regs t ⟨0, 0, 0, .readNext⟩
      = fun _ => (⟨0, 0, 0, .readNext⟩ : Latch.Thread T m) := by
    rw [h.regs]
    exact Function.update_eq_self t _
  have hoverflow : ∀ u buffer offset,
      Latch.allocate OVERFLOW_BUF_SIZE malloc t 0 d.machine.memory (.overflow u buffer offset)
        = if 2 ≤ Function.update d.completed t 2 u ∧ buffer = 0 ∧ offset < OVERFLOW_BUF_SIZE then
            some (malloc (.overflow u buffer offset)) else none := by
    intro u buffer offset
    rw [Latch.allocate, h.overflow]
    rcases eq_or_ne u t with rfl | hne
    · simp [ht]
    · simp [hne]
  split_ifs with hzero
  · exact ⟨h.inside, hregs, hoverflow, fun u hu htwo => ⟨rfl, rfl, fun i => rfl⟩⟩
  · refine ⟨h.inside, hregs, hoverflow, fun u hu htwo => ?_⟩
    have hne : u ≠ t := by
      rintro rfl
      exact hzero hu
    simp only [Data.complete, Function.update_of_ne hne] at htwo
    obtain ⟨hht, hlatch, hdir⟩ := h.table u hu htwo
    exact ⟨hht, hlatch, hdir⟩

omit [NeZero BUCKET_SIZE] in
/-- When all have allocated, the build can start. -/
theorem Allocating.machine_eq [NeZero T] (h : Allocating OVERFLOW_BUF_SIZE malloc d)
    (hall : ∀ t, 2 ≤ d.completed t) :
    d.machine = Latch.start OVERFLOW_BUF_SIZE ⟨0, 0⟩ malloc := by
  obtain ⟨-, hlatch, hdir⟩ := h.table 0 rfl (hall 0)
  have hmem : d.machine.memory = (Latch.start OVERFLOW_BUF_SIZE ⟨0, 0⟩ malloc).memory := by
    funext p
    cases p with
    | directory i => exact hdir i
    | overflow u buffer offset =>
      rw [h.overflow]
      simp [Latch.start, State.load, State.init, hall u]
  have hinside := h.inside
  have hregs := h.regs
  cases hd : d.machine
  rw [hd] at hlatch hmem hinside hregs
  simp only at hlatch hmem hinside hregs
  rw [hlatch, hmem, hinside, hregs]
  rfl

/-! ### The build -/

/-- A turn of the build. -/
theorem Phase.build [NeZero OVERFLOW_BUF_SIZE]
    (h : Phase OVERFLOW_BUF_SIZE RUN_NUMS index rel_r rel_s malloc 3 d) (ht : d.completed t = 3) :
    Phase OVERFLOW_BUF_SIZE RUN_NUMS index rel_r rel_s malloc 3
      (d.build OVERFLOW_BUF_SIZE (fun r => index r.key) rel_r malloc 3 t) := by
  have hargs := h.args_ht t ht.ge
  obtain ⟨⟨done, memory, threads, hbetween, hs⟩, hdone⟩ := h.building rfl
  have hatomic := Latch.atomic_program (NeZero.pos OVERFLOW_BUF_SIZE)
    (fun r : Tuple => index r.key) rel_r ⟨0, 0⟩ malloc
  simp only [Data.build, hargs, if_true]
  split_ifs with hlt
  · -- a turn of the machine; the threads that are done have no more sections
    refine ⟨⟨h.completed, h.fault, h.args_ht⟩, by omega, fun _ => ⟨?_, fun u hu => ?_⟩, by omega⟩
    · exact hatomic.simulates_turn hbetween hs t
    · have hne : u ≠ t := by
        rintro rfl
        simp only [ht] at hu
        omega
      have hregs : (turn (Latch.program OVERFLOW_BUF_SIZE (fun r => index r.key) rel_r malloc) t
          d.machine).regs u = d.machine.regs u := by
        simp only [turn, tas]
        split
        · rfl
        · split_ifs <;> simp [hne]
      rw [hregs]
      exact hdone u hu
  · refine ⟨h.toCommon.complete ht fun _ => hargs, by omega, fun _ => ⟨?_, fun u hu => ?_⟩, by omega⟩
    · exact ⟨done, memory, threads, hbetween, hs⟩
    · rcases eq_or_ne u t with rfl | hne
      · refine Latch.pos_eq_of_none hatomic hbetween hs ?_
        simpa [Latch.program] using hlt
      · exact hdone u (by simpa [Data.complete, hne] using hu)

/-- When all have built, the probes can start. -/
theorem Phase.probing_of_built [NeZero OVERFLOW_BUF_SIZE]
    (h : Phase OVERFLOW_BUF_SIZE RUN_NUMS index rel_r rel_s malloc 3 d)
    (hall : ∀ t, d.completed t = 4) : ∃ order s chain,
      Probing OVERFLOW_BUF_SIZE RUN_NUMS index rel_r rel_s malloc order s chain d := by
  obtain ⟨⟨order, memory, threads, hbetween, hs⟩, hdone⟩ := h.building rfl
  have hatomic := Latch.atomic_program (NeZero.pos OVERFLOW_BUF_SIZE)
    (fun r : Tuple => index r.key) rel_r ⟨0, 0⟩ malloc
  have hpos : ∀ t, (d.machine.regs t).pos = (rel_r t).length := fun t => hdone t (hall t).ge
  obtain ⟨hcount, s, hbuild, hmem⟩ := Latch.build_of_done hatomic hbetween hs hpos
  obtain ⟨s', hbuild', chain, hholds⟩ := State.holds_of_build (NeZero.pos OVERFLOW_BUF_SIZE)
    (⟨0, 0⟩ : Tuple) malloc (fun r => index r.key) fun t => (hcount t).le
  obtain rfl := Outcome.returned.inj (hbuild.symm.trans hbuild')
  refine ⟨order, s, chain, hcount, hbuild, hholds, hmem, hpos,
    Latch.not_fault hatomic hbetween hs, fun t ht => ?_, fun t ht => ?_⟩
  · rw [hall t] at ht
    omega
  · rw [hall t] at ht
    cases ht

/-! ### The probes -/

section Probes
variable {order : List (Fin T)} {s : State Tuple BUCKET_SIZE T m}
  {chain : Fin m → List (Ptr T m × Bucket Tuple BUCKET_SIZE T m)}

/-- A part that is not in front of a probe is complete. -/
theorem Probing.complete
    (h : Probing OVERFLOW_BUF_SIZE RUN_NUMS index rel_r rel_s malloc order s chain d)
    (hresult : 7 ≤ k + 1 → d.num_results t = UInt64.ofNat (total index chain (rel_s t)))
    (hprobe : part RUN_NUMS (k + 1) = .probe →
      InProbe index chain d.machine.memory (rel_s t) (d.probe t)) :
    Probing OVERFLOW_BUF_SIZE RUN_NUMS index rel_r rel_s malloc order s chain (d.complete k t) := by
  refine ⟨h.count, h.build, h.holds, h.memory, h.pos, h.pc, fun u hu => ?_, fun u hu => ?_⟩
  · rcases eq_or_ne u t with rfl | hne
    · exact hresult (by simpa [Data.complete] using hu)
    · exact h.results u (by simpa [Data.complete, hne] using hu)
  · rcases eq_or_ne u t with rfl | hne
    · exact hprobe (by simpa [Data.complete] using hu)
    · exact h.probe u (by simpa [Data.complete, hne] using hu)

/-- A thread in front of a tuple. -/
theorem inProbe_start {n : ℕ}
    (hholds : State.Holds OVERFLOW_BUF_SIZE ⟨0, 0⟩ (fun r => index r.key) chain
      (Interleaving.merge rel_r order fun _ => 0) s) (S : List Tuple) :
    InProbe index chain (s.load OVERFLOW_BUF_SIZE) S
      ⟨n, none, UInt64.ofNat (total index chain (S.take n))⟩ := by
  rw [InProbe]
  cases htuple : S[n]? with
  | none => rw [List.take_of_length_le (List.getElem?_eq_none_iff.mp htuple)]
  | some tuple => exact ⟨[], chain (index tuple.key), rfl, hholds.linked _, rfl⟩

theorem total_take_succ {S : List Tuple} {n : ℕ} {tuple : Tuple} (h : S[n]? = some tuple) :
    total index chain (S.take (n + 1)) = total index chain (S.take n) + hits index chain tuple.key := by
  obtain ⟨hlt, rfl⟩ := List.getElem?_eq_some_iff.mp h
  rw [total, total, List.take_succ_eq_append_getElem hlt, List.map_append, List.sum_append]
  simp

/-- A turn of the probe. -/
theorem Phase.probe (h : Phase OVERFLOW_BUF_SIZE RUN_NUMS index rel_r rel_s malloc k d)
    (ht : d.completed t = k) (hk : 5 ≤ k) (hpart : part RUN_NUMS k = .probe)
    (hnext : part RUN_NUMS (k + 1) ≠ .probe) :
    Phase OVERFLOW_BUF_SIZE RUN_NUMS index rel_r rel_s malloc k (d.probeBucket index rel_s k t) := by
  obtain ⟨order, s, chain, hp⟩ := h.probing (by omega)
  have hargs := h.args_ht t (by omega)
  have hin := hp.probe t (by rw [ht]; exact hpart)
  rw [InProbe] at hin
  -- the cases of the loop over the tuples
  cases htuple : (rel_s t)[(d.probe t).i]? with
  | none =>
    rw [htuple] at hin
    have hcommon : Common k { d with
        num_results := Function.update d.num_results t (d.probe t).matches' } :=
      ⟨h.completed, h.fault, h.args_ht⟩
    rw [Data.probeBucket]
    simp only [htuple]
    refine ⟨hcommon.complete ht fun _ => hargs, by omega, by omega, fun _ => ⟨order, s, chain, ?_⟩⟩
    refine Probing.complete ⟨hp.count, hp.build, hp.holds, hp.memory, hp.pos, hp.pc,
      fun u hu => ?_, hp.probe⟩ (fun _ => ?_) fun hprobe => absurd hprobe hnext
    · rcases eq_or_ne u t with rfl | hne
      · simpa using hin
      · simpa [hne] using hp.results u hu
    · simpa using hin
  | some tuple =>
    rw [htuple] at hin
    obtain ⟨seen, rest, hchain, hlinked, hmatches⟩ := hin
    cases rest with
    | nil => cases hlinked
    | cons x rest =>
      obtain ⟨hx, hload, hrest⟩ := hlinked
      have hmatches' : (if tuple.key = (x.2.tuples 0).key then (d.probe t).matches' + 1
          else (d.probe t).matches') = UInt64.ofNat (total index chain ((rel_s t).take (d.probe t).i)
            + (seen ++ [x]).countP fun x => tuple.key = (x.2.tuples 0).key) := by
        rw [hmatches, List.countP_append, List.countP_singleton, ← Nat.add_assoc]
        simp only [decide_eq_true_eq]
        split_ifs
        · exact (UInt64.ofNat_add _ 1).symm
        · rfl
      -- the invariant of another position of this thread
      have hupdate : ∀ r, InProbe index chain d.machine.memory (rel_s t) r →
          Phase OVERFLOW_BUF_SIZE RUN_NUMS index rel_r rel_s malloc k
            { d with probe := Function.update d.probe t r } := by
        intro r hr
        refine ⟨⟨h.completed, h.fault, h.args_ht⟩, by omega, by omega,
          fun _ => ⟨order, s, chain, hp.count, hp.build, hp.holds, hp.memory, hp.pos, hp.pc,
            hp.results, fun u hu => ?_⟩⟩
        rcases eq_or_ne u t with rfl | hne
        · simpa using hr
        · simpa [hne] using hp.probe u hu
      have hx' : (d.probe t).b.getD (.directory (index tuple.key)) = x.1 := Option.some.inj hx
      rw [Data.probeBucket]
      simp only [htuple, hargs, if_true, hx', hload, hmatches']
      cases hnxt : x.2.next with
      | none =>
        refine hupdate _ ?_
        rw [hnxt] at hrest
        have hend : rest = [] := by
          cases rest with
          | nil => rfl
          | cons y rest => cases hrest.1
        have hhits : ((seen ++ [x]).countP fun x => tuple.key = (x.2.tuples 0).key)
            = hits index chain tuple.key := by rw [hits, hchain, hend]
        rw [hhits, ← total_take_succ htuple, hp.memory]
        exact inProbe_start hp.holds _
      | some p =>
        refine hupdate _ ?_
        rw [InProbe, htuple]
        refine ⟨seen ++ [x], rest, by rw [hchain, List.append_assoc]; rfl, ?_, rfl⟩
        rw [hnxt] at hrest
        exact hrest

end Probes

/-! ### All parts -/

omit [NeZero BUCKET_SIZE] in
theorem part_cases (RUN_NUMS n : ℕ) : part RUN_NUMS (n + 5) = .done ∨
    part RUN_NUMS (n + 5) = .between ∧ n % 2 = 0 ∨
    part RUN_NUMS (n + 5) = .probe ∧ n % 2 = 1 ∧ part RUN_NUMS (n + 6) ≠ .probe := by
  simp only [part]
  split_ifs <;> first | omega | simp_all

/-- A part makes no other thread's part less complete. -/
theorem work_completed (OVERFLOW_BUF_SIZE RUN_NUMS : ℕ) (index : UInt32 → Fin m)
    (rel_r rel_s : Fin T → List Tuple) (malloc : Ptr T m → Bucket Tuple BUCKET_SIZE T m) (k : ℕ)
    (t : Fin T) (d : Data BUCKET_SIZE T m) :
    ((work OVERFLOW_BUF_SIZE RUN_NUMS index rel_r rel_s malloc).step k t d).completed = d.completed ∨
    ((work OVERFLOW_BUF_SIZE RUN_NUMS index rel_r rel_s malloc).step k t d).completed
      = Function.update d.completed t (k + 1) := by
  simp only [work]
  split
  case h_2 => split_ifs <;> exact .inr rfl
  case h_4 =>
    simp only [Data.build]
    split_ifs <;> first | exact .inl rfl | exact .inr rfl
  case h_7 =>
    simp only [Data.probeBucket]
    repeat' split
    all_goals first | exact .inl rfl | exact .inr rfl
  all_goals first | exact .inl rfl | exact .inr rfl

/-- Step lemma: a turn of a part keeps the invariant of its phase. -/
theorem Phase.step [NeZero T] [NeZero OVERFLOW_BUF_SIZE]
    (h : Phase OVERFLOW_BUF_SIZE RUN_NUMS index rel_r rel_s malloc k d) {t : Fin T}
    (ht : d.completed t = k) : Phase OVERFLOW_BUF_SIZE RUN_NUMS index rel_r rel_s malloc k
      ((work OVERFLOW_BUF_SIZE RUN_NUMS index rel_r rel_s malloc).step k t d) := by
  rcases k with _ | _ | _ | _ | _ | n
  · exact ⟨h.toCommon.complete ht nofun,
      fun _ => (h.allocating (by omega)).complete ht (by omega), nofun, nofun⟩
  · have halloc := (h.allocating (by omega)).allocate ht
    simp only [work, part]
    refine ⟨?_, fun _ => halloc, nofun, by omega⟩
    split_ifs
    all_goals
      exact Common.complete ⟨h.completed, h.fault, h.args_ht⟩ ht (by omega)
  · -- the pointer that all take over is the one thread 0 has written
    have halloc := h.allocating (by omega)
    have hht : d.ht = true := by
      refine (halloc.table 0 rfl ?_).1
      rcases h.completed 0 with h0 | h0 <;> omega
    have hargs : ∀ u, Function.update d.args_ht t d.ht u = true ∨
        Function.update d.args_ht t d.ht u = d.args_ht u := by
      intro u
      rcases eq_or_ne u t with rfl | hne
      · exact .inl (by simpa using hht)
      · exact .inr (by simp [hne])
    have hcommon : Common 2 { d with args_ht := Function.update d.args_ht t d.ht } :=
      ⟨h.completed, h.fault, fun u hu => (hargs u).elim id fun hsame => hsame.trans (h.args_ht u hu)⟩
    refine ⟨hcommon.complete ht fun _ => by simpa using hht, fun _ => ?_, nofun, by omega⟩
    exact Allocating.complete ⟨halloc.inside, halloc.regs, halloc.overflow, halloc.table⟩ ht (by omega)
  · exact h.build ht
  · obtain ⟨order, s, chain, hp⟩ := h.probing le_rfl
    refine ⟨h.toCommon.complete ht fun _ => h.args_ht t (by omega), nofun, nofun,
      fun _ => ⟨order, s, chain, hp.complete (by omega) fun hprobe => ?_⟩⟩
    rcases part_cases RUN_NUMS 0 with hdone | ⟨hbetween, -⟩ | ⟨-, hodd, -⟩
    · cases hdone.symm.trans hprobe
    · cases hbetween.symm.trans hprobe
    · cases hodd
  · rcases part_cases RUN_NUMS n with hdone | ⟨hbetween, heven⟩ | ⟨hprobe, -, hnext⟩
    · simp only [work, hdone]
      exact h
    · obtain ⟨order, s, chain, hp⟩ := h.probing (by omega)
      have hargs := h.args_ht t (by omega)
      simp only [work, hbetween]
      have hcommon : Common (n + 5) { d with probe := Function.update d.probe t ⟨0, none, 0⟩ } :=
        ⟨h.completed, h.fault, h.args_ht⟩
      refine ⟨hcommon.complete ht fun _ => hargs, by omega, by omega,
        fun _ => ⟨order, s, chain, ?_⟩⟩
      have hstart : InProbe index chain d.machine.memory (rel_s t) ⟨0, none, 0⟩ := by
        rw [hp.memory]
        exact inProbe_start (n := 0) hp.holds (rel_s t)
      refine Probing.complete ⟨hp.count, hp.build, hp.holds, hp.memory, hp.pos, hp.pc, hp.results,
        fun u hu => ?_⟩ (fun hseven => ?_) fun _ => by simpa using hstart
      · rcases eq_or_ne u t with rfl | hne
        · simpa using hstart
        · simpa [hne] using hp.probe u hu
      · exact hp.results t (by omega)
    · simp only [work, hprobe]
      exact h.probe ht (by omega) hprobe hnext

end Parts

section Runs
variable [NeZero T] [NeZero OVERFLOW_BUF_SIZE]

/-- The parts are phases with these invariants. -/
theorem invariant_phase (RUN_NUMS : ℕ) (index : UInt32 → Fin m) (rel_r rel_s : Fin T → List Tuple)
    (malloc : Ptr T m → Bucket Tuple BUCKET_SIZE T m) :
    Phased.Invariant (work OVERFLOW_BUF_SIZE RUN_NUMS index rel_r rel_s malloc)
      (Phase OVERFLOW_BUF_SIZE RUN_NUMS index rel_r rel_s malloc) where
  step {k t d} h hfin := by
    have hle : ¬ k < d.completed t := of_decide_eq_false hfin
    exact h.step ((h.completed t).resolve_right fun hsucc => hle (hsucc ▸ Nat.lt_succ_self k))
  stable {k t u d} h hfin hu := by
    have hlt : k < d.completed u := of_decide_eq_true hu
    refine decide_eq_true ?_
    rcases work_completed OVERFLOW_BUF_SIZE RUN_NUMS index rel_r rel_s malloc k t d with heq | heq <;>
      rw [heq]
    · exact hlt
    · rcases eq_or_ne u t with rfl | hne
      · simp
      · simpa [hne] using hlt
  next {k d} h hall := by
    have hcompleted : ∀ t, d.completed t = k + 1 := fun t =>
      (h.completed t).resolve_left fun heq => by
        have hlt : k < d.completed t := of_decide_eq_true (hall t)
        omega
    refine ⟨⟨fun t => .inl (hcompleted t), h.fault, h.args_ht⟩, fun hle => h.allocating (by omega),
      fun heq => ?_, fun hle => ?_⟩
    · obtain rfl : k = 2 := by omega
      have hmachine := (h.allocating le_rfl).machine_eq fun t => by rw [hcompleted t]; omega
      rw [Building, hmachine]
      refine ⟨⟨_, _, _, Latch.between_start _ rel_r ⟨0, 0⟩ malloc,
        simulates_outside _ _ _ _⟩, fun t ht => ?_⟩
      rw [hcompleted t] at ht
      omega
    · rcases Nat.lt_or_eq_of_le hle with hlt | heq
      · exact h.probing (by omega)
      · obtain rfl : k = 3 := by omega
        exact h.probing_of_built hcompleted

omit [NeZero T] in
theorem Phase.not_fault (h : Phase OVERFLOW_BUF_SIZE RUN_NUMS index rel_r rel_s malloc k d) (t : Fin T)
    (f : Fault) : (d.machine.regs t).pc ≠ .fault f := by
  rcases Nat.lt_trichotomy k 3 with hlt | rfl | hlt
  · rw [(h.allocating (by omega)).regs]
    exact nofun
  · obtain ⟨⟨done, memory, threads, hbetween, hs⟩, -⟩ := h.building rfl
    exact Latch.not_fault (Latch.atomic_program (NeZero.pos OVERFLOW_BUF_SIZE) _ rel_r ⟨0, 0⟩ malloc)
      hbetween hs t f
  · obtain ⟨order, s, chain, hp⟩ := h.probing (by omega)
    exact hp.pc t f

omit [NeZero BUCKET_SIZE] [NeZero T] [NeZero OVERFLOW_BUF_SIZE] in
theorem phase_init [NeZero BUCKET_SIZE] (num_results : Fin T → UInt64) :
    Phase OVERFLOW_BUF_SIZE RUN_NUMS index rel_r rel_s malloc 0 (init num_results) := by
  refine ⟨⟨fun _ => .inl rfl, fun _ => rfl, nofun⟩, fun _ => ⟨rfl, rfl, fun t buffer offset => ?_, ?_⟩,
    nofun, nofun⟩
  · simp [init]
  · simp [init]

omit [NeZero BUCKET_SIZE] [NeZero T] [NeZero OVERFLOW_BUF_SIZE] in
theorem le_of_part {n : ℕ} (h : part RUN_NUMS n = .probe) : 6 ≤ n := by
  rcases n with _ | _ | _ | _ | _ | _ | n
  all_goals simp only [part] at h
  all_goals first | omega | skip
  all_goals try cases h
  split_ifs at h

omit [NeZero BUCKET_SIZE] [NeZero T] [NeZero OVERFLOW_BUF_SIZE] in
theorem le_of_done {n : ℕ} (h : part RUN_NUMS n = .done) : 2 * RUN_NUMS + 5 ≤ n := by
  rcases n with _ | _ | _ | _ | _ | n
  all_goals simp only [part] at h
  all_goals try cases h
  split_ifs at h with hle
  omega

omit [NeZero BUCKET_SIZE] [NeZero T] [NeZero OVERFLOW_BUF_SIZE] in
theorem foldl_ofNat {f : Fin T → UInt64} {g : Fin T → ℕ} (h : ∀ t, f t = UInt64.ofNat (g t))
    (l : List (Fin T)) (a : UInt64) :
    l.foldl (fun result t => result + f t) a = a + UInt64.ofNat (l.map g).sum := by
  induction l generalizing a with
  | nil => simp
  | cons t l ih => rw [List.foldl_cons, ih, h t, List.map_cons, List.sum_cons, UInt64.ofNat_add,
      UInt64.add_assoc]

omit [NeZero T] [NeZero OVERFLOW_BUF_SIZE] in
/-- When all threads have the counts of their partitions, `main` has the count of the probe of S. -/
theorem Probing.result_eq {order : List (Fin T)} {s : State Tuple BUCKET_SIZE T m}
    {chain : Fin m → List (Ptr T m × Bucket Tuple BUCKET_SIZE T m)}
    (h : Probing OVERFLOW_BUF_SIZE RUN_NUMS index rel_r rel_s malloc order s chain d)
    (hall : ∀ t, 7 ≤ d.completed t) :
    s.inljWithHashProbeRelSPartition OVERFLOW_BUF_SIZE index ((List.finRange T).flatMap rel_s)
      = .ok (result d) := by
  have hchain : ∀ key matches', State.chainLoop OVERFLOW_BUF_SIZE s key
      (s.pointers OVERFLOW_BUF_SIZE).length (.directory (index key)) matches'
        = .ok (matches' + UInt64.ofNat (hits index chain key)) := fun key matches' =>
    State.chainLoop_eq (h.holds.linked (index key)) (h.holds.length_le (index key)) matches'
  have hsum : ∀ l : List (Fin T), ((l.flatMap rel_s).map fun t => hits index chain t.key).sum
      = (l.map fun t => total index chain (rel_s t)).sum := by
    intro l
    induction l with
    | nil => rfl
    | cons t l ih => rw [List.flatMap_cons, List.map_append, List.sum_append, ih]; rfl
  rw [State.inljWithHashProbeRelSPartition, State.probeLoop_eq hchain, hsum, result,
    foldl_ofNat fun t => h.results t (hall t)]

/-- CORRECT: behind any safe barrier, in every interleaving of the threads, no pointer is followed that
    leads nowhere, no thread probes before all tuples of R are inserted, and when the threads are
    done `main` prints the count of one probe of S after a build in some order of the inserts: the
    join, less the missed pairs, and the false hits. -/
theorem inlj_join_threads_count_join {β : Type} {b : Phased.Barrier (Fin T) β}
    {J : β → (Fin T → ℕ) → (Fin T → ℕ) → Prop} (hb : Phased.Safe b J) (OVERFLOW_BUF_SIZE RUN_NUMS : ℕ)
    [NeZero OVERFLOW_BUF_SIZE] [NeZero RUN_NUMS] (index : UInt32 → Fin m)
    (rel_r rel_s : Fin T → List Tuple) (malloc : Ptr T m → Bucket Tuple BUCKET_SIZE T m)
    (num_results : Fin T → UInt64) (schedule : List (Fin T)) :
    let w := work OVERFLOW_BUF_SIZE RUN_NUMS index rel_r rel_s malloc
    let d := (Phased.turns b w schedule (Phased.start b (init num_results))).data
    let R := (List.finRange T).flatMap rel_r
    let S := (List.finRange T).flatMap rel_s
    (∀ t, d.fault t = none ∧ ∀ f, (d.machine.regs t).pc ≠ .fault f) ∧
    (∀ t, part RUN_NUMS (d.completed t) = .probe →
      ∀ u, (d.machine.regs u).pos = (rel_r u).length) ∧
    ((∀ t, part RUN_NUMS (d.completed t) = .done) →
      ∃ order s n, (∀ t, order.count t = (rel_r t).length) ∧
        State.build OVERFLOW_BUF_SIZE (fun r => index r.key) rel_r order (State.init ⟨0, 0⟩ malloc)
          = .returned s ∧
        s.inljWithHashProbeRelSPartition OVERFLOW_BUF_SIZE index S = .ok (result d) ∧
        result d = UInt64.ofNat n ∧
        n + missedPairs BUCKET_SIZE index (Interleaving.merge rel_r order fun _ => 0) S
          = joinSize R S + falseHits index R S) := by
  intro w d R S
  have hinit : Phase OVERFLOW_BUF_SIZE RUN_NUMS index rel_r rel_s malloc 0 (init num_results) :=
    phase_init num_results
  obtain ⟨k, hk⟩ := Phased.inPhase_turns hb (invariant_phase RUN_NUMS index rel_r rel_s malloc)
    (Phased.inPhase_start hb hinit) schedule
  have h : Phase OVERFLOW_BUF_SIZE RUN_NUMS index rel_r rel_s malloc k d := hk.data
  refine ⟨fun t => ⟨h.fault t, h.not_fault t⟩, fun t ht u => ?_, fun hdone => ?_⟩
  · have hle := le_of_part ht
    obtain ⟨order, s, chain, hp⟩ := h.probing (by rcases h.completed t with heq | heq <;> omega)
    exact hp.pos u
  · have hpos := NeZero.pos RUN_NUMS
    have hall : ∀ t, 7 ≤ d.completed t := fun t => by
      have hle := le_of_done (hdone t)
      omega
    have hseven := hall 0
    obtain ⟨order, s, chain, hp⟩ := h.probing (by rcases h.completed 0 with heq | heq <;> omega)
    obtain ⟨s', n, hbuild, hprobe, hcount⟩ := State.probe_eq (NeZero.pos OVERFLOW_BUF_SIZE) index rel_r
      malloc hp.count S
    obtain rfl := Outcome.returned.inj (hbuild.symm.trans hp.build)
    have hresult := hp.result_eq hall
    exact ⟨order, s', n, hp.count, hbuild, hresult,
      Except.ok.inj (hresult.symm.trans hprobe), hcount⟩

/-- Two threads with a chain of two buckets. -/
theorem inlj_join_threads_count_join_two_threads :
    let rel_r : Fin 2 → List Tuple := ![[⟨5, 50⟩], [⟨6, 60⟩]]
    let rel_s : Fin 2 → List Tuple := ![[⟨5, 7⟩], [⟨6, 7⟩, ⟨7, 8⟩]]
    let malloc : Ptr 2 1 → Bucket Tuple 1 2 1 := fun _ => ⟨9, none, fun _ => ⟨7, 9⟩⟩
    let w := work 1 1 (fun _ => 0) rel_r rel_s malloc
    let d := (Phased.turns (pthreadBarrier 2) w (List.replicate 50 [0, 1]).flatten
      (Phased.start (pthreadBarrier 2) (init fun _ => 3))).data
    ∃ order s n, (∀ t, order.count t = (rel_r t).length) ∧
      State.build 1 (fun _ => 0) rel_r order (State.init ⟨0, 0⟩ malloc) = .returned s ∧
      s.inljWithHashProbeRelSPartition 1 (fun _ => 0) ((List.finRange 2).flatMap rel_s)
        = .ok (result d) ∧
      result d = UInt64.ofNat n ∧
      n + missedPairs 1 (fun _ => (0 : Fin 1)) (Interleaving.merge rel_r order fun _ => 0)
          ((List.finRange 2).flatMap rel_s)
        = joinSize ((List.finRange 2).flatMap rel_r) ((List.finRange 2).flatMap rel_s)
          + falseHits (fun _ => (0 : Fin 1)) ((List.finRange 2).flatMap rel_r)
            ((List.finRange 2).flatMap rel_s) := by
  intro rel_r rel_s malloc w d
  exact (inlj_join_threads_count_join (PthreadBarrier.safe_pthreadBarrier 2) 1 1 (fun _ => 0) rel_r
    rel_s malloc (fun _ => 3) (List.replicate 50 [0, 1]).flatten).2.2 (by decide +kernel)

end Runs

end JoinThread
end Npj
end HashingBenchmark
