import HashingBenchmark.Lib.UIntOrder
import Mathlib.Data.List.Sort
import Mathlib.Data.Prod.Lex
import Mathlib.Order.MinMax

/-! The statistics of the probe phase of `inlj_join_thread`: the runs of one probe function, and the
    run that is reported.

    Each run pushes its time with its index to a heap, and `fillProfileVectors` puts its counters into
    vectors. The loop that is to select the median only looks at the top of the heap, so what it
    selects is the least pair.

    `PerfEvents` and its `fillProfileVectors` are a parameter; of a call it is assumed that it appends
    the counters of the run, one to each vector (`Appends`). -/

namespace HashingBenchmark
namespace Join
open UIntOrder

/-- `pi`, a time and the index of its run. -/
abbrev Timing := UInt64 ×ₗ ℕ

/-- An entry of each of the vectors. -/
structure Profile where
  cycles : UInt64
  llc_misses : UInt64
  l1_misses : UInt64
  instructions : UInt64
  branch_misses : UInt64
  task_clock : UInt64
  deriving DecidableEq

/-- The vectors that `fillProfileVectors` gets. -/
structure ProfileVectors where
  curr_probe_cycles_vec : List UInt64
  curr_probe_llc_misses_vec : List UInt64
  curr_probe_l1_misses_vec : List UInt64
  curr_probe_instructions_vec : List UInt64
  curr_probe_branch_misses_vec : List UInt64
  curr_probe_task_clock_vec : List UInt64

namespace ProfileVectors

/-- One entry more in each vector. -/
def push (v : ProfileVectors) (p : Profile) : ProfileVectors :=
  ⟨v.curr_probe_cycles_vec ++ [p.cycles], v.curr_probe_llc_misses_vec ++ [p.llc_misses],
    v.curr_probe_l1_misses_vec ++ [p.l1_misses],
    v.curr_probe_instructions_vec ++ [p.instructions],
    v.curr_probe_branch_misses_vec ++ [p.branch_misses],
    v.curr_probe_task_clock_vec ++ [p.task_clock]⟩

/-- The entries at an index of the vectors, all of which must have one. -/
def get? (v : ProfileVectors) (i : ℕ) : Option Profile := do
  let cycles ← v.curr_probe_cycles_vec[i]?
  let llc_misses ← v.curr_probe_llc_misses_vec[i]?
  let l1_misses ← v.curr_probe_l1_misses_vec[i]?
  let instructions ← v.curr_probe_instructions_vec[i]?
  let branch_misses ← v.curr_probe_branch_misses_vec[i]?
  let task_clock ← v.curr_probe_task_clock_vec[i]?
  some ⟨cycles, llc_misses, l1_misses, instructions, branch_misses, task_clock⟩

/-- Vectors of these entries. -/
def ofList (profiles : List Profile) : ProfileVectors :=
  ⟨profiles.map Profile.cycles, profiles.map Profile.llc_misses, profiles.map Profile.l1_misses,
    profiles.map Profile.instructions, profiles.map Profile.branch_misses,
    profiles.map Profile.task_clock⟩

theorem push_ofList (profiles : List Profile) (p : Profile) :
    (ofList profiles).push p = ofList (profiles ++ [p]) := by
  simp [push, ofList]

theorem get?_ofList (profiles : List Profile) (i : ℕ) : (ofList profiles).get? i = profiles[i]? := by
  simp only [get?, ofList, List.getElem?_map]
  cases profiles[i]? with
  | none => rfl
  | some p => rfl

end ProfileVectors

/-- `perf_event.fillProfileVectors` for `NUM_THREADS` threads, with what `perf_event` has read. -/
abbrev FillProfileVectors (PerfEvents : Type) := PerfEvents → ProfileVectors → ProfileVectors

/-- A call appends an entry to each vector, the counters that have been read. -/
def Appends {PerfEvents : Type} (fillProfileVectors : FillProfileVectors PerfEvents)
    (counters : PerfEvents → Profile) : Prop :=
  ∀ perf_event vectors, fillProfileVectors perf_event vectors = vectors.push (counters perf_event)

/-- The variables of the runs of one probe function: what is in the heap, and the vectors. -/
structure Runs where
  curr_probe_timings_in_ms : List Timing
  vectors : ProfileVectors

/-- What is reported. -/
structure Report where
  timing : UInt64
  profile : Profile
  deriving DecidableEq

/-- `top()` of a heap with the least pair on top. -/
def top (heap : List Timing) : Option Timing := heap.min?

variable {PerfEvents : Type} (fillProfileVectors : FillProfileVectors PerfEvents)

/-- One run. -/
def Runs.step (s : Runs) (rp : ℕ) (timing : UInt64) (perf_event : PerfEvents) : Runs :=
  ⟨toLex (timing, rp) :: s.curr_probe_timings_in_ms, fillProfileVectors perf_event s.vectors⟩

/-- The runs from number `rp` on, each with its time and what `perf_event` has read. -/
def Runs.loop : ℕ → List (UInt64 × PerfEvents) → Runs → Runs
  | _, [], s => s
  | rp, (timing, perf_event) :: rest, s =>
    Runs.loop (rp + 1) rest (s.step fillProfileVectors rp timing perf_event)

/-- The loop that assigns `top`. -/
def selectLoop (heap : List Timing) : ℕ → Option Timing → Option Timing
  | 0, selected => selected
  | n + 1, _ => selectLoop heap n (top heap)

/-- The variables after all runs. -/
def Runs.all (runs : List (UInt64 × PerfEvents)) : Runs :=
  Runs.loop fillProfileVectors 0 runs ⟨[], .ofList []⟩

/-- The pair that is selected of `RUN_NUMS` runs. -/
def selected (runs : List (UInt64 × PerfEvents)) : Option Timing :=
  selectLoop (Runs.all fillProfileVectors runs).curr_probe_timings_in_ms (runs.length / 2) none

/-- What is reported of these runs. -/
def reported (runs : List (UInt64 × PerfEvents)) : Option Report :=
  (selected fillProfileVectors runs).bind fun pair =>
    ((Runs.all fillProfileVectors runs).vectors.get? (ofLex pair).2).map (⟨(ofLex pair).1, ·⟩)

/-! ### The pair that is selected -/

/-- The pairs of all runs. -/
def pairs (runs : List (UInt64 × PerfEvents)) : List Timing :=
  runs.zipIdx.map fun run => toLex (run.1.1, run.2)

/-- The pair at position `RUN_NUMS / 2` of the sorted pairs, counted from 1. -/
def median (runs : List (UInt64 × PerfEvents)) : Option Timing :=
  ((pairs runs).insertionSort (· ≤ ·))[runs.length / 2 - 1]?

/-- The median pair is selected, and its time and the counters of its run are reported. -/
def ReportsMedian (counters : PerfEvents → Profile) (runs : List (UInt64 × PerfEvents)) : Prop :=
  ∃ pair run, median runs = some pair ∧ runs[(ofLex pair).2]? = some run ∧
    selected fillProfileVectors runs = some pair ∧
    reported fillProfileVectors runs = some ⟨(ofLex pair).1, counters run.2⟩

section Runs
variable {fillProfileVectors} {counters : PerfEvents → Profile}

/-- The heap has the pairs of all runs, whatever is put into the vectors. -/
theorem loop_timings (rp : ℕ) (runs : List (UInt64 × PerfEvents)) (s : Runs) :
    (Runs.loop fillProfileVectors rp runs s).curr_probe_timings_in_ms
      = ((runs.zipIdx rp).map fun run => toLex (run.1.1, run.2)).reverse
          ++ s.curr_probe_timings_in_ms := by
  induction runs generalizing rp s with
  | nil => simp [Runs.loop]
  | cons run rest ih =>
    rw [Runs.loop, ih, Runs.step]
    simp

/-- The vectors have the counters of all runs. -/
theorem loop_vectors (hfill : Appends fillProfileVectors counters) (rp : ℕ)
    (runs : List (UInt64 × PerfEvents)) {s : Runs} {done : List Profile}
    (hs : s.vectors = .ofList done) :
    (Runs.loop fillProfileVectors rp runs s).vectors
      = .ofList (done ++ runs.map fun run => counters run.2) := by
  induction runs generalizing rp s done with
  | nil => rw [Runs.loop, hs, List.map_nil, List.append_nil]
  | cons run rest ih =>
    have hstep : (s.step fillProfileVectors rp run.1 run.2).vectors
        = .ofList (done ++ [counters run.2]) := by
      rw [Runs.step, hfill, hs, ProfileVectors.push_ofList]
    rw [Runs.loop, ih _ hstep, List.append_assoc, List.singleton_append, List.map_cons]

theorem selectLoop_eq (heap : List Timing) {n : ℕ} (hn : 0 < n) (start : Option Timing) :
    selectLoop heap n start = top heap := by
  induction n generalizing start with
  | zero => exact absurd hn (Nat.lt_irrefl 0)
  | succ n ih =>
    rw [selectLoop]
    cases n with
    | zero => rfl
    | succ n => exact ih (Nat.succ_pos n) (top heap)

/-- The top of the heap is the first of the sorted pairs. -/
theorem top_eq_getElem?_zero {heap l : List Timing} (h : heap.Perm l) :
    top heap = (l.insertionSort (· ≤ ·))[0]? := by
  have hperm := (List.perm_insertionSort (· ≤ ·) l).trans h.symm
  have hsorted := List.pairwise_insertionSort (· ≤ ·) l
  cases hl : l.insertionSort (· ≤ ·) with
  | nil =>
    rw [hl] at hperm
    rw [List.nil_perm.mp hperm]
    rfl
  | cons a rest =>
    rw [hl] at hperm hsorted
    rw [List.getElem?_cons_zero, top, List.min?_eq_some_iff]
    refine ⟨hperm.mem_iff.mp List.mem_cons_self, fun b hb => ?_⟩
    rcases List.mem_cons.mp (hperm.mem_iff.mpr hb) with rfl | hb
    · exact le_rfl
    · exact (List.pairwise_cons.mp hsorted).1 b hb

theorem selected_eq {runs : List (UInt64 × PerfEvents)} (h : 2 ≤ runs.length) :
    selected fillProfileVectors runs = ((pairs runs).insertionSort (· ≤ ·))[0]? := by
  have hhalf : 0 < runs.length / 2 := Nat.div_pos h Nat.two_pos
  rw [selected, selectLoop_eq _ hhalf, Runs.all, loop_timings, List.append_nil]
  exact top_eq_getElem?_zero (List.reverse_perm _)

theorem length_sorted (runs : List (UInt64 × PerfEvents)) :
    ((pairs runs).insertionSort (· ≤ ·)).length = runs.length := by
  rw [List.length_insertionSort, pairs, List.length_map, List.length_zipIdx]

/-- No two pairs have the same index. -/
theorem nodup_sorted (runs : List (UInt64 × PerfEvents)) :
    ((pairs runs).insertionSort (· ≤ ·)).Nodup := by
  rw [(List.perm_insertionSort (· ≤ ·) (pairs runs)).nodup_iff]
  refine List.Nodup.of_map (fun pair => (ofLex pair).2) ?_
  rw [pairs, List.map_map]
  have hindex : ((fun pair => (ofLex pair).2) ∘ fun run : (UInt64 × PerfEvents) × ℕ =>
      toLex (run.1.1, run.2)) = Prod.snd := rfl
  rw [hindex, List.zipIdx_map_snd]
  exact List.nodup_range'

/-- A pair of the heap has the index of a run, whose counters are at that index. -/
theorem reported_eq (hfill : Appends fillProfileVectors counters)
    {runs : List (UInt64 × PerfEvents)} {pair : Timing} {run : UInt64 × PerfEvents}
    (hselected : selected fillProfileVectors runs = some pair)
    (hrun : runs[(ofLex pair).2]? = some run) :
    reported fillProfileVectors runs = some ⟨(ofLex pair).1, counters run.2⟩ := by
  rw [reported, hselected, Runs.all, loop_vectors hfill 0 runs rfl, Option.bind_some,
    ProfileVectors.get?_ofList, List.nil_append, List.getElem?_map, hrun]
  rfl

theorem exists_run {runs : List (UInt64 × PerfEvents)} {pair : Timing}
    (h : pair ∈ (pairs runs).insertionSort (· ≤ ·)) : ∃ run, runs[(ofLex pair).2]? = some run := by
  rw [List.mem_insertionSort, pairs, List.mem_map] at h
  obtain ⟨⟨run, i⟩, hmem, rfl⟩ := h
  exact ⟨run, List.mem_zipIdx_iff_getElem?.mp hmem⟩

end Runs

/-- The least of four times is selected, where the second one should be. -/
theorem probe_phase_reports_fastest_of_four :
    let fillProfileVectors : FillProfileVectors Profile := fun perf_event vectors =>
      vectors.push perf_event
    let runs := [(40, ⟨1, 1, 1, 1, 1, 1⟩), (10, ⟨2, 2, 2, 2, 2, 2⟩), (30, ⟨3, 3, 3, 3, 3, 3⟩),
      (20, ⟨4, 4, 4, 4, 4, 4⟩)]
    selected fillProfileVectors runs = some (toLex (10, 1)) ∧
      median runs = some (toLex (20, 3)) ∧ ¬ ReportsMedian fillProfileVectors id runs := by
  intro fillProfileVectors runs
  have hselected : selected fillProfileVectors runs = some (toLex (10, 1)) := by decide
  have hmedian : median runs = some (toLex (20, 3)) := by decide
  refine ⟨hselected, hmedian, ?_⟩
  rintro ⟨pair, run, hpair, -, hpair', -⟩
  rw [hmedian] at hpair
  rw [hselected, ← hpair] at hpair'
  revert hpair'
  decide

/-- CORRECT: of two or more runs the median is reported exactly if there are two or three, whatever
    counters a call of `fillProfileVectors` appends. -/
theorem probe_phase_reports_median_iff {PerfEvents : Type}
    (fillProfileVectors : FillProfileVectors PerfEvents) (counters : PerfEvents → Profile)
    (hfill : Appends fillProfileVectors counters) {runs : List (UInt64 × PerfEvents)}
    (h : 2 ≤ runs.length) :
    ReportsMedian fillProfileVectors counters runs ↔ runs.length < 4 := by
  have hlen := length_sorted runs
  have hzero : 0 < ((pairs runs).insertionSort (· ≤ ·)).length := by omega
  have hhalf : runs.length / 2 - 1 < ((pairs runs).insertionSort (· ≤ ·)).length := by omega
  have hselected : selected fillProfileVectors runs
      = some ((pairs runs).insertionSort (· ≤ ·))[0] := by
    rw [selected_eq h, List.getElem?_eq_getElem hzero]
  have hmedian : median runs = some ((pairs runs).insertionSort (· ≤ ·))[runs.length / 2 - 1] :=
    List.getElem?_eq_getElem hhalf
  constructor
  · rintro ⟨pair, run, hpair, -, hpair', -⟩
    rw [hmedian, Option.some_inj] at hpair
    rw [hselected, Option.some_inj, ← hpair] at hpair'
    have hindex := (nodup_sorted runs).getElem_inj_iff.mp hpair'
    omega
  · intro hfour
    have hindex : runs.length / 2 - 1 = 0 := by omega
    obtain ⟨run, hrun⟩ := exists_run (List.getElem_mem hzero)
    refine ⟨_, run, ?_, hrun, hselected, reported_eq hfill hselected hrun⟩
    rw [hmedian]
    simp only [hindex]

/-- Three runs. -/
theorem probe_phase_reports_median_iff_three_runs :
    ReportsMedian (fun perf_event vectors => vectors.push perf_event) id
      [(7, ⟨1, 2, 3, 4, 5, 6⟩), (5, ⟨1, 1, 1, 1, 1, 1⟩), (5, ⟨2, 2, 2, 2, 2, 2⟩)] :=
  (probe_phase_reports_median_iff _ _ (fun _ _ => rfl) (by decide)).mpr (by decide)

end Join
end HashingBenchmark
