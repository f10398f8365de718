import HashingBenchmark.Lib.Slices

/-! The loop of `benchmark.sh` that starts a benchmark process for each thread, on slices of the list
    of all benchmarks.

    A process is the list of names it runs. Its filter is the slice joined with `|`, and the filter of
    an empty slice is empty, which to the benchmark library means all names. -/

namespace HashingBenchmark
namespace Scripts
open Slices

/-- `"${bm_i[*]}"` with `IFS="|"`. -/
def filter (bm_i : List String) : String := "|".intercalate bm_i

/-- What a process started with the filter of `bm_i` runs. -/
def process (all_bm bm_i : List String) : List String :=
  if filter bm_i = "" then all_bm else bm_i

/-- The loop, with `left` processes to start. -/
def startLoop (all_bm : List String) (elements_per_thread : ℕ) : ℕ → ℕ → List (List String)
  | 0, _ => []
  | left + 1, start =>
    let finish := start + elements_per_thread - 1
    let bm_i := (all_bm.drop start).take elements_per_thread
    process all_bm bm_i :: startLoop all_bm elements_per_thread left (finish + 1)

/-- `elements_per_thread`. -/
def elementsPerThread (all_bm : List String) (thread_number : ℕ) : ℕ :=
  (all_bm.length + thread_number - 1) / thread_number

/-- What the processes that `benchmark.sh` starts run. -/
def benchmark (all_bm : List String) (thread_number : ℕ) : List (List String) :=
  startLoop all_bm (elementsPerThread all_bm thread_number) thread_number 0

/-- Every name is run by one process. -/
def RunsOnce (all_bm : List String) (thread_number : ℕ) : Prop :=
  ∀ name ∈ all_bm, (benchmark all_bm thread_number).countP (fun run => name ∈ run) = 1

/-- No name matches another as a filter. -/
def Unmatched (filterMatches : String → String → Prop) (all_bm : List String) : Prop :=
  all_bm.Pairwise fun a b => ¬ filterMatches a b ∧ ¬ filterMatches b a

/-! ### Filters -/

theorem filter_eq_empty_iff (bm_i : List String) : filter bm_i = "" ↔ bm_i = [] ∨ bm_i = [""] := by
  cases bm_i with
  | nil => simp [filter]
  | cons name rest =>
    cases rest with
    | nil => simp [filter]
    | cons name' rest =>
      rw [filter, String.intercalate_cons_cons]
      simp [String.append_eq_empty_iff]

section Unmatched
variable {filterMatches : String → String → Prop} {all_bm : List String}

theorem Unmatched.nodup (hself : ∀ name, filterMatches name name)
    (h : Unmatched filterMatches all_bm) : all_bm.Nodup := by
  refine List.Pairwise.imp ?_ h
  rintro a b ⟨hab, -⟩ rfl
  exact hab (hself a)

/-- A name that is empty is the only one. -/
theorem Unmatched.eq_singleton (hempty : ∀ name, filterMatches "" name)
    (h : Unmatched filterMatches all_bm) (hmem : "" ∈ all_bm) : all_bm = [""] := by
  obtain ⟨before, after, rfl⟩ := List.append_of_mem hmem
  rw [Unmatched, List.pairwise_append, List.pairwise_cons] at h
  obtain ⟨-, ⟨hafter, -⟩, hbefore⟩ := h
  have hnone : before = [] := by
    refine List.eq_nil_iff_forall_not_mem.mpr fun name hname => ?_
    exact (hbefore name hname "" List.mem_cons_self).2 (hempty name)
  have hnone' : after = [] := by
    refine List.eq_nil_iff_forall_not_mem.mpr fun name hname => ?_
    exact (hafter name hname).1 (hempty name)
  rw [hnone, hnone', List.nil_append]

/-- A process runs its slice, unless that is empty. -/
theorem process_eq (hempty : ∀ name, filterMatches "" name) (h : Unmatched filterMatches all_bm)
    {bm_i : List String} (hsub : ∀ name ∈ bm_i, name ∈ all_bm) :
    process all_bm bm_i = if bm_i = [] then all_bm else bm_i := by
  rw [process]
  by_cases hnil : bm_i = []
  · rw [if_pos hnil, if_pos ((filter_eq_empty_iff bm_i).mpr (Or.inl hnil))]
  · rw [if_neg hnil]
    by_cases hone : bm_i = [""]
    · have hall : all_bm = [""] := h.eq_singleton hempty (hsub "" (hone ▸ List.mem_cons_self))
      rw [if_pos ((filter_eq_empty_iff bm_i).mpr (Or.inr hone)), hall, hone]
    · rw [if_neg fun hfilter => ((filter_eq_empty_iff bm_i).mp hfilter).elim hnil hone]

end Unmatched

/-! ### The loop -/

theorem startLoop_eq (all_bm : List String) {k : ℕ} (hk : 0 < k) (left i : ℕ) :
    startLoop all_bm k left (i * k)
      = (List.range' i left).map fun j => process all_bm (slice k all_bm j) := by
  induction left generalizing i with
  | zero => rfl
  | succ left ih =>
    have hnext : i * k + k - 1 + 1 = (i + 1) * k := by
      rw [Nat.succ_mul]
      omega
    rw [startLoop, hnext, ih, List.range'_succ, List.map_cons]
    rfl

/-- What `t` processes run: each its slice, or all names for an empty one. -/
def shares (k : ℕ) (all_bm : List String) (t : ℕ) : List (List String) :=
  (List.range t).map fun i => if slice k all_bm i = [] then all_bm else slice k all_bm i

theorem elementsPerThread_pos {all_bm : List String} (hne : all_bm ≠ []) {thread_number : ℕ}
    (ht : 1 ≤ thread_number) : 0 < elementsPerThread all_bm thread_number := by
  have hlen : 0 < all_bm.length := List.length_pos_iff.mpr hne
  exact Nat.div_pos (by omega) ht

theorem benchmark_eq {filterMatches : String → String → Prop} {all_bm : List String}
    (hempty : ∀ name, filterMatches "" name) (hnone : Unmatched filterMatches all_bm)
    (hne : all_bm ≠ []) {thread_number : ℕ} (ht : 1 ≤ thread_number) :
    benchmark all_bm thread_number
      = shares (elementsPerThread all_bm thread_number) all_bm thread_number := by
  have hloop := startLoop_eq all_bm (elementsPerThread_pos hne ht) thread_number 0
  rw [Nat.zero_mul, ← List.range_eq_range'] at hloop
  rw [benchmark, hloop]
  refine List.map_congr_left fun i _ => process_eq hempty hnone fun name hname => ?_
  exact List.drop_subset _ _ (List.take_subset _ _ hname)

/-- Without an empty slice the shares are the slices. -/
theorem shares_eq_slices {k : ℕ} (hk : 0 < k) {all_bm : List String} {t : ℕ}
    (hlast : (t - 1) * k < all_bm.length) :
    shares k all_bm t = (List.range t).map (slice k all_bm) := by
  refine List.map_congr_left fun i hi => if_neg ?_
  refine (slice_ne_nil_iff hk all_bm i).mpr (lt_of_le_of_lt ?_ hlast)
  have hi' : i < t := List.mem_range.mp hi
  exact Nat.mul_le_mul_right k (by omega)

/-- What is in slices is in as many shares at least. -/
theorem countP_slices_le_shares (k : ℕ) (all_bm : List String) (t : ℕ) (name : String) :
    ((List.range t).map (slice k all_bm)).countP (fun s => name ∈ s)
      ≤ (shares k all_bm t).countP fun s => name ∈ s := by
  rw [shares, List.countP_map, List.countP_map]
  refine List.countP_mono_left fun i _ hi => ?_
  have hne : slice k all_bm i ≠ [] := List.ne_nil_of_mem (of_decide_eq_true hi)
  simp only [Function.comp_apply, if_neg hne]
  exact hi

/-- With an empty last slice every name is run by its own process and by the last one. -/
theorem two_le_countP_shares {k : ℕ} {all_bm : List String} (hnodup : all_bm.Nodup) {m : ℕ}
    (hcover : all_bm.length ≤ (m + 1) * k) (hlast : slice k all_bm m = []) {name : String}
    (hname : name ∈ all_bm) : 2 ≤ (shares k all_bm (m + 1)).countP fun s => name ∈ s := by
  have hsplit : shares k all_bm (m + 1) = shares k all_bm m ++ [all_bm] := by
    rw [shares, List.range_succ, List.map_append, List.map_singleton, if_pos hlast]
    rfl
  have hslices := countP_mem_slices hnodup hcover hname
  rw [List.range_succ, List.map_append, List.countP_append, List.map_singleton, hlast] at hslices
  have hown : ((List.range m).map (slice k all_bm)).countP (fun s => name ∈ s) = 1 := by
    simpa using hslices
  have hall : [all_bm].countP (fun s => name ∈ s) = 1 := by simp [hname]
  have hle := countP_slices_le_shares k all_bm m name
  rw [hsplit, List.countP_append]
  omega

/-- Five names for four processes: slices of two, two, one and none. -/
theorem benchmark_runs_twice_with_four_threads :
    let all_bm := ["a*", "b*", "c*", "d*", "e*"]
    Unmatched (fun filter name => filter.toList <:+: name.toList) all_bm ∧
      benchmark all_bm 4 = [["a*", "b*"], ["c*", "d*"], ["e*"], all_bm] ∧ ¬ RunsOnce all_bm 4 := by
  intro all_bm
  refine ⟨by rw [Unmatched]; decide, by decide, fun h => ?_⟩
  have hcount := h "a*" (by decide)
  revert hcount
  decide

/-- CORRECT: every name is run by one process exactly if the slice of the last process is not
    empty. -/
theorem benchmark_runs_once_iff (filterMatches : String → String → Prop)
    (hempty : ∀ name, filterMatches "" name) (hself : ∀ name, filterMatches name name)
    {all_bm : List String} (hne : all_bm ≠ []) (hnone : Unmatched filterMatches all_bm)
    {thread_number : ℕ} (ht : 1 ≤ thread_number) :
    RunsOnce all_bm thread_number ↔
      (thread_number - 1) * ((all_bm.length + thread_number - 1) / thread_number)
        < all_bm.length := by
  have hk := elementsPerThread_pos hne ht
  have hnodup := hnone.nodup hself
  have hcover : all_bm.length ≤ thread_number * elementsPerThread all_bm thread_number :=
    length_le_mul_ceil all_bm.length ht
  change RunsOnce all_bm thread_number ↔
    (thread_number - 1) * elementsPerThread all_bm thread_number < all_bm.length
  rw [RunsOnce, benchmark_eq hempty hnone hne ht]
  generalize elementsPerThread all_bm thread_number = k at hk hcover
  constructor
  · intro h
    by_contra hlast
    obtain ⟨m, rfl⟩ : ∃ m, thread_number = m + 1 := ⟨thread_number - 1, by omega⟩
    have hslice : slice k all_bm m = [] := by
      by_contra hslice
      exact hlast ((slice_ne_nil_iff hk all_bm m).mp hslice)
    obtain ⟨name, hname⟩ := List.exists_mem_of_ne_nil all_bm hne
    have hcount := h name hname
    have htwo := two_le_countP_shares hnodup hcover hslice hname
    omega
  · intro hlast name hname
    rw [shares_eq_slices hk hlast]
    exact countP_mem_slices hnodup hcover hname

/-- Seven names for three processes. -/
theorem benchmark_runs_once_iff_seven_names :
    RunsOnce ["a*", "b*", "c*", "d*", "e*", "f*", "g*"] 3 :=
  (benchmark_runs_once_iff (fun filter name => filter.toList <:+: name.toList)
    (fun _ => List.nil_infix) (fun _ => List.infix_rfl) (by decide) (by rw [Unmatched]; decide)
    (by decide)).mpr (by decide)

end Scripts
end HashingBenchmark
