import HashingBenchmark.Lib.Runs
import HashingBenchmark.Lib.UIntOrder
import HashingBenchmark.Support.Table
import Mathlib.Data.List.Sort

/-! The touch-up pass of the model-based build, over the gapped array
    `reinserted_rel_r_keys_vec`, where 0 marks a gap.

    The pass goes over the pairs of neighbours. It collects the keys of a run in `keys_vec` and writes
    them back in order when it sees the gap after the run, so its result is the runs flushed one by
    one, and the last run as it was (`touchUp_eq`). The induction is over the entries still to come;
    the invariant is `Collecting`. -/

namespace HashingBenchmark
namespace Gapped
open Runs
open scoped UIntOrder

/-! ### The pass -/

/-- The local variables of the pass. -/
structure RunCollector where
  reinserted_rel_r_keys_vec : List UInt32
  prev_key : UInt32
  curr_key : UInt32
  keys_vec : List UInt32
  curr_start : ℕ

/-- The loop that writes the keys to the slots from `start` on. -/
def writeBack : List UInt32 → ℕ → List UInt32 → Except Fault (List UInt32)
  | [], _, vec => .ok vec
  | key :: keys, start, vec =>
    if start < vec.length then writeBack keys (start + 1) (vec.set start key)
    else .error .outOfBounds

namespace RunCollector

/-- `std::sort` of `keys_vec`, and the write back. -/
def flush (s : RunCollector) : Except Fault RunCollector :=
  let keys := s.keys_vec.insertionSort (· ≤ ·)
  match writeBack keys s.curr_start s.reinserted_rel_r_keys_vec with
  | .error fault => .error fault
  | .ok vec => .ok { s with reinserted_rel_r_keys_vec := vec, keys_vec := keys }

/-- The body of the loop up to the update of `prev_key`. -/
def collect (k : ℕ) (s : RunCollector) : Except Fault RunCollector :=
  if s.prev_key = 0 ∧ 0 < s.curr_key then
    .ok { s with keys_vec := [s.curr_key], curr_start := k }
  else if 0 < s.prev_key ∧ s.curr_key = 0 then s.flush
  else if 1 < s.prev_key ∧ 1 < s.curr_key then
    .ok { s with keys_vec := s.keys_vec ++ [s.curr_key] }
  else .ok s

/-- The body of the loop; the last iteration leaves `prev_key` alone. -/
def step (k : ℕ) (s : RunCollector) : Except Fault RunCollector :=
  match s.reinserted_rel_r_keys_vec[k]? with
  | none => .error .outOfBounds
  | some curr_key =>
    match collect k { s with curr_key := curr_key } with
    | .error fault => .error fault
    | .ok s' =>
      if k < s'.reinserted_rel_r_keys_vec.length - 1 then
        .ok { s' with prev_key := s'.curr_key }
      else .ok s'

/-- `n` iterations of the loop, from `k` on. -/
def loop : ℕ → ℕ → RunCollector → Except Fault RunCollector
  | 0, _, s => .ok s
  | n + 1, k, s =>
    match step k s with
    | .error fault => .error fault
    | .ok s' => loop n (k + 1) s'

/-- The flush after the loop. -/
def finish (s : RunCollector) : Except Fault (List UInt32) :=
  if (s.prev_key = 0 ∧ 0 < s.curr_key) ∨ (0 < s.prev_key ∧ s.curr_key = 0) then
    match s.flush with
    | .error fault => .error fault
    | .ok s' => .ok s'.reinserted_rel_r_keys_vec
  else .ok s.reinserted_rel_r_keys_vec

end RunCollector

/-- The run-sorting pass of `main`. `curr_key` is not initialised before the loop. -/
def touchUp (uninitialised : UInt32) (vec : List UInt32) : Except Fault (List UInt32) :=
  match vec[0]? with
  | none => .error .outOfBounds
  | some prev_key =>
    match RunCollector.loop (vec.length - 1) 1
        ⟨vec, prev_key, uninitialised, if 0 < prev_key then [prev_key] else [], 0⟩ with
    | .error fault => .error fault
    | .ok s => s.finish

/-! ### What the pass does to a run -/

/-- The keys collected after `prev_key`, for the keys of a run that come after it. -/
def collectedAfter : UInt32 → List UInt32 → List UInt32
  | _, [] => []
  | prev_key, key :: keys =>
    (if 1 < prev_key ∧ 1 < key then [key] else []) ++ collectedAfter key keys

/-- What `keys_vec` holds at the end of a run. -/
def collected : List UInt32 → List UInt32
  | [] => []
  | key :: keys => key :: collectedAfter key keys

/-- A run after its flush: the collected keys in order, and what was behind them before. -/
def flushed (run : List UInt32) : List UInt32 :=
  (collected run).insertionSort (· ≤ ·) ++ run.drop (collected run).length

theorem collectedAfter_append_singleton (x key : UInt32) (keys : List UInt32) :
    collectedAfter x (keys ++ [key]) = collectedAfter x keys ++
      if 1 < (x :: keys).getLastD 0 ∧ 1 < key then [key] else [] := by
  induction keys generalizing x with
  | nil => simp [collectedAfter]
  | cons y keys ih => simp [collectedAfter, ih]

theorem collected_append_singleton {run : List UInt32} (hrun : run ≠ []) (key : UInt32) :
    collected (run ++ [key])
      = collected run ++ if 1 < run.getLastD 0 ∧ 1 < key then [key] else [] := by
  cases run with
  | nil => exact absurd rfl hrun
  | cons x keys => simp [collected, collectedAfter_append_singleton]

theorem length_collected_le (run : List UInt32) : (collected run).length ≤ run.length := by
  have hafter : ∀ (keys : List UInt32) x, (collectedAfter x keys).length ≤ keys.length := by
    intro keys
    induction keys with
    | nil => intro x; exact Nat.le_refl 0
    | cons y keys ih =>
      intro x
      have hle := ih y
      rw [collectedAfter, List.length_append, List.length_cons]
      split_ifs <;> simp <;> omega
  cases run with
  | nil => exact Nat.le_refl 0
  | cons x keys => simpa [collected] using hafter keys x

@[simp] theorem length_flushed (run : List UInt32) : (flushed run).length = run.length := by
  have hle := length_collected_le run
  simp [flushed, (List.perm_insertionSort _ _).length_eq]
  omega

/-- The write back puts the keys over the slots from `start` on. -/
theorem writeBack_eq {keys old : List UInt32} (hlen : keys.length ≤ old.length)
    (before rest : List UInt32) : writeBack keys before.length (before ++ old ++ rest)
      = .ok (before ++ (keys ++ old.drop keys.length) ++ rest) := by
  induction keys generalizing before old with
  | nil => simp [writeBack]
  | cons key keys ih =>
    cases old with
    | nil => simp at hlen
    | cons x old =>
      have hset : (before ++ x :: old ++ rest).set before.length key
          = (before ++ [key]) ++ old ++ rest := by simp
      have hstep := ih (Nat.le_of_succ_le_succ hlen) (before ++ [key])
      rw [List.length_append, List.length_singleton] at hstep
      rw [writeBack, if_pos (by simp), hset, hstep]
      simp

/-- The flush writes a collected run back. -/
theorem RunCollector.flush_eq {s : RunCollector} {before run rest : List UInt32}
    (hvec : s.reinserted_rel_r_keys_vec = before ++ run ++ rest)
    (hstart : s.curr_start = before.length) (hkeys : s.keys_vec = collected run) :
    s.flush = .ok { s with
      reinserted_rel_r_keys_vec := before ++ flushed run ++ rest
      keys_vec := (collected run).insertionSort (· ≤ ·) } := by
  have hlen : ((collected run).insertionSort (· ≤ ·)).length ≤ run.length := by
    rw [(List.perm_insertionSort _ _).length_eq]; exact length_collected_le run
  have hwrite := writeBack_eq hlen before rest
  rw [RunCollector.flush, hkeys, hstart, hvec]
  simp only [hwrite]
  rw [flushed, (List.perm_insertionSort _ _).length_eq]

/-! ### The invariant of the pass -/

/-- The pass has seen the closed runs `runs` and then `run`, the entries `todo` are still to come. -/
structure Collecting (runs : List (List UInt32)) (run todo : List UInt32) (s : RunCollector) :
    Prop where
  vec : s.reinserted_rel_r_keys_vec = closed 0 (runs.map flushed) ++ run ++ todo
  notMem : ∀ r ∈ runs, (0 : UInt32) ∉ r
  notMem_run : (0 : UInt32) ∉ run
  prev_key : s.prev_key = run.getLastD 0
  curr_start : run ≠ [] → s.curr_start = (closed 0 runs).length
  keys_vec : run ≠ [] → s.keys_vec = collected run

namespace Collecting
variable {runs : List (List UInt32)} {run todo : List UInt32} {s : RunCollector}

theorem prev_key_eq_zero_iff (h : Collecting runs run todo s) : s.prev_key = 0 ↔ run = [] := by
  rw [h.prev_key]
  cases run using List.reverseRecOn with
  | nil => simp
  | append_singleton l x _ =>
    have hx : x ≠ 0 := fun hx => h.notMem_run (by simp [hx])
    simp [hx]

theorem start_eq (h : Collecting runs run todo s) (hrun : run ≠ []) :
    s.curr_start = (closed 0 (runs.map flushed)).length := by
  rw [h.curr_start hrun, length_closed_map length_flushed]

/-- A second flush changes nothing. -/
theorem flush_flush (h : Collecting runs run todo s) (hrun : run ≠ []) {s' : RunCollector}
    (hs : s.flush = .ok s') : s'.flush = .ok s' := by
  rw [RunCollector.flush_eq h.vec (h.start_eq hrun) (h.keys_vec hrun), Except.ok.injEq] at hs
  subst hs
  have hsort : ((collected run).insertionSort (· ≤ ·)).insertionSort (· ≤ ·)
      = (collected run).insertionSort (· ≤ ·) :=
    (List.pairwise_insertionSort (· ≤ ·) (collected run)).insertionSort_eq
  have hlen : ((collected run).insertionSort (· ≤ ·)).length ≤ (flushed run).length := by
    rw [flushed, List.length_append]; exact Nat.le_add_right _ _
  have hwrite := writeBack_eq hlen (closed 0 (runs.map flushed)) todo
  have hdrop : (collected run).insertionSort (· ≤ ·) ++
      (flushed run).drop ((collected run).insertionSort (· ≤ ·)).length = flushed run := by
    rw [flushed, List.drop_left]
  rw [hdrop] at hwrite
  rw [RunCollector.flush]
  simp only [hsort, h.start_eq hrun, hwrite]

/-- An entry that is not a gap is added to the run. -/
theorem collect_key {key : UInt32} (h : Collecting runs run (key :: todo) s) (hkey : key ≠ 0) :
    ∃ s', RunCollector.collect (closed 0 runs ++ run).length { s with curr_key := key } = .ok s' ∧
      s'.prev_key = s.prev_key ∧ s'.curr_key = key ∧
      Collecting runs (run ++ [key]) todo { s' with prev_key := key } := by
  have hpos : 0 < key := UInt32.pos_iff_ne_zero.mpr hkey
  have hvec : s.reinserted_rel_r_keys_vec
      = closed 0 (runs.map flushed) ++ (run ++ [key]) ++ todo := by rw [h.vec]; simp
  have hmem : (0 : UInt32) ∉ run ++ [key] := by
    simp only [List.mem_append, List.mem_singleton, not_or]
    exact ⟨h.notMem_run, hkey.symm⟩
  by_cases hrun : run = []
  · have hprev := h.prev_key_eq_zero_iff.mpr hrun
    rw [RunCollector.collect, if_pos ⟨hprev, hpos⟩]
    refine ⟨_, rfl, rfl, rfl, hvec, h.notMem, hmem, by simp, ?_, ?_⟩
    · intro _; simp [hrun]
    · intro _; simp [hrun, collected, collectedAfter]
  · have hprev : ¬ (s.prev_key = 0 ∧ 0 < key) := fun hand =>
      hrun (h.prev_key_eq_zero_iff.mp hand.1)
    have hgap : ¬ (0 < s.prev_key ∧ key = 0) := fun hand => hkey hand.2
    have hkeys := collected_append_singleton hrun key
    rw [← h.prev_key, ← h.keys_vec hrun] at hkeys
    rw [RunCollector.collect, if_neg hprev, if_neg hgap]
    split_ifs with hone
    · refine ⟨_, rfl, rfl, rfl, hvec, h.notMem, hmem, by simp, ?_, ?_⟩
      · intro _; exact h.curr_start hrun
      · intro _; rw [hkeys, if_pos hone]
    · refine ⟨_, rfl, rfl, rfl, hvec, h.notMem, hmem, by simp, ?_, ?_⟩
      · intro _; exact h.curr_start hrun
      · intro _; rw [hkeys, if_neg hone, List.append_nil]

/-- A gap closes the run, and a run that is not empty is flushed. -/
theorem collect_gap (h : Collecting runs run (0 :: todo) s) :
    ∃ s', RunCollector.collect (closed 0 runs ++ run).length { s with curr_key := 0 } = .ok s' ∧
      s'.prev_key = s.prev_key ∧ s'.curr_key = 0 ∧
      Collecting (runs ++ [run]) [] todo { s' with prev_key := 0 } ∧
      (run ≠ [] → s'.flush = .ok s') := by
  have hnone : ¬ (s.prev_key = 0 ∧ (0 : UInt32) < 0) := fun hand => absurd hand.2 (by decide)
  have hmem : ∀ r ∈ runs ++ [run], (0 : UInt32) ∉ r := by
    intro r hr
    rcases List.mem_append.mp hr with hr | hr
    · exact h.notMem r hr
    · rw [List.mem_singleton.mp hr]; exact h.notMem_run
  by_cases hrun : run = []
  · subst hrun
    have hprev := h.prev_key_eq_zero_iff.mpr rfl
    have hvec : s.reinserted_rel_r_keys_vec
        = closed 0 ((runs ++ [[]]).map flushed) ++ [] ++ todo := by
      rw [h.vec]; simp [flushed, collected]
    rw [RunCollector.collect, if_neg hnone, if_neg (by simp [hprev]), if_neg (by simp [hprev])]
    refine ⟨_, rfl, rfl, rfl, ⟨hvec, hmem, by simp, by simp, ?_, ?_⟩, ?_⟩
    all_goals intro hne; exact absurd rfl hne
  · have hprev : 0 < s.prev_key :=
      UInt32.pos_iff_ne_zero.mpr fun heq => hrun (h.prev_key_eq_zero_iff.mp heq)
    have hcurr : Collecting runs run (0 :: todo) { s with curr_key := 0 } :=
      ⟨h.vec, h.notMem, h.notMem_run, h.prev_key, h.curr_start, h.keys_vec⟩
    have hflush := RunCollector.flush_eq hcurr.vec (hcurr.start_eq hrun) (hcurr.keys_vec hrun)
    rw [RunCollector.collect, if_neg hnone, if_pos ⟨hprev, rfl⟩, hflush]
    refine ⟨_, rfl, rfl, rfl, ⟨by simp, hmem, by simp, by simp, ?_, ?_⟩, ?_⟩
    · intro hne; exact absurd rfl hne
    · intro hne; exact absurd rfl hne
    · intro _; exact hcurr.flush_flush hrun hflush

/-- The length of the array, as the last iteration sees it. -/
theorem length_vec (h : Collecting runs run todo s) : s.reinserted_rel_r_keys_vec.length
    = (closed 0 runs ++ run).length + todo.length := by
  rw [h.vec, List.length_append, List.length_append, length_closed_map length_flushed,
    List.length_append]

/-- The last iteration and the flush after it: only a run of a single key is flushed there. -/
theorem finish_eq {key : UInt32} (h : Collecting runs run [key] s) :
    ∃ s' runs' last, RunCollector.step (closed 0 runs ++ run).length s = .ok s' ∧
      s'.finish = .ok (closed 0 (runs'.map flushed) ++ last) ∧
      closed 0 runs' ++ last = closed 0 runs ++ run ++ [key] ∧
      (∀ r ∈ runs', (0 : UInt32) ∉ r) ∧ (0 : UInt32) ∉ last := by
  have hread : s.reinserted_rel_r_keys_vec[(closed 0 runs ++ run).length]? = some key := by
    rw [h.vec, List.length_append, ← length_closed_map length_flushed, ← List.length_append]
    simp
  by_cases hkey : key = 0
  · subst hkey
    obtain ⟨s', hcollect, hprev, hcurr, h', hflush⟩ := h.collect_gap
    have hlen : ¬ (closed 0 runs ++ run).length < s'.reinserted_rel_r_keys_vec.length - 1 := by
      have hvec := h'.length_vec
      simp at hvec ⊢
      omega
    have hvec : s'.reinserted_rel_r_keys_vec = closed 0 ((runs ++ [run]).map flushed) ++ [] := by
      simpa using h'.vec
    refine ⟨s', runs ++ [run], [], ?_, ?_, by simp, h'.notMem, by simp⟩
    · rw [RunCollector.step, hread]
      simp only [hcollect, if_neg hlen]
    · by_cases hrun : run = []
      · have hzero : s'.prev_key = 0 := by rw [hprev]; exact h.prev_key_eq_zero_iff.mpr hrun
        rw [RunCollector.finish, if_neg (by simp [hzero, hcurr]), hvec]
      · have hpos : 0 < s'.prev_key := by
          rw [hprev]
          exact UInt32.pos_iff_ne_zero.mpr fun heq => hrun (h.prev_key_eq_zero_iff.mp heq)
        rw [RunCollector.finish, if_pos (.inr ⟨hpos, hcurr⟩), hflush hrun]
        simp only [hvec]
  · obtain ⟨s', hcollect, hprev, hcurr, h'⟩ := h.collect_key hkey
    have hlen : ¬ (closed 0 runs ++ run).length < s'.reinserted_rel_r_keys_vec.length - 1 := by
      have hvec := h'.length_vec
      simp at hvec ⊢
      omega
    have hvec : s'.reinserted_rel_r_keys_vec
        = closed 0 (runs.map flushed) ++ (run ++ [key]) := by simpa using h'.vec
    refine ⟨s', runs, run ++ [key], ?_, ?_, by simp, h'.notMem, h'.notMem_run⟩
    · rw [RunCollector.step, hread]
      simp only [hcollect, if_neg hlen]
    · by_cases hrun : run = []
      · have hzero : s'.prev_key = 0 := by rw [hprev]; exact h.prev_key_eq_zero_iff.mpr hrun
        have hpos : 0 < s'.curr_key := by rw [hcurr]; exact UInt32.pos_iff_ne_zero.mpr hkey
        have hne : run ++ [key] ≠ [] :=
          List.append_ne_nil_of_right_ne_nil run (List.cons_ne_nil key [])
        have hsingle : flushed (run ++ [key]) = run ++ [key] := by
          subst hrun
          simp [flushed, collected, collectedAfter]
        have hflush := RunCollector.flush_eq (s := s') h'.vec (h'.start_eq hne) (h'.keys_vec hne)
        rw [RunCollector.finish, if_pos (.inl ⟨hzero, hpos⟩), hflush]
        simp [hsingle]
      · have hne : s'.prev_key ≠ 0 := by
          rw [hprev]; exact fun heq => hrun (h.prev_key_eq_zero_iff.mp heq)
        rw [RunCollector.finish, if_neg (by simp [hne, hcurr, hkey]), hvec]

/-- One iteration before the last. -/
theorem step_eq {key next : UInt32} (h : Collecting runs run (key :: next :: todo) s) :
    ∃ s' runs' run', RunCollector.step (closed 0 runs ++ run).length s = .ok s' ∧
      Collecting runs' run' (next :: todo) s' ∧
      closed 0 runs' ++ run' = closed 0 runs ++ run ++ [key] := by
  have hread : s.reinserted_rel_r_keys_vec[(closed 0 runs ++ run).length]? = some key := by
    rw [h.vec, List.length_append, ← length_closed_map length_flushed, ← List.length_append]
    simp
  have hlen : ∀ {runs' run'} {s' : RunCollector}, Collecting runs' run' (next :: todo) s' →
      closed 0 runs' ++ run' = closed 0 runs ++ run ++ [key] →
      (closed 0 runs ++ run).length < s'.reinserted_rel_r_keys_vec.length - 1 := by
    intro runs' run' s' h' heq
    have hvec := h'.length_vec
    rw [heq] at hvec
    simp at hvec ⊢
    omega
  by_cases hkey : key = 0
  · subst hkey
    obtain ⟨s', hcollect, -, hcurr, h', -⟩ := h.collect_gap
    refine ⟨{ s' with prev_key := 0 }, runs ++ [run], [], ?_, h', by simp⟩
    rw [RunCollector.step, hread]
    simp only [hcollect, hcurr]
    exact if_pos (hlen h' (by simp))
  · obtain ⟨s', hcollect, -, hcurr, h'⟩ := h.collect_key hkey
    refine ⟨{ s' with prev_key := key }, runs, run ++ [key], ?_, h', by simp⟩
    rw [RunCollector.step, hread]
    simp only [hcollect, hcurr]
    exact if_pos (hlen h' (by simp))

/-- The loop over the entries to come, and the flush after it. -/
theorem loop_eq (h : Collecting runs run todo s) (htodo : todo ≠ []) :
    ∃ s' runs' last, RunCollector.loop todo.length (closed 0 runs ++ run).length s = .ok s' ∧
      s'.finish = .ok (closed 0 (runs'.map flushed) ++ last) ∧
      closed 0 runs' ++ last = closed 0 runs ++ run ++ todo ∧
      (∀ r ∈ runs', (0 : UInt32) ∉ r) ∧ (0 : UInt32) ∉ last := by
  induction todo generalizing runs run s with
  | nil => exact absurd rfl htodo
  | cons key todo ih =>
    cases todo with
    | nil =>
      obtain ⟨s', runs', last, hstep, hfinish, hall⟩ := h.finish_eq
      refine ⟨s', runs', last, ?_, hfinish, hall⟩
      rw [List.length_singleton, RunCollector.loop, hstep]
      rfl
    | cons next todo =>
      obtain ⟨s₁, runs₁, run₁, hstep, h₁, heq₁⟩ := h.step_eq
      obtain ⟨s', runs', last, hloop, hfinish, heq, hall⟩ := ih h₁ (List.cons_ne_nil next todo)
      have hk : (closed 0 runs₁ ++ run₁).length = (closed 0 runs ++ run).length + 1 := by
        rw [heq₁, List.length_append, List.length_singleton]
      refine ⟨s', runs', last, ?_, hfinish, by rw [heq, heq₁]; simp, hall⟩
      rw [List.length_cons, RunCollector.loop, hstep]
      simp only
      rw [← hk, hloop]

end Collecting

/-- The pass flushes every run that a gap ends, and leaves the last one as it is. -/
theorem touchUp_eq (uninitialised : UInt32) {vec : List UInt32} (hlen : 2 ≤ vec.length) :
    ∃ runs last, touchUp uninitialised vec = .ok (closed 0 (runs.map flushed) ++ last) ∧
      vec = closed 0 runs ++ last ∧ (∀ r ∈ runs, (0 : UInt32) ∉ r) ∧ (0 : UInt32) ∉ last := by
  rcases vec with _ | ⟨key, _ | ⟨next, todo⟩⟩
  · simp at hlen
  · simp at hlen
  -- the first entry is a closed empty run, or starts a run
  have hinit : ∃ runs run, closed 0 runs ++ run = [key] ∧ Collecting runs run (next :: todo)
      ⟨key :: next :: todo, key, uninitialised, if 0 < key then [key] else [], 0⟩ := by
    by_cases hkey : key = 0
    · refine ⟨[[]], [], by simp [hkey], ?_⟩
      exact ⟨by simp [hkey, flushed, collected], by simp, by simp, by simp [hkey],
        by simp, by simp⟩
    · refine ⟨[], [key], by simp, ?_⟩
      exact ⟨by simp, by simp, by simpa using Ne.symm hkey, by simp, by simp,
        by simp [UInt32.pos_iff_ne_zero, hkey, collected, collectedAfter]⟩
  obtain ⟨runs, run, hseen, h⟩ := hinit
  obtain ⟨s', runs', last, hloop, hfinish, heq, hmem, hlast⟩ := h.loop_eq (List.cons_ne_nil _ _)
  rw [hseen] at hloop heq
  refine ⟨runs', last, ?_, heq.symm, hmem, hlast⟩
  have hloop' : RunCollector.loop ((key :: next :: todo).length - 1) 1
      ⟨key :: next :: todo, key, uninitialised, if 0 < key then [key] else [], 0⟩ = .ok s' := hloop
  rw [touchUp, List.getElem?_cons_zero]
  simp only [hloop', hfinish]

end Gapped
end HashingBenchmark
