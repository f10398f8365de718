import HashingBenchmark.Lib.Dict
import HashingBenchmark.Lib.EarliestMin
import Mathlib.Data.List.Sort
import Mathlib.Data.String.Basic

/-! `clean_output.py`: of the measurements of each benchmark the one with the least `cpu_time`.

    After a prefix of the entries the dictionary has the earliest minimum of each name of the prefix,
    which one more entry keeps up (`table_keep`). So the cleaned list is the list of these, sorted by
    name (`mem_cleanOutput_iff`), and everything about it follows from this description. -/

namespace HashingBenchmark
namespace Scripts

/-- A benchmark entry: its name, `float(dp["cpu_time"])` and its other fields. -/
structure Entry (κ δ : Type) where
  name : String
  cpu_time : κ
  rest : δ
  deriving DecidableEq

variable {κ δ : Type} [LinearOrder κ]

/-- The body of the loop over the entries. -/
def keep (methods : Dict String (Entry κ δ)) (new_dp : Entry κ δ) : Dict String (Entry κ δ) :=
  match methods.get? new_dp.name with
  | none => methods.set new_dp.name new_dp
  | some dp => if dp.cpu_time > new_dp.cpu_time then methods.set new_dp.name new_dp else methods

/-- `methods` after the loop. -/
def methods (benchmarks : List (Entry κ δ)) : Dict String (Entry κ δ) :=
  benchmarks.foldl keep Dict.empty

/-- `[methods[m] for m in sorted(methods)]`. -/
def cleanOutput (benchmarks : List (Entry κ δ)) : List (Entry κ δ) :=
  ((methods benchmarks).keys.insertionSort (· ≤ ·)).filterMap (methods benchmarks).get?

/-- An entry that is kept. -/
abbrev Best (benchmarks : List (Entry κ δ)) (e : Entry κ δ) : Prop :=
  EarliestMin Entry.name Entry.cpu_time benchmarks e

/-! ### The loop -/

theorem table_keep {l : List (Entry κ δ)} {d : Dict String (Entry κ δ)}
    (h : EarliestMin.Table Entry.name Entry.cpu_time l d.get?) (new_dp : Entry κ δ) :
    EarliestMin.Table Entry.name Entry.cpu_time (l ++ [new_dp]) (keep d new_dp).get? := by
  have hset : (d.set new_dp.name new_dp).get?
      = fun name => if new_dp.name = name then some new_dp else d.get? name :=
    funext fun name => d.get?_set new_dp.name new_dp name
  rw [keep]
  cases hget : d.get? new_dp.name with
  | none =>
    simp only
    rw [hset]
    refine h.replace fun e he => ?_
    rw [hget] at he
    cases he
  | some dp =>
    simp only
    by_cases hless : dp.cpu_time > new_dp.cpu_time
    · rw [if_pos hless, hset]
      refine h.replace fun e he => ?_
      rw [hget, Option.some_inj] at he
      rw [← he]
      exact hless
    · rw [if_neg hless]
      exact h.leave hget (not_lt.mp hless)

/-- After the loop the dictionary has the best entry of each name. -/
theorem table_methods (benchmarks : List (Entry κ δ)) :
    EarliestMin.Table Entry.name Entry.cpu_time benchmarks (methods benchmarks).get? := by
  induction benchmarks using List.reverseRecOn with
  | nil => exact EarliestMin.Table.nil
  | append_singleton l new_dp ih =>
    rw [methods, List.foldl_append]
    exact table_keep ih new_dp

/-! ### The cleaned list -/

theorem mem_cleanOutput_iff {benchmarks : List (Entry κ δ)} {e : Entry κ δ} :
    e ∈ cleanOutput benchmarks ↔ Best benchmarks e := by
  rw [cleanOutput, List.mem_filterMap]
  constructor
  · rintro ⟨name, -, hget⟩
    exact ((table_methods benchmarks name e).mp hget).1
  · intro he
    have hget := (table_methods benchmarks e.name e).mpr ⟨he, rfl⟩
    refine ⟨e.name, ?_, hget⟩
    rw [List.mem_insertionSort, Dict.mem_keys_iff, hget]
    rfl

/-- The names of the cleaned list are strictly ascending. -/
theorem pairwise_cleanOutput (benchmarks : List (Entry κ δ)) :
    (cleanOutput benchmarks).Pairwise fun a b => a.name < b.name := by
  have hle := List.pairwise_insertionSort (· ≤ ·) (methods benchmarks).keys
  have hne : ((methods benchmarks).keys.insertionSort (· ≤ ·)).Nodup :=
    (List.perm_insertionSort (· ≤ ·) _).nodup_iff.mpr (methods benchmarks).nodup_keys
  have hlt : ((methods benchmarks).keys.insertionSort (· ≤ ·)).Pairwise (· < ·) :=
    hle.imp₂ (fun _ _ hle hne => lt_of_le_of_ne hle hne) hne
  rw [cleanOutput, List.pairwise_filterMap]
  refine hlt.imp fun hnames e he e' he' => ?_
  rw [((table_methods benchmarks _ e).mp he).2, ((table_methods benchmarks _ e').mp he').2]
  exact hnames

/-- The cleaned list of a list with ascending names is the list itself. -/
theorem cleanOutput_of_pairwise {l : List (Entry κ δ)} (h : l.Pairwise fun a b => a.name < b.name) :
    cleanOutput l = l := by
  have hirrefl : Std.Irrefl fun a b : Entry κ δ => a.name < b.name := ⟨fun a => lt_irrefl a.name⟩
  have hanti : Std.Antisymm fun a b : Entry κ δ => a.name < b.name :=
    ⟨fun _ _ hab hba => absurd hba hab.not_gt⟩
  have hnodup : (l.map Entry.name).Nodup := (List.pairwise_map.mpr h).imp ne_of_lt
  refine (pairwise_cleanOutput l).eq_of_mem_iff h fun e => ?_
  rw [mem_cleanOutput_iff]
  exact ⟨EarliestMin.mem, EarliestMin.of_nodup hnodup⟩

/-- The names and times of the cleaned list. -/
theorem mem_map_cleanOutput_iff {benchmarks : List (Entry κ δ)} {p : String × κ} :
    p ∈ (cleanOutput benchmarks).map (fun e => (e.name, e.cpu_time)) ↔
      (∃ d ∈ benchmarks, d.name = p.1 ∧ d.cpu_time = p.2) ∧
        ∀ d ∈ benchmarks, d.name = p.1 → p.2 ≤ d.cpu_time := by
  rw [← EarliestMin.exists_iff_le, List.mem_map]
  simp only [mem_cleanOutput_iff, Prod.ext_iff]

/-- CORRECT: one entry for each name, in ascending order; each is the earliest of least `cpu_time`
    among those of its name; their names and times do not depend on the order of the input; and
    cleaning again changes nothing. -/
theorem clean_output_keeps_best (benchmarks : List (Entry κ δ)) :
    (cleanOutput benchmarks).Pairwise (fun a b => a.name < b.name) ∧
    (∀ name, name ∈ (cleanOutput benchmarks).map Entry.name ↔ name ∈ benchmarks.map Entry.name) ∧
    (∀ e ∈ cleanOutput benchmarks, ∃ before after, benchmarks = before ++ e :: after ∧
      (∀ d ∈ before, d.name = e.name → e.cpu_time < d.cpu_time) ∧
      ∀ d ∈ after, d.name = e.name → e.cpu_time ≤ d.cpu_time) ∧
    (∀ benchmarks', benchmarks.Perm benchmarks' → ∀ p,
      p ∈ (cleanOutput benchmarks).map (fun e => (e.name, e.cpu_time)) ↔
        p ∈ (cleanOutput benchmarks').map (fun e => (e.name, e.cpu_time))) ∧
    cleanOutput (cleanOutput benchmarks) = cleanOutput benchmarks := by
  refine ⟨pairwise_cleanOutput benchmarks, fun name => ?_, fun e he => mem_cleanOutput_iff.mp he,
    fun benchmarks' hperm p => ?_, cleanOutput_of_pairwise (pairwise_cleanOutput benchmarks)⟩
  · rw [List.mem_map, List.mem_map]
    constructor
    · rintro ⟨e, he, rfl⟩
      exact ⟨e, (mem_cleanOutput_iff.mp he).mem, rfl⟩
    · rintro ⟨d, hd, rfl⟩
      obtain ⟨e, he, hname⟩ : ∃ e, Best benchmarks e ∧ e.name = d.name :=
        EarliestMin.exists_of_mem hd
      exact ⟨e, mem_cleanOutput_iff.mpr he, hname⟩
  · rw [mem_map_cleanOutput_iff, mem_map_cleanOutput_iff]
    simp only [hperm.mem_iff]

/-- Of two equal times the earlier entry stays. -/
example : cleanOutput [Entry.mk "b" 3 0, Entry.mk "a" 2 1, Entry.mk "b" 1 2, Entry.mk "a" 2 3]
    = [Entry.mk "a" 2 1, Entry.mk "b" 1 2] := by decide

end Scripts
end HashingBenchmark
