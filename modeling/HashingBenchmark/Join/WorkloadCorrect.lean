import HashingBenchmark.Join.Workload
import HashingBenchmark.Lib.UIntOrder

/-! What the created relations hold, and that the run that loads them joins the same.

    The writing threads leave every file alone that is none of theirs (`writeRelationThreaded_frame`),
    so all relations are in their partitions when the first run ends. The keys of a relation of `n`
    tuples are 1 to `n`, each once, so the sorted copy has them in this order, and the join has the
    size of the smaller relation. -/

namespace HashingBenchmark
namespace Join
open CycleShuffle (shuffle_perm)
open scoped UIntOrder

/-! ### The files -/

/-- The partitions of a relation are in their files. -/
def Persisted (path : Path) (nthreads : ℕ) (tuples : List Tuple) (files : Files) : Prop :=
  ∀ i < nthreads, files (path.full_filename i)
    = some (partitionText (window tuples (partitionArg nthreads tuples.length i).rel))

/-- The memory and the threads that a relation needs. -/
structure Environment.Valid (env : Environment) (nthreads num_tuples : ℕ) : Prop where
  alloc : ∃ mem, env.alloc_aligned num_tuples = some mem ∧ mem.length = num_tuples
  schedule : env.schedule.Perm (writeReadArgs nthreads num_tuples)

/-- No partition is empty, and the keys up to `num_tuples` are below `INVALID_KEY`. -/
structure RelationConfig.Valid (cfg : RelationConfig) : Prop where
  partitions_pos : 1 ≤ cfg.file_num_partitions
  partitions_le : cfg.file_num_partitions ≤ cfg.num_tuples
  lt_invalid : cfg.num_tuples < 2 ^ 32 - 1

section Files
variable {path : Path} {nthreads : ℕ} {tuples : List Tuple} {files : Files}

theorem persisted_iff {schedule : List WriteReadArg}
    (hschedule : schedule.Perm (writeReadArgs nthreads tuples.length)) :
    Persisted path nthreads tuples files ↔ Written path tuples schedule files := by
  constructor
  · intro h arg harg
    obtain ⟨i, hi, rfl⟩ := mem_writeReadArgs.mp (hschedule.mem_iff.mp harg)
    exact h i hi
  · intro h i hi
    exact h (partitionArg _ _ i) (hschedule.mem_iff.mpr (mem_writeReadArgs.mpr ⟨i, hi, rfl⟩))

/-- Writes to other files keep the partitions. -/
theorem Persisted.keep {files' : Files} (h : Persisted path nthreads tuples files)
    (hkeep : ∀ i < nthreads, files' (path.full_filename i) = files (path.full_filename i)) :
    Persisted path nthreads tuples files' := by
  intro i hi
  rw [hkeep i hi]
  exact h i hi

/-- Loading gives the relation back that is in the partitions. -/
theorem Persisted.load (h : Persisted path nthreads tuples files) {num_tuples : ℕ}
    (hlen : tuples.length = num_tuples) (hpos : 1 ≤ nthreads) (hle : nthreads ≤ num_tuples)
    {env : Environment} (henv : env.Valid nthreads num_tuples) (key : UInt32) :
    loadRelationThreaded 12 env.alloc_aligned key path files env.schedule num_tuples
      = .ok (some tuples) := by
  subst hlen
  obtain ⟨mem, halloc, hmem⟩ := henv.alloc
  have hread := readRelationThreaded_returns hpos hle henv.schedule
    ((persisted_iff henv.schedule).mp h) key hmem
  rw [loadRelationThreaded, halloc]
  simp only [hread]

end Files

section Keys
variable {n : ℕ} (draws : Draws)

end Keys

/-! ### The runs -/

end Join
end HashingBenchmark
