import HashingBenchmark.Join.Generate
import HashingBenchmark.Join.IoCorrect
import HashingBenchmark.Lib.SuffixCode

/-! The relations of `main` from one run to the next.

    A run that creates the relations on the fly fills R and S with `create_eth_workload_relation_pk`
    and, with `PERSIST_RELATIONS_FOR_EVALUATION`, writes the partitions of R, all of R, the same for
    S and the partitions of a sorted copy of R. A run with `LOAD_RELATIONS_FOR_EVALUATION` reads the
    partitions of R and S back. Between the two are other writes to the same directory, so a relation
    comes back as long as nothing that is written later has the name of one of its partitions
    (`Apart`). -/

namespace HashingBenchmark
namespace Join
open SuffixCode (append_cons_inj)

/-- The configuration of one relation: `RELATION_R_PATH`, what the names of the partitions are made
    from, `RELATION_R_FILE_NUM_PARTITIONS` and `RELATION_R_NUM_TUPLES`. -/
structure RelationConfig where
  path : String
  partitions : Path
  file_num_partitions : ℕ
  num_tuples : ℕ

/-- What a function that writes or reads a relation gets from outside: memory, and the order in
    which its threads get through. -/
structure Environment where
  alloc_aligned : ℕ → Option (List Tuple)
  schedule : List WriteReadArg

/-- `sorted_r_file_name`. -/
def Path.sorted (path : Path) : Path := { path with filename := path.filename ++ "_sorted" }

section Names
variable {folder ext : String} {r s : String} {i j : ℕ}

end Names

end Join
end HashingBenchmark
