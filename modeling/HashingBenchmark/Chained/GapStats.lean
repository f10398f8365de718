import HashingBenchmark.Chained.Correct
import HashingBenchmark.Chained.RangeCorrect
import HashingBenchmark.Chained.Rising
import HashingBenchmark.Probe.Statistics
import Mathlib.Data.Rat.Floor

/-! `gap_stats` of `chained_model.hpp`.

    The function collects the predictions of all stored keys, counts the gaps between neighbours in a
    map, and counts in `vec_map_count`, a vector with an entry for each key, how many predictions
    scale to each entry. Predictions are exact rationals here.

    The bound `cdf_prediction.size()-1` wraps around for a table without keys. The clamp of the scaled
    prediction lets the number of keys itself pass, which is one past the end and what a prediction
    of exactly 1 scales to. The loop counters are `int`s. -/

namespace HashingBenchmark
open SlotArray Chained support ChainedTable
open ProbeTable (intMax IntMap setZero addOne)

namespace KapilChainedModelHashTable
variable {Key Payload : Type} [DecidableEq Key] {BucketSize m : ℕ}

/-- The stored keys, chain by chain. -/
def storedKeys (Sentinel : Key) (t : KapilChainedModelHashTable Key Payload BucketSize m) :
    List Key :=
  (List.range m).flatMap fun i => ((t.contents Sentinel i).toOption.getD []).map Prod.fst

/-! ### The walk over the directory -/

section Walk
variable [Inhabited Payload] {Sentinel : Key} {sizeofBucket : ℕ}
  {t : KapilChainedModelHashTable Key Payload BucketSize m}

end Walk

/-! ### Loops over vectors -/

section Loop
variable {α β : Type} {body : α → β → Option β} {v : List α} {i : ℕ} {s : β}

end Loop

section Count
variable {key_vec_size : ℕ} {prediction : ℚ} {vec_map_count : List ℕ}

variable {v : List ℚ}

end Count

/-! ### All loops -/

section Stats
variable {Sentinel : Key} {double_prediction : Key → ℚ}
  {t : KapilChainedModelHashTable Key Payload BucketSize m} {keys : List Key}

end Stats

end KapilChainedModelHashTable
end HashingBenchmark
