import Mathlib.Data.Nat.Notation

/-! The datasets and the probing distributions, with the names that the benchmarks print. -/

namespace HashingBenchmark
namespace Fixture

/-- `dataset::ID`. -/
inductive ID where
  | SEQUENTIAL | GAPPED_10 | UNIFORM | FB | OSM | WIKI | NORMAL
  | Variance_2 | Variance_4 | Variance_half | Variance_quarter
  deriving DecidableEq

/-- `dataset::name(ID)`. -/
def ID.name : ID → String
  | .SEQUENTIAL => "seq"
  | .GAPPED_10 => "gap_10"
  | .UNIFORM => "uniform"
  | .NORMAL => "normal"
  | .FB => "fb"
  | .OSM => "osm"
  | .WIKI => "wiki"
  | .Variance_2 => "Variance_2"
  | .Variance_4 => "Variance_4"
  | .Variance_half => "Variance_half"
  | .Variance_quarter => "Variance_quarter"

/-- `dataset::ProbingDistribution`. -/
inductive ProbingDistribution where
  | UNIFORM | EXPONENTIAL_SORTED | EXPONENTIAL_RANDOM
  deriving DecidableEq

/-- `dataset::name(ProbingDistribution)`. -/
def ProbingDistribution.name : ProbingDistribution → String
  | .UNIFORM => "uniform"
  | .EXPONENTIAL_SORTED => "exponential_sorted"
  | .EXPONENTIAL_RANDOM => "exponential_random"

end Fixture
end HashingBenchmark
