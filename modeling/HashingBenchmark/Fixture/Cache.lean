import HashingBenchmark.Dataset.ProbingSet
import Mathlib.Data.Stream.Defs

/-! The fixture cache of `template_tables.hpp`: `previous_signature`, `probing_set` and `prev_table`,
    and the benchmark functions that share it.

    A benchmark function derives a signature from its template arguments and its arguments and does
    its setup only if that is not the previous signature. `load_cached` returns what it returns
    during a call, possibly nothing; a call that gets an empty dataset returns early, after it has
    overwritten the probing set. A setup that draws its probes from an empty interval has no defined
    outcome, and no call behind it is looked at.

    A probing set is a vector together with the call of `generate_probing_set` that returned it, and
    a table is described by its type and the pairs it was built from. `Ty` are the table types, and
    `typeidName` is the name that `typeid` gives to a type. -/

namespace HashingBenchmark
namespace Fixture

/-- A vector that `generate_probing_set` has returned, with what the call drew and its arguments. -/
structure Generated where
  rng : dataset.Rng
  keys : List UInt64
  distribution : ProbingDistribution
  succ_probability : ℤ
  probes : List UInt64
  returned : dataset.generateProbingSet rng keys distribution succ_probability = .ok probes

/-- A call of `generate_probing_set`. -/
def Generated.call (rng : dataset.Rng) (keys : List UInt64) (distribution : ProbingDistribution)
    (succ_probability : ℤ) : Except dataset.ProbingFault Generated :=
  match returned : dataset.generateProbingSet rng keys distribution succ_probability with
  | .ok probes => .ok ⟨rng, keys, distribution, succ_probability, probes, returned⟩
  | .error fault => .error fault

/-- `probing_set.size()`; `none` is the vector that nothing has been assigned to. -/
def probingSetSize : Option Generated → ℕ
  | none => 0
  | some g => g.probes.length

/-- A table object: its type and the pairs its constructor got. -/
structure TableObject (Ty : Type) where
  type : Ty
  data : List (UInt64 × UInt64)

/-- The global variables. -/
structure State (Ty : Type) where
  previous_signature : String
  probing_set : Option Generated
  prev_table : Option (TableObject Ty)

/-- The template argument `Table` and the arguments the benchmark functions have in common. -/
structure Arguments (Ty : Type) where
  table : Ty
  dataset_size : ℕ
  did : ID
  probing_dist : ProbingDistribution
  deriving DecidableEq

/-- A benchmark function with the template argument or the argument that is its own. -/
inductive Benchmark where
  | TableProbe (RangeSize : ℕ)
  | TableMixedLookup (percentage_of_point_queries : ℕ)
  | PointProbe (RangeSize : ℕ) (succ_probability : ℤ)
  deriving DecidableEq

structure Call (Ty : Type) where
  fn : Benchmark
  args : Arguments Ty
  deriving DecidableEq

variable {Ty : Type}

/-- The initial values of the global variables. -/
def State.init : State Ty := ⟨"", none, none⟩

/-- The pairs of the table: each key with `key - 5`. -/
def makeData (keys : List UInt64) : List (UInt64 × UInt64) := keys.map fun key => (key, key - 5)

/-- `signature`; `number` is `RangeSize` or `percentage_of_point_queries`. -/
def signature (typeidName : Ty → String) (number : ℕ) (args : Arguments Ty) : String :=
  typeidName args.table ++ "_" ++ toString number ++ "_" ++ toString args.dataset_size ++ "_" ++
    args.did.name ++ "_" ++ args.probing_dist.name

/-- A benchmark function up to its measured loop, with the keys that `load_cached` returns and the
    draws of `generate_probing_set` if they are called; and whether the function gets to that loop. -/
def benchmark (typeidName : Ty → String) (number : ℕ) (succ_probability : ℤ) (args : Arguments Ty)
    (keys : List UInt64) (rng : dataset.Rng) (s : State Ty) :
    Except dataset.ProbingFault (State Ty × Bool) :=
  if s.previous_signature ≠ signature typeidName number args then
    match Generated.call rng keys args.probing_dist succ_probability with
    | .error fault => .error fault
    | .ok probing_set =>
      if makeData keys = [] then .ok ({ s with probing_set := some probing_set }, false)
      else
        .ok (⟨signature typeidName number args, some probing_set, some ⟨args.table, makeData keys⟩⟩,
          true)
  else .ok ({ s with previous_signature := signature typeidName number args }, true)

/-- `TableProbe<Table, RangeSize>`. -/
def TableProbe (typeidName : Ty → String) (RangeSize : ℕ) : Arguments Ty → List UInt64 →
    dataset.Rng → State Ty → Except dataset.ProbingFault (State Ty × Bool) :=
  benchmark typeidName RangeSize 100

/-- `TableMixedLookup<Table>`. -/
def TableMixedLookup (typeidName : Ty → String) (percentage_of_point_queries : ℕ) :
    Arguments Ty → List UInt64 → dataset.Rng → State Ty →
    Except dataset.ProbingFault (State Ty × Bool) :=
  benchmark typeidName percentage_of_point_queries 100

/-- `PointProbe<Table, RangeSize>`. -/
def PointProbe (typeidName : Ty → String) (RangeSize : ℕ) (succ_probability : ℤ) :
    Arguments Ty → List UInt64 → dataset.Rng → State Ty →
    Except dataset.ProbingFault (State Ty × Bool) :=
  benchmark typeidName RangeSize succ_probability

/-- A call, with the keys that `load_cached` returns during it and the draws for its probes. -/
def Call.run (typeidName : Ty → String) (c : Call Ty) : List UInt64 → dataset.Rng → State Ty →
    Except dataset.ProbingFault (State Ty × Bool) :=
  match c.fn with
  | .TableProbe RangeSize => Fixture.TableProbe typeidName RangeSize c.args
  | .TableMixedLookup percentage => Fixture.TableMixedLookup typeidName percentage c.args
  | .PointProbe RangeSize succ_probability =>
    Fixture.PointProbe typeidName RangeSize succ_probability c.args

/-- The calls of a sequence that get to their measured loop, each with its keys and the state there;
    every call has a random engine of its own. -/
def measurements (typeidName : Ty → String) : List (Call Ty × List UInt64) → Stream' dataset.Rng →
    State Ty → List (Call Ty × List UInt64 × State Ty)
  | [], _, _ => []
  | (c, keys) :: rest, rngs, s =>
    match c.run typeidName keys rngs.head s with
    | .error _ => []
    | .ok (s', true) => (c, keys, s') :: measurements typeidName rest rngs.tail s'
    | .ok (s', false) => measurements typeidName rest rngs.tail s'

/-! ### The measured loop -/

/-- `while (i >= probing_set.size()) i -= probing_set.size()`. -/
def wrap (size : ℕ) : ℕ → ℕ → Option ℕ
  | 0, _ => none
  | fuel + 1, i => if size ≤ i then wrap size fuel (i - size) else some i

/-- The iterations of the measured loop, as far as `i` is concerned. -/
def measuredLoop (size fuel : ℕ) : ℕ → ℕ → Option ℕ
  | 0, i => some i
  | iterations + 1, i => (wrap size fuel i).bind fun i => measuredLoop size fuel iterations (i + 1)

end Fixture
end HashingBenchmark
