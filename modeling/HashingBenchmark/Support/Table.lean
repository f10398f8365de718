import HashingBenchmark.Lib.Outcome

/-! What every table class of `code/include` shares: how a call on a table can fail, the functions
    that map a key to a directory index, and the template arguments that show in `name()`.

    A table throws `std::runtime_error`. An access outside the object a pointer or an index belongs
    to is undefined behaviour in the source; here it ends the call with `outOfBounds`, so that a
    result about calls that return is a result about calls without such an access. A walk along
    pointers that has seen more buckets than there are is on a cycle and ends with `diverges`. -/

namespace HashingBenchmark

/-- Why a call on a table does not return. -/
inductive Fault where
  | runtime_error (what : String)
  | outOfBounds
  | diverges
  deriving DecidableEq

/-- A hash function object: `operator()` and `name()`. -/
structure HashFn (Key : Type) where
  hash : Key → UInt64
  name : String

instance {Key : Type} : CoeFun (HashFn Key) (fun _ => Key → UInt64) := ⟨HashFn.hash⟩

/-- A trained model object: `operator()`, the predicted position of a key, and `name()`. -/
structure Model (Key : Type) where
  predict : Key → UInt64
  name : String

instance {Key : Type} : CoeFun (Model Key) (fun _ => Key → UInt64) := ⟨Model.predict⟩

/-- The template arguments of a table class other than its bucket size, its hash function and its
    key and payload types. -/
structure TemplateArgs (Key : Type) where
  sizeofKey : ℕ
  sizeofPayload : ℕ
  ManualPrefetch : Bool
  Sentinel : Key

/-- `name()` of the bucketed table classes; `fn` is the name of the hash function or the model. -/
def TemplateArgs.name {Key : Type} (args : TemplateArgs Key) (className : String) (BucketSize : ℕ)
    (fn : String) : String :=
  (if args.ManualPrefetch then "Prefetched" else "") ++ className ++ "<" ++
    toString args.sizeofKey ++ ", " ++ toString args.sizeofPayload ++ ", " ++
    toString BucketSize ++ ", " ++ fn ++ ">"

/-- The calls `insert(d.first, d.second)` for the pairs of a list, in order, up to the first
    exception. -/
def insertAll {Key Payload T : Type} (insert : Key → Payload → T → Outcome Fault T)
    (data : List (Key × Payload)) (t : T) : Outcome Fault T :=
  Outcome.runAll (fun d => insert d.1 d.2) data t

end HashingBenchmark
