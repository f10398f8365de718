import HashingBenchmark.Join.Runner

/-! The model-based build of `main`: the loop that fills `reinserted_rel_r_keys_vec`, a vector in
    which 0 marks a gap, with the keys of R.

    A key goes to the slot that the model guesses for it, scaled. If this slot is taken, the build
    looks for the nearest gap in both directions and moves the keys up to a gap by one slot. Pointers
    and counts are `uint64_t`: a pointer that is moved below 0 wraps, so the test `up_ptr < 0` never
    holds and the `at` after it throws. -/

namespace HashingBenchmark
namespace Gapped
open Join

/-- Why the build does not end normally: `std::out_of_range` of `at`, `std::length_error` of the
    vector, an index outside the vector, or the iterator `it`, which is not initialised. -/
inductive BuildFault where
  | out_of_range
  | length_error
  | outOfBounds
  | uninitialised
  | diverges
  deriving DecidableEq

/-- `max_size()` of a vector of 4-byte keys. -/
def maxSize : ℕ := 2305843009213693951

/-- The loop for the lower part: `down_count` and `hit_the_end`. -/
def searchDown (vec : List UInt32) : ℕ → UInt64 → UInt64 → Except BuildFault (UInt64 × Bool)
  | 0, _, _ => .error .diverges
  | fuel + 1, down_ptr, down_count =>
    let down_ptr := down_ptr + 1
    if vec.length ≤ down_ptr.toNat then .ok (down_count, true)
    else
      match vec[down_ptr.toNat]? with
      | none => .error .out_of_range
      | some key =>
        if key = 0 then .ok (down_count, false) else searchDown vec fuel down_ptr (down_count + 1)

/-- The loop for the upper part: `up_count` and `hit_the_start`. -/
def searchUp (vec : List UInt32) : ℕ → UInt64 → UInt64 → Except BuildFault (UInt64 × Bool)
  | 0, _, _ => .error .diverges
  | fuel + 1, up_ptr, up_count =>
    let up_ptr := up_ptr - 1
    if up_ptr < 0 then .ok (up_count, true)
    else
      match vec[up_ptr.toNat]? with
      | none => .error .out_of_range
      | some key =>
        if key = 0 then .ok (up_count, false) else searchUp vec fuel up_ptr (up_count + 1)

/-- `vec[to] = vec[from]`, with the unchecked `operator[]`. -/
def move (src dst : UInt64) (vec : List UInt32) : Outcome BuildFault (List UInt32) :=
  match vec[src.toNat]? with
  | none => .threw .outOfBounds vec
  | some key =>
    if dst.toNat < vec.length then .returned (vec.set dst.toNat key) else .threw .outOfBounds vec

/-- The loop `vec[curr_index + h + 1] = vec[curr_index + h]`, with `n - 1` as the first `h`. -/
def shiftRight (curr_index : UInt64) : ℕ → List UInt32 → Outcome BuildFault (List UInt32)
  | 0, vec => .returned vec
  | h + 1, vec =>
    (move (curr_index + UInt64.ofNat h) (curr_index + UInt64.ofNat h + 1) vec).andThen
      (shiftRight curr_index h)

/-- The loop `vec[curr_index - h - 1] = vec[curr_index - h]`, with `n - 1` as the first `h`. -/
def shiftLeft (curr_index : UInt64) : ℕ → List UInt32 → Outcome BuildFault (List UInt32)
  | 0, vec => .returned vec
  | h + 1, vec =>
    (move (curr_index - UInt64.ofNat h) (curr_index - UInt64.ofNat h - 1) vec).andThen
      (shiftLeft curr_index h)

/-- `vec[curr_index] = key`. -/
def put (curr_index : UInt64) (key : UInt32) (vec : List UInt32) :
    Outcome BuildFault (List UInt32) :=
  if curr_index.toNat < vec.length then .returned (vec.set curr_index.toNat key)
  else .threw .outOfBounds vec

/-- The body of the loop over R. -/
def insertKey (curr_index : UInt64) (key : UInt32) (vec : List UInt32) :
    Outcome BuildFault (List UInt32) :=
  match vec[curr_index.toNat]? with
  | none => .threw .out_of_range vec
  | some x =>
    if x = 0 then put curr_index key vec
    else
      match searchDown vec (vec.length + 1) curr_index 0 with
      | .error fault => .threw fault vec
      | .ok (down_count, hit_the_end) =>
        match searchUp vec (vec.length + 1) curr_index 0 with
        | .error fault => .threw fault vec
        | .ok (up_count, hit_the_start) =>
          if down_count ≤ up_count then
            if !hit_the_end then
              (shiftRight curr_index (down_count.toNat + 1) vec).andThen (put curr_index key)
            else if !hit_the_start then
              (shiftLeft curr_index (down_count.toNat + 1) vec).andThen (put curr_index key)
            else .threw .uninitialised vec
          else
            if !hit_the_start then
              (shiftLeft curr_index (down_count.toNat + 1) vec).andThen (put curr_index key)
            else if !hit_the_end then
              (shiftRight curr_index (down_count.toNat + 1) vec).andThen (put curr_index key)
            else .threw .uninitialised vec

/-- `max_rmi_guess`; `unspecified` is what `rel_r.tuples[0].key` reads if R is empty. -/
def maxRmiGuess (lookup : UInt32 → UInt64) (unspecified : UInt32) (rel_r : List Tuple) : UInt64 :=
  rel_r.foldl (fun max_rmi_guess t =>
      if max_rmi_guess < lookup t.key then lookup t.key else max_rmi_guess)
    (lookup ((rel_r.head?.map Tuple.key).getD unspecified))

/-- The size of `reinserted_rel_r_keys_vec`. -/
def gappedSize (lookup : UInt32 → UInt64) (scaling_factor : UInt64) (unspecified : UInt32)
    (rel_r : List Tuple) : UInt64 :=
  (maxRmiGuess lookup unspecified rel_r + 1) * scaling_factor

/-- The iterations of the loop over R, on a vector. -/
def insertTuples (lookup : UInt32 → UInt64) (scaling_factor : UInt64) (rel_r : List Tuple)
    (vec : List UInt32) : Outcome BuildFault (List UInt32) :=
  Outcome.runAll (fun t => insertKey (lookup t.key * scaling_factor) t.key) rel_r vec

/-- The model-based build: the vector of gaps, and the loop over R. -/
def modelBasedBuild (lookup : UInt32 → UInt64) (scaling_factor : UInt64) (unspecified : UInt32)
    (rel_r : List Tuple) : Outcome BuildFault (List UInt32) :=
  if maxSize < (gappedSize lookup scaling_factor unspecified rel_r).toNat then
    .threw .length_error []
  else
    insertTuples lookup scaling_factor rel_r
      (List.replicate (gappedSize lookup scaling_factor unspecified rel_r).toNat 0)

end Gapped
end HashingBenchmark
